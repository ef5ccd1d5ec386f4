-- SUMMARY: Every item, node and family of a run is derived, and each move adds what it should.
import ContextFree.Proofs.Earley.Chart
import ContextFree.Proofs.Reaching

/-!
# Moves

A run is sound if its items stand for derivations of the input by rules that were asked for, and its table is faithful. Predicting, completing and scanning
are built from two moves: adding an item at the start of a rule and advancing an item over a symbol that has been
recognized. Both keep a run sound.
-/
namespace ContextFree.Earley

variable {α : Type} [DecidableEq α]

/-- Whether lookahead lets a rule start at a position. -/
def Admits (job : Job α) (id : RuleId) (position : Nat) : Prop :=
  (job.config.lookahead && !job.grammar.canStart id job.tokens position) = false

/-- The nonterminal is asked for at the position by rules that lookahead lets start. -/
def Asked (job : Job α) (A : Nonterminal) (position : Nat) : Prop :=
  job.grammar.Asks job.tokens
    (fun rule i => ∃ id ∈ job.grammar.rulesFor rule.lhs, job.grammar.rule id = rule ∧ Admits job id i) A position

/-- An item stands for a derivation by a rule that was asked for, and has the node of the symbols before its dot. -/
structure ItemOk (job : Job α) (t : NodeTable) (j : Nat) (item : Item) (id : RuleId) (before after : List Symbol) :
    Prop where
  atDot : job.grammar.AtDot item.state id before after
  useful : id ∈ job.grammar.rulesFor (job.grammar.rule id).lhs
  asked : Asked job (job.grammar.rule id).lhs item.origin
  admitted : Admits job id item.origin
  derives : job.grammar.DerivesSpan job.tokens before item.origin j
  part : t.IsPart job.grammar item.state id before after item.origin j item.node

namespace ItemOk

variable {job : Job α} {t t' : NodeTable} {j : Nat} {item : Item} {id : RuleId} {before after : List Symbol}

theorem mono (h : ItemOk job t j item id before after) (hextends : t.Extends t') :
    ItemOk job t' j item id before after :=
  ⟨h.atDot, h.useful, h.asked, h.admitted, h.derives, h.part.mono hextends⟩

/-- An item asks for the nonterminal after its dot. -/
theorem asks {A : Nonterminal} (hp : job.grammar.Regular) (h : ItemOk job t j item id before (.nonterminal A :: after)) :
    Asked job A j :=
  h.asked.inner hp h.useful h.atDot.rhs_eq ⟨id, h.useful, rfl, h.admitted⟩ h.derives

/-- The position of an item is reached. -/
theorem reaches (hp : job.grammar.Regular) (h : ItemOk job t j item id before after) : job.grammar.Reaches job.tokens j :=
  hp.reaches h.asked h.useful h.atDot.rhs_eq h.derives

end ItemOk

namespace Run

variable {job : Job α} {run run' : Run} {position i j k : Nat} {item : Item} {slot : StateId} {id : RuleId}
  {before after : List Symbol} {symbol : Symbol}

/-- Everything in the run is derived, and filed where it belongs. -/
structure Sound (job : Job α) (run : Run) : Prop where
  size_eq : run.sets.size = job.tokens.size + 1
  faithful : run.table.Faithful job.grammar job.tokens
  filed : ∀ j, (run.set j).Filed fun item => (job.grammar.state item.state).next
  item : ∀ {j item}, item ∈ (run.set j).items → ∃ id before after, ItemOk job run.table j item id before after
  le_furthest : ∀ {j item}, item ∈ (run.set j).items → j ≤ run.furthest
  furthest : job.grammar.Reaches job.tokens run.furthest

/-- The rules of a predicted nonterminal have been started. -/
def Predicted (job : Job α) (run : Run) : Prop :=
  ∀ ⦃j A id⦄, A ∈ (run.set j).predicted → id ∈ job.grammar.rulesFor A → Admits job id j →
    ⟨job.grammar.states.initial id, j, none⟩ ∈ (run.set j).items

/-- There is an item for a state and an origin at a position. -/
def Visits (run : Run) (slot : StateId) (i j : Nat) : Prop :=
  ∃ node, ⟨slot, i, node⟩ ∈ (run.set j).items

/-- The dot of an item was moved over a symbol from `k` to `j`, and the split is recorded. -/
def Advanced (job : Job α) (slot : StateId) (i k j : Nat) (run : Run) : Prop :=
  run.Visits (slot + 1) i j ∧ run.table.Records job.grammar (slot + 1) i k j

theorem Advanced.mono {touched : Nat → Prop} (h : run.Advanced job slot i k j) (hs : run.Sound job)
    (hgrows : Grows touched run run') : run'.Advanced job slot i k j :=
  ⟨h.1.imp fun _ hitem => hgrows.mem hitem, h.2.mono hs.faithful.consistent hgrows.table⟩

/-! ## Adding an item -/

theorem addItem_grows (hs : run.Sound job) (hposition : position ≤ job.tokens.size) (item : Item) :
    Grows (· = position) run (run.addItem job position item) := by
  have hlt : position < run.sets.size := by rw [hs.size_eq]; omega
  refine ⟨fun j => ?_, fun j => ?_, .refl _, fun j hj => ?_⟩
  · rw [set_addItem hlt]
    split
    · by_cases hmem : item ∈ (run.set j).items
      · rw [ItemSet.add_of_mem (hs.filed j) hmem]
      · rw [ItemSet.items_add (hs.filed j) hmem, Array.toList_push]
        exact List.prefix_append _ _
    · exact List.prefix_refl _
  · rw [set_addItem hlt]
    split
    · rw [ItemSet.predicted_add]
      exact Sub.refl _
    · exact Sub.refl _
  · rw [set_addItem hlt, if_neg (Ne.symm hj)]

theorem mem_addItem (hs : run.Sound job) (hposition : position ≤ job.tokens.size) {other : Item} :
    other ∈ ((run.addItem job position item).set j).items ↔
      other ∈ (run.set j).items ∨ (j = position ∧ other = item) := by
  have hlt : position < run.sets.size := by rw [hs.size_eq]; omega
  rw [set_addItem hlt]
  split
  · rename_i heq
    rw [ItemSet.mem_add (hs.filed j)]
    simp [heq]
  · rename_i hne
    simp [Ne.symm hne]

theorem predicted_addItem (hs : run.Sound job) (hposition : position ≤ job.tokens.size) (item : Item) (j : Nat) :
    ((run.addItem job position item).set j).predicted = (run.set j).predicted := by
  have hlt : position < run.sets.size := by rw [hs.size_eq]; omega
  rw [set_addItem hlt]
  split
  · exact ItemSet.predicted_add _ _ _
  · rfl

theorem Sound.addItem (hs : run.Sound job) (hposition : position ≤ job.tokens.size)
    (hok : ItemOk job run.table position item id before after) (hfurthest : position ≤ run.furthest) :
    (run.addItem job position item).Sound job := by
  have hlt : position < run.sets.size := by rw [hs.size_eq]; omega
  refine ⟨?_, hs.faithful, fun j => ?_, fun hitem => ?_, fun hitem => ?_, hs.furthest⟩
  · rw [Run.addItem, Array.size_modify, hs.size_eq]
  · rw [set_addItem hlt]
    split
    · exact (hs.filed j).add item
    · exact hs.filed j
  · rcases (mem_addItem hs hposition).mp hitem with hold | ⟨rfl, rfl⟩
    · exact hs.item hold
    · exact ⟨id, before, after, hok⟩
  · rcases (mem_addItem hs hposition).mp hitem with hold | ⟨rfl, rfl⟩
    · exact hs.le_furthest hold
    · exact hfurthest

/-- A table that has grown and is still faithful. -/
theorem Sound.withTable (hs : run.Sound job) {table : NodeTable} {furthest workItems : Nat}
    (hextends : run.table.Extends table) (hfaithful : table.Faithful job.grammar job.tokens)
    (hfurthest : run.furthest ≤ furthest) (hreaches : job.grammar.Reaches job.tokens furthest) :
    Sound job ⟨run.sets, table, furthest, workItems⟩ where
  size_eq := hs.size_eq
  faithful := hfaithful
  filed := hs.filed
  item hitem := by
    obtain ⟨id, before, after, hok⟩ := hs.item hitem
    exact ⟨id, before, after, hok.mono hextends⟩
  le_furthest hitem := Nat.le_trans (hs.le_furthest hitem) hfurthest
  furthest := hreaches

theorem grows_withTable {table : NodeTable} {furthest workItems : Nat} {touched : Nat → Prop}
    (hextends : run.table.Extends table) : Grows touched run ⟨run.sets, table, furthest, workItems⟩ :=
  ⟨fun _ => List.prefix_refl _, fun _ => Sub.refl _, hextends, fun _ _ => rfl⟩

/-! ## Advancing an item -/

/-- Advancing an item over a symbol from `k` to `j`, whose node is `child`. -/
theorem advance_spec (hp : job.grammar.Regular) (hs : run.Sound job) (hj : j ≤ job.tokens.size)
    (hok : ItemOk job run.table k item id before (symbol :: after)) {child : Nat} (hlt : child < run.table.size)
    (hchild : (run.table.node child).identity = ⟨.symbol symbol, k, j⟩)
    (hsymbol : job.grammar.DerivesSpan job.tokens [symbol] k j) :
    (run.advance job item j child).Sound job ∧ Grows (· = j) run (run.advance job item j child) ∧
      (run.advance job item j child).Advanced job item.state item.origin k j ∧
      ∀ j', ((run.advance job item j child).set j').predicted = (run.set j').predicted := by
  have hk : before = [] → k = item.origin := by
    rintro rfl
    have hderives := hok.derives
    unfold Prepared.DerivesSpan at hderives
    cases hderives
    rfl
  obtain ⟨hadds, hpart⟩ := NodeTable.recordStep_spec hp hs.faithful.consistent hok.atDot hk hok.part hlt hchild
  rw [advance_of_next hp hok.atDot]
  generalize run.table.recordStep job.grammar (item.state + 1) item.origin j item.node child = made at hadds hpart
  have hstep := hok.atDot.step
  have hderives := hok.derives.append hsymbol
  have hfaithful : made.2.Faithful job.grammar job.tokens := by
    have hway := fun hown => Way.of_atDot hstep hok.useful hown (.last hok.derives hsymbol)
    refine hs.faithful.adds hadds ?_ ?_
    · rintro x ⟨hown, rfl⟩
      exact (hway hown).derived hp
    · rintro x key ⟨hown, rfl, rfl⟩
      exact hway hown
  have hitem : ItemOk job made.2 j ⟨item.state + 1, item.origin, some made.1⟩ id (before ++ [symbol]) after :=
    ⟨hstep, hok.useful, hok.asked, hok.admitted, hderives, hpart⟩
  have hmoved : Sound job ⟨run.sets, made.2, max run.furthest j, run.workItems⟩ :=
    hs.withTable hadds.extension hfaithful (Nat.le_max_left _ _) (hs.furthest.max (hitem.reaches hp))
  refine ⟨hmoved.addItem hj hitem (Nat.le_max_right _ _), ?_, ⟨⟨some made.1, ?_⟩, ?_⟩, ?_⟩
  · exact (grows_withTable hadds.extension).trans (addItem_grows hmoved hj _)
  · exact (mem_addItem hmoved hj).mpr (.inr ⟨rfl, rfl⟩)
  · intro id' before' after' hdot' hown
    obtain ⟨rfl, rfl, rfl⟩ := hstep.unique hp hdot'
    exact hadds.hasFamily.mpr (.inr ⟨hown, rfl, rfl⟩)
  · exact predicted_addItem hmoved hj _

/-- The run while items of it are advanced: its table grows and nothing is predicted. -/
structure Advancing (job : Job α) (run run' : Run) : Prop where
  sound : run'.Sound job
  table : run.table.Extends run'.table
  predicted : ∀ j, (run'.set j).predicted = (run.set j).predicted

theorem Advancing.refl (hs : run.Sound job) : Advancing job run run :=
  ⟨hs, .refl _, fun _ => rfl⟩

theorem Advancing.step {run'' : Run} {touched : Nat → Prop} (h : Advancing job run run') (hs : run''.Sound job)
    (hgrows : Grows touched run' run'') (hpredicted : ∀ j, (run''.set j).predicted = (run'.set j).predicted) :
    Advancing job run run'' :=
  ⟨hs, h.table.trans hgrows.table, fun j => (hpredicted j).trans (h.predicted j)⟩

/-! ## Predicting -/

theorem Sound.markPredicted (hs : run.Sound job) (position : Nat) (A : Nonterminal) :
    Sound job { run with sets := run.sets.modify position (·.markPredicted A) } := by
  have hitems : ∀ j, (Run.set { run with sets := run.sets.modify position (·.markPredicted A) } j).items =
      (run.set j).items := by
    intro j
    rw [set_modify]
    split <;> rfl
  refine ⟨?_, hs.faithful, fun j => ?_, fun {j item} hitem => ?_, fun {j item} hitem => ?_, hs.furthest⟩
  · rw [Array.size_modify, hs.size_eq]
  · obtain ⟨hnodup, hseen, hscans, hwaiting⟩ := hs.filed j
    rw [set_modify]
    split
    · exact ⟨hnodup, hseen, hscans, hwaiting⟩
    · exact ⟨hnodup, hseen, hscans, hwaiting⟩
  · rw [hitems] at hitem
    exact hs.item hitem
  · rw [hitems] at hitem
    exact hs.le_furthest hitem

theorem predicted_markPredicted (hs : run.Sound job) (hposition : position ≤ job.tokens.size) {A B : Nonterminal} :
    B ∈ (Run.set { run with sets := run.sets.modify position (·.markPredicted A) } j).predicted ↔
      B ∈ (run.set j).predicted ∨ (j = position ∧ B = A) := by
  have hlt : position < run.sets.size := by rw [hs.size_eq]; omega
  rw [set_modify]
  split
  · rename_i heq
    rw [ItemSet.markPredicted, mem_insert_iff, or_comm]
    simp [heq.1]
  · rename_i hne
    have hposition : j ≠ position := fun heq => hne ⟨heq.symm, heq ▸ hlt⟩
    simp [hposition]

theorem markPredicted_grows (run : Run) (position : Nat) (A : Nonterminal) :
    Grows (· = position) run { run with sets := run.sets.modify position (·.markPredicted A) } := by
  refine ⟨fun j => ?_, fun j => ?_, .refl _, fun j hj => ?_⟩
  · rw [set_modify]
    split <;> exact List.prefix_refl _
  · rw [set_modify]
    split
    · exact fun B hB => mem_insert_iff.mpr (.inr hB)
    · exact Sub.refl _
  · rw [set_modify, if_neg fun h => hj h.1.symm]

/-- Start one rule, if lookahead lets it start. -/
def startRule (job : Job α) (position : Nat) (run : Run) (id : RuleId) : Run :=
  if job.config.lookahead && !job.grammar.canStart id job.tokens position then run
  else run.addItem job position ⟨job.grammar.states.initial id, position, none⟩

/-- The run while the rules of a nonterminal are started: nothing else is predicted. -/
structure Starting (job : Job α) (position : Nat) (marked run : Run) : Prop where
  sound : run.Sound job
  le_furthest : position ≤ run.furthest
  predicted : ∀ j, (run.set j).predicted = (marked.set j).predicted

theorem startRule_spec {marked : Run} (hp : job.grammar.Regular) (hposition : position ≤ job.tokens.size)
    (h : Starting job position marked run) {A : Nonterminal} (hasked : Asked job A position)
    (hid : id ∈ job.grammar.rulesFor A) :
    Starting job position marked (run.startRule job position id) ∧
      Grows (· = position) run (run.startRule job position id) ∧
      (Admits job id position →
        ⟨job.grammar.states.initial id, position, none⟩ ∈ ((run.startRule job position id).set position).items) := by
  unfold startRule
  split
  · rename_i hrefused
    exact ⟨h, .refl run, fun hadmits => by simp [Admits, hrefused] at hadmits⟩
  · rename_i hadmits
    obtain ⟨hlt, -, rfl⟩ := hp.mem_rulesFor.mp hid
    have hok : ItemOk job run.table position ⟨job.grammar.states.initial id, position, none⟩ id []
        (job.grammar.rule id).rhs :=
      ⟨Prepared.atDot_initial hlt, hid, hasked, eq_false_of_ne_true hadmits, .nil position, .inl ⟨rfl, rfl⟩⟩
    refine ⟨⟨h.sound.addItem hposition hok h.le_furthest, h.le_furthest, fun j => ?_⟩,
      addItem_grows h.sound hposition _, fun _ => ?_⟩
    · rw [predicted_addItem h.sound hposition, h.predicted]
    · exact (mem_addItem h.sound hposition).mpr (.inr ⟨rfl, rfl⟩)

theorem predict_of_new {A : Nonterminal} (h : (run.set position).predicted.contains A = false) :
    run.predict job A position = (job.grammar.rulesFor A).toList.foldl (startRule job position)
      { run with sets := run.sets.modify position (·.markPredicted A) } := by
  simp only [predict, h, Array.foldl_toList]
  rfl

/-- Predicting a nonterminal starts those of its rules that lookahead lets start. -/
theorem predict_spec (hp : job.grammar.Regular) (hs : run.Sound job) (hpredicted : run.Predicted job)
    (hposition : position ≤ job.tokens.size) (hfurthest : position ≤ run.furthest) {A : Nonterminal}
    (hasked : Asked job A position) :
    (run.predict job A position).Sound job ∧ (run.predict job A position).Predicted job ∧
      Grows (· = position) run (run.predict job A position) ∧
      A ∈ ((run.predict job A position).set position).predicted := by
  cases hnew : (run.set position).predicted.contains A with
  | true =>
    simp only [predict, hnew, if_true]
    exact ⟨hs, hpredicted, .refl run, hnew⟩
  | false =>
    rw [predict_of_new hnew]
    have hmark : ∀ {j B}, B ∈ (Run.set { run with sets := run.sets.modify position (·.markPredicted A) } j).predicted ↔
        B ∈ (run.set j).predicted ∨ (j = position ∧ B = A) := predicted_markPredicted hs hposition
    have hmarked := hs.markPredicted position A
    have hgrows₁ := markPredicted_grows run position A
    have hstarting : Starting job position _ { run with sets := run.sets.modify position (·.markPredicted A) } :=
      ⟨hmarked, hfurthest, fun _ => rfl⟩
    generalize ({ run with sets := run.sets.modify position (·.markPredicted A) } : Run) = marked at *
    obtain ⟨⟨hsound, -, hsame⟩, hgrows₂, hstarted⟩ := foldl_visits Grows.refl Grows.trans
      (P := Starting job position marked)
      (Q := fun id r => Admits job id position →
        ⟨job.grammar.states.initial id, position, none⟩ ∈ (r.set position).items)
      (fun r id hid hr => startRule_spec hp hposition hr hasked (Array.mem_toList_iff.mp hid))
      (fun r r' id _ hgrows hitem hadmits => hgrows.mem (hitem hadmits)) hstarting
    have hall := hgrows₁.trans hgrows₂
    refine ⟨hsound, fun j B id hB hid hadmits => ?_, hall, ?_⟩
    · rw [hsame, hmark] at hB
      cases hB with
      | inl hold => exact hall.mem (hpredicted hold hid hadmits)
      | inr hboth =>
        obtain ⟨rfl, rfl⟩ := hboth
        exact hstarted id (Array.mem_toList_iff.mpr hid) hadmits
    · rw [hsame]
      exact hmark.mpr (.inr ⟨rfl, rfl⟩)

/-! ## Completing -/

/-- The node of a completed item. A rule with an empty body has its split recorded here. -/
theorem completedNode_spec (hp : job.grammar.Regular) (hs : run.Sound job)
    (hok : ItemOk job run.table position item id before []) :
    (run.completedNode job item position).2.Sound job ∧ (run.completedNode job item position).2.sets = run.sets ∧
      run.table.Extends (run.completedNode job item position).2.table ∧
      (run.completedNode job item position).1 < (run.completedNode job item position).2.table.size ∧
      ((run.completedNode job item position).2.table.node (run.completedNode job item position).1).identity =
        ⟨.symbol (.nonterminal (job.grammar.rule id).lhs), item.origin, position⟩ ∧
      (before = [] → (run.completedNode job item position).2.table.Records job.grammar item.state position position
        position) := by
  have hderives := hok.derives
  rcases hok.part with ⟨rfl, hnode⟩ | ⟨hne, node, hlt, hnode, hidentity⟩
  · have horigin : item.origin = position := by
      unfold Prepared.DerivesSpan at hderives
      cases hderives
      rfl
    have hdot := hok.atDot
    simp only [completedNode, hnode, hdot.lhs_eq hp, horigin]
    generalize hx : (⟨.symbol (.nonterminal (job.grammar.rule id).lhs), position, position⟩ : Identity) = x
    have hmade := NodeTable.intern_adds hs.faithful.consistent x
    obtain ⟨hmadeLt, hmadeId⟩ := NodeTable.intern_node hs.faithful.consistent x
    generalize run.table.intern x = made at hmade hmadeLt hmadeId
    have hchildren : ∀ child ∈ Family.nothing.children, child < made.2.size := by simp [Family.children]
    have hfamily := NodeTable.addFamily_adds hmade.consistent hmadeLt hchildren
    rw [hmadeId] at hfamily
    have hadds := hmade.trans hfamily
    have hway : Way job.grammar job.tokens x [] := by
      have hsplit : job.grammar.SplitsAt job.tokens [] position position position := .nothing position
      rw [← hx]
      exact .of_atDot hdot hok.useful (.inl rfl) hsplit
    have hfaithful := hs.faithful.adds hadds (by simpa using hway.derived hp)
      (by simpa [Order.familyKey, Family.children] using hway)
    refine ⟨hs.withTable hadds.extension hfaithful (Nat.le_refl _) hs.furthest, trivial, hadds.extension, ?_, ?_, ?_⟩
    · rw [NodeTable.size_addFamily]
      exact hmadeLt
    · rw [NodeTable.identity_addFamily, hmadeId]
    · intro _ id' before' after' hdot' hown
      obtain ⟨rfl, rfl, rfl⟩ := hdot.unique hp hdot'
      exact hadds.hasFamily.mpr (.inr (.inr ⟨hx, rfl⟩))
  · simp only [completedNode, hnode]
    exact ⟨hs, trivial, .refl _, hlt, hidentity, fun hnil => absurd hnil hne⟩

/-! ## Scanning -/

/-- Scanning an item advances it over the terminal after its dot, if that matches. -/
theorem scanItem_spec (hp : job.grammar.Regular) (hs : run.Sound job) {t : TerminalId}
    (hok : ItemOk job run.table position item id before (.terminal t :: after)) :
    (run.scanItem job position item).Sound job ∧ Grows (position < ·) run (run.scanItem job position item) ∧
      (∀ j, ((run.scanItem job position item).set j).predicted = (run.set j).predicted) ∧
      (0 < job.grammar.matchLength t job.tokens position →
        (run.scanItem job position item).Advanced job item.state item.origin position
          (position + job.grammar.matchLength t job.tokens position)) := by
  have hnext : (job.grammar.state item.state).next = some (.terminal t) := hok.atDot.next_eq hp
  have hle := job.grammar.matchLength_le t job.tokens position
  simp only [scanItem, hnext]
  generalize hlength : job.grammar.matchLength t job.tokens position = length at hle
  split
  · rename_i hzero
    have hzero : length = 0 := by simpa using hzero
    exact ⟨hs, .refl run, fun _ => rfl, fun hpos => by omega⟩
  · rename_i hpos
    have hpos : 0 < length := Nat.pos_of_ne_zero (by simpa using hpos)
    have hderives : job.grammar.DerivesSpan job.tokens [.terminal t] position (position + length) := by
      subst hlength
      exact .terminal hpos (.nil _)
    have hleaf := NodeTable.intern_adds hs.faithful.consistent ⟨.symbol (.terminal t), position, position + length⟩
    obtain ⟨hleafLt, hleafId⟩ :=
      NodeTable.intern_node hs.faithful.consistent ⟨.symbol (.terminal t), position, position + length⟩
    generalize run.table.intern ⟨.symbol (.terminal t), position, position + length⟩ = leaf at hleaf hleafLt hleafId
    have hfaithful := hs.faithful.adds hleaf (by rintro x rfl; exact hderives) (fun _ _ hfalse => hfalse.elim)
    have hwith : Sound job ⟨run.sets, leaf.2, run.furthest, run.workItems⟩ :=
      hs.withTable hleaf.extension hfaithful (Nat.le_refl _) hs.furthest
    obtain ⟨hsound, hgrows, hadvanced, hsame⟩ := advance_spec hp hwith (j := position + length) (by omega)
      (hok.mono hleaf.extension) hleafLt hleafId hderives
    refine ⟨hsound, (grows_withTable hleaf.extension).trans (hgrows.mono fun j hj => ?_), hsame, fun _ => hadvanced⟩
    omega

end Run
end ContextFree.Earley
