-- SUMMARY: Closing a set gives every item of it its consequences, whatever the order in which the items arrive.
import ContextFree.Proofs.Earley.Moves

/-!
# Closing a set

The closing loop goes through the items of a set while others join it. Once an item has been processed, the nonterminal
after its dot is predicted, and it has met every completed item it waits for: those that were processed earlier through
the table of empty nonterminals, those that come later when they are processed themselves. A set holds one item per
state and origin at most, so the loop comes to its end.
-/
namespace ContextFree.Earley.Run

variable {α : Type} [DecidableEq α] {job : Job α} {run run' : Run} {position cursor k : Nat} {item item' : Item}
  {A : Nonterminal} {empties : Std.TreeMap Nonterminal NodeId}

/-- The item has `A` after its dot. -/
def WaitsFor (job : Job α) (item : Item) (A : Nonterminal) : Prop :=
  (job.grammar.state item.state).next = some (.nonterminal A)

/-- The item completes `A` from `k` on. -/
def Completes (job : Job α) (item : Item) (A : Nonterminal) (k : Nat) : Prop :=
  (job.grammar.state item.state).next = none ∧ (job.grammar.state item.state).lhs = A ∧ item.origin = k

theorem Sound.exists_next (hp : job.grammar.Regular) (hs : run.Sound job) (hitem : item ∈ (run.set k).items)
    {symbol : Symbol} (hnext : (job.grammar.state item.state).next = some symbol) :
    ∃ id before after, ItemOk job run.table k item id before (symbol :: after) := by
  obtain ⟨id, before, after, hok⟩ := hs.item hitem
  rw [hok.atDot.next_eq hp] at hnext
  cases after with
  | nil => cases hnext
  | cons symbol' after =>
    cases hnext
    exact ⟨id, before, after, hok⟩

theorem Sound.exists_complete (hp : job.grammar.Regular) (hs : run.Sound job) (hitem : item ∈ (run.set k).items)
    (hnext : (job.grammar.state item.state).next = none) :
    ∃ id before, ItemOk job run.table k item id before [] := by
  obtain ⟨id, before, after, hok⟩ := hs.item hitem
  rw [hok.atDot.next_eq hp] at hnext
  cases after with
  | nil => exact ⟨id, before, hok⟩
  | cons symbol after => cases hnext

/-- Every item of the set at `position` has had its consequences there. -/
structure ClosedAt (job : Job α) (run : Run) (position : Nat) : Prop where
  called : ∀ {item A}, item ∈ (run.set position).items → WaitsFor job item A → A ∈ (run.set position).predicted
  resumed : ∀ {item item' A k}, item ∈ (run.set k).items → WaitsFor job item A →
    item' ∈ (run.set position).items → Completes job item' A k → run.Advanced job item.state item.origin k position
  nothing : ∀ {item id}, item ∈ (run.set position).items → job.grammar.AtDot item.state id [] [] →
    run.table.Records job.grammar item.state position position position

/-! ## The loop -/

/-- The item is one of the first `cursor` items of the set. -/
def Processed (run : Run) (position cursor : Nat) (item : Item) : Prop :=
  ∃ index < cursor, (run.set position).items[index]? = some item

/-- The items before the cursor have had their consequences, as far as they concern each other and earlier sets. -/
structure Closing (job : Job α) (position cursor : Nat) (empties : Std.TreeMap Nonterminal NodeId) (run : Run) :
    Prop where
  sound : run.Sound job
  predicted : run.Predicted job
  called : ∀ {item A}, run.Processed position cursor item → WaitsFor job item A → A ∈ (run.set position).predicted
  resumed : ∀ {item item' A k}, item ∈ (run.set k).items → (k = position → run.Processed position cursor item) →
    WaitsFor job item A → run.Processed position cursor item' → Completes job item' A k →
    run.Advanced job item.state item.origin k position
  nothing : ∀ {item id}, run.Processed position cursor item → job.grammar.AtDot item.state id [] [] →
    run.table.Records job.grammar item.state position position position
  empties_sound : ∀ {A node}, empties[A]? = some node →
    node < run.table.size ∧ (run.table.node node).identity = ⟨.symbol (.nonterminal A), position, position⟩
  empties_complete : ∀ {item A}, run.Processed position cursor item → Completes job item A position →
    ∃ node, empties[A]? = some node

theorem Processed.mem (h : run.Processed position cursor item) : item ∈ (run.set position).items := by
  obtain ⟨index, -, hitem⟩ := h
  exact Array.mem_of_getElem? hitem

/-- One more item counts as processed, and those that joined meanwhile do not. -/
theorem processed_succ {touched : Nat → Prop} (hgrows : Grows touched run run')
    (hitem : (run.set position).items[cursor]? = some item) :
    run'.Processed position (cursor + 1) item' ↔ run.Processed position cursor item' ∨ item' = item := by
  constructor
  · rintro ⟨index, hlt, hget⟩
    rcases Nat.lt_succ_iff_lt_or_eq.mp hlt with hlt | rfl
    · have hin : index < (run.set position).items.size :=
        Nat.lt_trans hlt (Array.getElem?_eq_some_iff.mp hitem).1
      have hold := hgrows.getElem? (Array.getElem?_eq_getElem hin)
      rw [hold] at hget
      exact .inl ⟨index, hlt, by rw [Array.getElem?_eq_getElem hin, hget]⟩
    · rw [hgrows.getElem? hitem] at hget
      exact .inr (Option.some.inj hget).symm
  · rintro (⟨index, hlt, hget⟩ | rfl)
    · exact ⟨index, Nat.lt_succ_of_lt hlt, hgrows.getElem? hget⟩
    · exact ⟨cursor, Nat.lt_succ_self cursor, hgrows.getElem? hitem⟩

/-- The cursor moves on if the item at it has its consequences: it meets the items processed before it, and a completed one
also those that wait for it without having been processed. -/
theorem Closing.advance_cursor {empties' : Std.TreeMap Nonterminal NodeId} (h : Closing job position cursor empties run)
    (hitem : (run.set position).items[cursor]? = some item) (hsound : run'.Sound job) (hpredicted : run'.Predicted job)
    (hgrows : Grows (· = position) run run')
    (hcalled : ∀ A, WaitsFor job item A → A ∈ (run'.set position).predicted)
    (hwaits : ∀ A item', WaitsFor job item A → run.Processed position cursor item' → Completes job item' A position →
      run'.Advanced job item.state item.origin position position)
    (hcompletes : ∀ A k other, Completes job item A k → other ∈ (run.set k).items → WaitsFor job other A →
      run'.Advanced job other.state other.origin k position)
    (hnothing : ∀ id, job.grammar.AtDot item.state id [] [] →
      run'.table.Records job.grammar item.state position position position)
    (hempties : ∀ (A : Nonterminal) node, empties'[A]? = some node → node < run'.table.size ∧
      (run'.table.node node).identity = ⟨.symbol (.nonterminal A), position, position⟩)
    (hkept : ∀ (A : Nonterminal) node, empties[A]? = some node → ∃ node', empties'[A]? = some node')
    (hadded : ∀ A : Nonterminal, Completes job item A position → ∃ node, empties'[A]? = some node) :
    Closing job position (cursor + 1) empties' run' := by
  have hprocessed : ∀ {item'}, run'.Processed position (cursor + 1) item' ↔
      run.Processed position cursor item' ∨ item' = item := processed_succ hgrows hitem
  refine ⟨hsound, hpredicted, ?_, ?_, ?_, hempties _ _, ?_⟩
  · intro other A hother hwaitsFor
    rcases hprocessed.mp hother with hold | rfl
    · exact hgrows.predicted position A (h.called hold hwaitsFor)
    · exact hcalled A hwaitsFor
  · intro other item' A k hother hlocal hwaitsFor hitem' hcompletes'
    -- an item of another set, or a processed one, was there before this step
    have hbefore : other ∈ (run.set k).items := by
      by_cases hk : k = position
      · subst hk
        rcases hprocessed.mp (hlocal rfl) with hold | rfl
        · exact hold.mem
        · exact Array.mem_of_getElem? hitem
      · rwa [hgrows.same k hk] at hother
    rcases hprocessed.mp hitem' with hold' | rfl
    · by_cases hnew : k = position → run.Processed position cursor other
      · exact (h.resumed hbefore hnew hwaitsFor hold' hcompletes').mono h.sound hgrows
      · push Not at hnew
        obtain ⟨rfl, hnew⟩ := hnew
        obtain rfl := (hprocessed.mp (hlocal rfl)).resolve_left hnew
        exact hwaits A item' hwaitsFor hold' hcompletes'
    · exact hcompletes A k other hcompletes' hbefore hwaitsFor
  · intro other id hother hdot
    rcases hprocessed.mp hother with hold | rfl
    · exact (h.nothing hold hdot).mono h.sound.faithful.consistent hgrows.table
    · exact hnothing id hdot
  · intro other A hother hcompletes'
    rcases hprocessed.mp hother with hold | rfl
    · obtain ⟨node, hnode⟩ := h.empties_complete hold hcompletes'
      exact hkept A node hnode
    · exact hadded A hcompletes'

theorem Closing.node_mono (h : Closing job position cursor empties run) (hextends : run.table.Extends run'.table)
    {node : NodeId} (hnode : empties[A]? = some node) :
    node < run'.table.size ∧ (run'.table.node node).identity = ⟨.symbol (.nonterminal A), position, position⟩ := by
  obtain ⟨hlt, hidentity⟩ := h.empties_sound hnode
  exact ⟨Nat.lt_of_lt_of_le hlt hextends.size_le, (hextends.identity_eq hlt).trans hidentity⟩

/-! ## One item -/

theorem Predicted.of_same (h : run.Predicted job) {touched : Nat → Prop} (hgrows : Grows touched run run')
    (hsame : ∀ j, (run'.set j).predicted = (run.set j).predicted) : run'.Predicted job := by
  intro j A id hA hid hadmits
  rw [hsame] at hA
  exact hgrows.mem (h hA hid hadmits)

theorem Sound.tick (hs : run.Sound job) : Sound job { run with workItems := run.workItems + 1 } :=
  hs.withTable (.refl _) hs.faithful (Nat.le_refl _) hs.furthest

theorem Closing.tick (h : Closing job position cursor empties run) :
    Closing job position cursor empties { run with workItems := run.workItems + 1 } :=
  ⟨h.sound.tick, h.predicted, h.called, h.resumed, h.nothing, h.empties_sound, h.empties_complete⟩

/-- Advancing waiting items over a nonterminal from `k` to `position` whose node is known. -/
theorem advanceAll_spec (hp : job.grammar.Regular) (hs : run.Sound job) (hposition : position ≤ job.tokens.size)
    {node : Nat} (hlt : node < run.table.size)
    (hnode : (run.table.node node).identity = ⟨.symbol (.nonterminal A), k, position⟩) {items : List Item}
    (hitems : ∀ other ∈ items, other ∈ (run.set k).items ∧ WaitsFor job other A) :
    (items.foldl (fun run other => run.advance job other position node) run).Sound job ∧
      Grows (· = position) run (items.foldl (fun run other => run.advance job other position node) run) ∧
      (∀ j, ((items.foldl (fun run other => run.advance job other position node) run).set j).predicted =
        (run.set j).predicted) ∧
      ∀ other ∈ items, (items.foldl (fun run other => run.advance job other position node) run).Advanced job
        other.state other.origin k position := by
  have hderives : job.grammar.DerivesSpan job.tokens [.nonterminal A] k position := by
    have hderived := hs.faithful.derived ⟨node, hlt, hnode⟩
    exact hderived
  have hstep : ∀ r : Run, ∀ other ∈ items, Advancing job run r →
      Advancing job run (r.advance job other position node) ∧
        Grows (· = position) r (r.advance job other position node) ∧
        (r.advance job other position node).Advanced job other.state other.origin k position := by
    intro r other hother hr
    obtain ⟨hmem, hwaits⟩ := hitems other hother
    obtain ⟨id, before, after, hok⟩ := hs.exists_next hp hmem hwaits
    obtain ⟨hsound, hgrows, hadvanced, hpredicted⟩ := advance_spec hp hr.sound hposition (hok.mono hr.table)
      (Nat.lt_of_lt_of_le hlt hr.table.size_le) ((hr.table.identity_eq hlt).trans hnode) hderives
    exact ⟨hr.step hsound hgrows hpredicted, hgrows, hadvanced⟩
  obtain ⟨hlast, hgrows, hadvanced⟩ := foldl_visits Grows.refl Grows.trans (P := Advancing job run)
    (Q := fun (other : Item) r => r.Advanced job other.state other.origin k position)
    hstep (fun r r' other hr hgrows hadvanced => hadvanced.mono hr.sound hgrows) (.refl hs)
  exact ⟨hlast.sound, hgrows, hlast.predicted, hadvanced⟩

/-- An item before a terminal has no consequences until the set is scanned. -/
theorem Closing.terminal (hp : job.grammar.Regular) (h : Closing job position cursor empties run)
    (hitem : (run.set position).items[cursor]? = some item) {t : TerminalId}
    (hnext : (job.grammar.state item.state).next = some (.terminal t)) :
    Closing job position (cursor + 1) empties run := by
  have hwaits : ∀ A, ¬ WaitsFor job item A := by simp [WaitsFor, hnext]
  have hcompletes : ∀ A k, ¬ Completes job item A k := by simp [Completes, hnext]
  have hnothing : ∀ id, ¬ job.grammar.AtDot item.state id [] [] := by
    intro id hdot
    simp [hdot.next_eq hp] at hnext
  exact h.advance_cursor hitem h.sound h.predicted (.refl run) (fun A hA => absurd hA (hwaits A))
    (fun A _ hA => absurd hA (hwaits A)) (fun A k _ hA => absurd hA (hcompletes A k))
    (fun id hdot => absurd hdot (hnothing id)) (fun _ _ => h.empties_sound) (fun _ node hnode => ⟨node, hnode⟩)
    (fun A hA => absurd hA (hcompletes A position))

/-- An item before a nonterminal predicts it, and moves on at once if the nonterminal has been completed here. -/
theorem Closing.call (hp : job.grammar.Regular) (h : Closing job position cursor empties run)
    (hitem : (run.set position).items[cursor]? = some item) (hnext : WaitsFor job item A) (hsound : run'.Sound job)
    (hpredicted : run'.Predicted job) (hgrows : Grows (· = position) run run') (hcalled : A ∈ (run'.set position).predicted)
    (hadvanced : ∀ node, empties[A]? = some node → run'.Advanced job item.state item.origin position position) :
    Closing job position (cursor + 1) empties run' := by
  have hwaits : ∀ B, WaitsFor job item B → B = A := by
    intro B hB
    simpa [WaitsFor] using hB.symm.trans hnext
  have hcompletes : ∀ A k, ¬ Completes job item A k := by
    intro B k hB
    exact absurd (hB.1.symm.trans hnext) (by simp)
  refine h.advance_cursor hitem hsound hpredicted hgrows (fun B hB => ?_) (fun B item' hB hprocessed hcompletes' => ?_)
    (fun A k _ hA => absurd hA (hcompletes A k)) (fun id hdot => ?_) (fun _ _ => h.node_mono hgrows.table)
    (fun _ node hnode => ⟨node, hnode⟩) (fun A hA => absurd hA (hcompletes A position))
  · rwa [hwaits B hB]
  · obtain ⟨node, hnode⟩ := h.empties_complete hprocessed hcompletes'
    rw [hwaits B hB] at hnode
    exact hadvanced node hnode
  · have := (hdot.next_eq hp).symm.trans hnext
    cases this

/-- A completed item moves the items that wait for it; if it is empty, its node is kept for those that come later. -/
theorem Closing.complete (h : Closing job position cursor empties run)
    (hitem : (run.set position).items[cursor]? = some item) (hcompletes : Completes job item A k)
    (hsound : run'.Sound job) (hpredicted : run'.Predicted job) (hgrows : Grows (· = position) run run') {node : Nat}
    (hlt : node < run'.table.size)
    (hnode : (run'.table.node node).identity = ⟨.symbol (.nonterminal A), k, position⟩)
    (hadvanced : ∀ other ∈ (run.set k).items, WaitsFor job other A →
      run'.Advanced job other.state other.origin k position)
    (hnothing : ∀ id, job.grammar.AtDot item.state id [] [] →
      run'.table.Records job.grammar item.state position position position) :
    Closing job position (cursor + 1) (if k == position then empties.insert A node else empties) run' := by
  obtain ⟨hnext, hlhs, horigin⟩ := hcompletes
  have hwaits : ∀ B, ¬ WaitsFor job item B := by
    intro B hB
    exact absurd (hB.symm.trans hnext) (by simp)
  have hinsert : ∀ B : Nonterminal, (if k == position then empties.insert A node else empties)[B]? =
      if k = position ∧ A = B then some node else empties[B]? := by
    intro B
    by_cases hk : k = position
    · simp [hk, getElem?_insert_eq]
    · simp [hk]
  refine h.advance_cursor hitem hsound hpredicted hgrows (fun B hB => absurd hB (hwaits B))
    (fun B _ hB => absurd hB (hwaits B)) ?_ hnothing ?_ ?_ ?_
  · rintro B k' other ⟨-, rfl, rfl⟩ hother hB
    subst hlhs horigin
    exact hadvanced other hother hB
  · intro B node' hB
    rw [hinsert] at hB
    split at hB
    · rename_i heq
      obtain ⟨rfl, rfl⟩ := heq
      cases hB
      exact ⟨hlt, hnode⟩
    · exact h.node_mono hgrows.table hB
  · intro B node' hB
    rw [hinsert]
    split
    · exact ⟨node, rfl⟩
    · exact ⟨node', hB⟩
  · rintro B ⟨-, rfl, rfl⟩
    subst hlhs horigin
    exact ⟨node, by rw [hinsert, if_pos ⟨rfl, rfl⟩]⟩

/-- Processing a completed item. -/
theorem Closing.processComplete (hp : job.grammar.Regular) (h : Closing job position cursor empties run)
    (hposition : position ≤ job.tokens.size) (hitem : (run.set position).items[cursor]? = some item)
    (hnext : (job.grammar.state item.state).next = none) {made : NodeId × Run}
    (hmade : run.completedNode job item position = made) :
    Closing job position (cursor + 1)
        (if item.origin == position then empties.insert (job.grammar.state item.state).lhs made.1 else empties)
        (((made.2.set item.origin).waitingOn (job.grammar.state item.state).lhs).foldl
          (fun run other => run.advance job other position made.1) made.2) ∧
      Grows (· = position) run (((made.2.set item.origin).waitingOn (job.grammar.state item.state).lhs).foldl
        (fun run other => run.advance job other position made.1) made.2) := by
  obtain ⟨id, before, hok⟩ := h.sound.exists_complete hp (Array.mem_of_getElem? hitem) hnext
  obtain ⟨hs, hsets, hextends, hlt, hnode, hnothing⟩ := completedNode_spec hp h.sound hok
  rw [hmade] at hs hsets hextends hlt hnode hnothing
  rw [← hok.atDot.lhs_eq hp] at hnode
  have hset : ∀ j, made.2.set j = run.set j := fun j => by rw [Run.set, hsets, Run.set]
  have hwaiting : ∀ {other}, other ∈ ((made.2.set item.origin).waitingOn (job.grammar.state item.state).lhs).toList ↔
      other ∈ (run.set item.origin).items ∧ WaitsFor job other (job.grammar.state item.state).lhs := by
    intro other
    rw [Array.mem_toList_iff, hset, (h.sound.filed item.origin).mem_waitingOn]
    rfl
  obtain ⟨hsound, hgrows, hsame, hadvanced⟩ := advanceAll_spec hp hs hposition hlt hnode
    fun other hother => ⟨by rw [hset]; exact (hwaiting.mp hother).1, (hwaiting.mp hother).2⟩
  rw [Array.foldl_toList] at hsound hgrows hsame hadvanced
  have hfirst : Grows (· = position) run made.2 :=
    ⟨fun j => by rw [hset], fun j => by rw [hset]; exact Sub.refl _, hextends, fun j _ => hset j⟩
  have hall := hfirst.trans hgrows
  refine ⟨h.complete hitem ⟨hnext, rfl, rfl⟩ hsound ?_ hall ?_ ?_ ?_ ?_, hall⟩
  · exact h.predicted.of_same hall fun j => by rw [hsame, hset]
  · exact Nat.lt_of_lt_of_le hlt hgrows.table.size_le
  · rw [hgrows.table.identity_eq hlt, hnode]
  · exact fun other hother hwaits => hadvanced other (hwaiting.mpr ⟨hother, hwaits⟩)
  · intro id' hdot
    obtain ⟨rfl, rfl, -⟩ := hok.atDot.unique hp hdot
    exact (hnothing rfl).mono hs.faithful.consistent hgrows.table

/-- Processing an item before a nonterminal that has been completed over nothing. -/
theorem Closing.processCall (hp : job.grammar.Regular) (h : Closing job position cursor empties run)
    (hposition : position ≤ job.tokens.size) (hitem : (run.set position).items[cursor]? = some item)
    (hnext : WaitsFor job item A) {node : NodeId} (hnode : empties[A]? = some node) :
    Closing job position (cursor + 1) empties ((run.predict job A position).advance job item position node) ∧
      Grows (· = position) run ((run.predict job A position).advance job item position node) := by
  have hmem : item ∈ (run.set position).items := Array.mem_of_getElem? hitem
  obtain ⟨id, before, after, hok⟩ := h.sound.exists_next hp hmem hnext
  obtain ⟨hsound, hpredicted, hgrows, hcalled⟩ :=
    predict_spec hp h.sound h.predicted hposition (h.sound.le_furthest hmem) (hok.asks hp)
  obtain ⟨hlt, hidentity⟩ := h.node_mono hgrows.table hnode
  have hone : ∀ other ∈ [item], other ∈ ((run.predict job A position).set position).items ∧ WaitsFor job other A := by
    simpa using ⟨hgrows.mem hmem, hnext⟩
  obtain ⟨hsound', hgrows', hsame, hadvanced⟩ := advanceAll_spec hp hsound hposition hlt hidentity hone
  have hall := hgrows.trans hgrows'
  refine ⟨h.call hp hitem hnext hsound' (hpredicted.of_same hgrows' hsame) hall ?_ fun _ _ => ?_, hall⟩
  · exact hgrows'.predicted position A hcalled
  · exact hadvanced item List.mem_cons_self

/-- Processing an item gives it its consequences. -/
theorem Closing.processItem (hp : job.grammar.Regular) (h : Closing job position cursor empties run)
    (hposition : position ≤ job.tokens.size) (hitem : (run.set position).items[cursor]? = some item) :
    Closing job position (cursor + 1) (run.processItem job position item empties).1
        (run.processItem job position item empties).2 ∧
      Grows (· = position) run (run.processItem job position item empties).2 := by
  have hticked := h.tick
  have htick : Grows (· = position) run { run with workItems := run.workItems + 1 } := grows_withTable (.refl _)
  unfold Run.processItem
  generalize ({ run with workItems := run.workItems + 1 } : Run) = ticked at hticked htick
  have hitem := htick.getElem? hitem
  cases hnext : (job.grammar.state item.state).next with
  | none =>
    simp only [hnext]
    obtain ⟨hclosing, hgrows⟩ := hticked.processComplete hp hposition hitem hnext rfl
    exact ⟨hclosing, htick.trans hgrows⟩
  | some symbol =>
    cases symbol with
    | terminal t =>
      simp only [hnext]
      exact ⟨hticked.terminal hp hitem hnext, htick⟩
    | nonterminal A =>
      simp only [hnext]
      cases hnode : empties[A]? with
      | none =>
        have hmem := Array.mem_of_getElem? hitem
        obtain ⟨id, before, after, hok⟩ := hticked.sound.exists_next hp hmem hnext
        obtain ⟨hsound, hpredicted, hgrows, hcalled⟩ := predict_spec hp hticked.sound hticked.predicted hposition
          (hticked.sound.le_furthest hmem) (hok.asks hp)
        have hnone : ∀ node, empties[A]? ≠ some node := by simp [hnode]
        exact ⟨hticked.call hp hitem hnext hsound hpredicted hgrows hcalled fun node h => absurd h (hnone node),
          htick.trans hgrows⟩
      | some node =>
        obtain ⟨hclosing, hgrows⟩ := hticked.processCall hp hposition hitem hnext hnode
        exact ⟨hclosing, htick.trans hgrows⟩

/-! ## The whole set -/

/-- A set has one item per state and origin. -/
theorem Sound.item_unique (hp : job.grammar.Regular) (hs : run.Sound job) (hitem : item ∈ (run.set k).items)
    (hitem' : item' ∈ (run.set k).items) (hstate : item.state = item'.state) (horigin : item.origin = item'.origin) :
    item = item' := by
  obtain ⟨id, before, after, hok⟩ := hs.item hitem
  obtain ⟨id', before', after', hok'⟩ := hs.item hitem'
  obtain ⟨state, origin, node⟩ := item
  obtain ⟨state', origin', node'⟩ := item'
  subst hstate horigin
  obtain ⟨rfl, rfl, rfl⟩ := hok.atDot.unique hp hok'.atDot
  have hnode : node = node' := by
    rcases hok.part with ⟨hnil, hnone⟩ | ⟨hne, n, hlt, hsome, hidentity⟩
    · rcases hok'.part with ⟨-, hnone'⟩ | ⟨hne', _⟩
      · exact hnone.trans hnone'.symm
      · exact absurd hnil hne'
    · rcases hok'.part with ⟨hnil', -⟩ | ⟨-, n', hlt', hsome', hidentity'⟩
      · exact absurd hnil' hne
      · have hsame : n = n' :=
          hs.faithful.consistent.identity_injective hlt hlt' (hidentity.trans hidentity'.symm)
        exact hsome.trans (hsame ▸ hsome'.symm)
  rw [hnode]

theorem Sound.size_items_le (hp : job.grammar.Regular) (hs : run.Sound job) (position : Nat) :
    (run.set position).items.size ≤ job.grammar.states.size * (position + 1) := by
  have hinjective : ∀ a ∈ (run.set position).items.toList, ∀ b ∈ (run.set position).items.toList,
      (a.state, a.origin) = (b.state, b.origin) → a = b := by
    intro a ha b hb heq
    exact hs.item_unique hp (Array.mem_toList_iff.mp ha) (Array.mem_toList_iff.mp hb)
      (congrArg Prod.fst heq) (congrArg Prod.snd heq)
  have hnodup := (hs.filed position).nodup.map_on hinjective
  have hsub : ((run.set position).items.toList.map fun item => (item.state, item.origin)).toFinset ⊆
      Finset.range job.grammar.states.size ×ˢ Finset.range (position + 1) := by
    intro pair hpair
    obtain ⟨item, hitem, rfl⟩ := List.mem_map.mp (List.mem_toFinset.mp hpair)
    obtain ⟨id, before, after, hok⟩ := hs.item (Array.mem_toList_iff.mp hitem)
    have hle := hok.derives.le
    exact Finset.mem_product.mpr ⟨Finset.mem_range.mpr (hok.atDot.lt_size hp),
      Finset.mem_range.mpr (Nat.lt_succ_of_le hle)⟩
  have hcard := Finset.card_le_card hsub
  rwa [List.toFinset_card_of_nodup hnodup, List.length_map, Array.length_toList, Finset.card_product,
    Finset.card_range, Finset.card_range] at hcard

theorem Closing.start (hs : run.Sound job) (hpredicted : run.Predicted job) : Closing job position 0 ∅ run := by
  have hnone : ∀ {item}, ¬ run.Processed position 0 item := fun ⟨_, hlt, _⟩ => absurd hlt (Nat.not_lt_zero _)
  exact ⟨hs, hpredicted, fun h => absurd h hnone, fun _ _ _ h => absurd h hnone, fun h => absurd h hnone, by simp,
    fun h => absurd h hnone⟩

/-- When the cursor has reached the end, the set is closed. -/
theorem Closing.closedAt (h : Closing job position cursor empties run)
    (hsize : (run.set position).items.size ≤ cursor) : run.ClosedAt job position := by
  have hall : ∀ {item}, item ∈ (run.set position).items → run.Processed position cursor item := by
    intro item hitem
    obtain ⟨index, hindex, heq⟩ := Array.mem_iff_getElem.mp hitem
    exact ⟨index, Nat.lt_of_lt_of_le hindex hsize, by rw [Array.getElem?_eq_getElem hindex, heq]⟩
  refine ⟨fun hitem => h.called (hall hitem), fun {item item' A k} hitem hwaits hitem' => ?_,
    fun hitem => h.nothing (hall hitem)⟩
  exact h.resumed hitem (fun hk => hall (hk ▸ hitem)) hwaits (hall hitem')

theorem Closing.closeFrom (hp : job.grammar.Regular) (hposition : position ≤ job.tokens.size) (fuel : Nat)
    (h : Closing job position cursor empties run) (hfuel : job.grammar.states.size * (position + 1) ≤ cursor + fuel) :
    (run.closeFrom job position fuel cursor empties).Sound job ∧
      (run.closeFrom job position fuel cursor empties).Predicted job ∧
      Grows (· = position) run (run.closeFrom job position fuel cursor empties) ∧
      (run.closeFrom job position fuel cursor empties).ClosedAt job position := by
  -- each item that is processed takes one of the places that a set has
  induction fuel generalizing cursor empties run with
  | zero =>
    have hsize := h.sound.size_items_le hp position
    exact ⟨h.sound, h.predicted, .refl run, h.closedAt (Nat.le_trans hsize hfuel)⟩
  | succ fuel ih =>
    simp only [Run.closeFrom]
    cases hitem : (run.set position).items[cursor]? with
    | none => exact ⟨h.sound, h.predicted, .refl run, h.closedAt (Array.getElem?_eq_none_iff.mp hitem)⟩
    | some item =>
      obtain ⟨hnext, hgrows⟩ := h.processItem hp hposition hitem
      obtain ⟨hsound, hpredicted, hgrows', hclosed⟩ := ih hnext (by omega)
      exact ⟨hsound, hpredicted, hgrows.trans hgrows', hclosed⟩

/-- Each item of the set from the cursor on is counted once. -/
theorem Closing.workItems_closeFrom (hp : job.grammar.Regular) (hposition : position ≤ job.tokens.size) (fuel : Nat)
    (h : Closing job position cursor empties run) (hcursor : cursor ≤ (run.set position).items.size)
    (hfuel : job.grammar.states.size * (position + 1) ≤ cursor + fuel) :
    (run.closeFrom job position fuel cursor empties).workItems + cursor =
      run.workItems + ((run.closeFrom job position fuel cursor empties).set position).items.size := by
  induction fuel generalizing cursor empties run with
  | zero =>
    have hsize := h.sound.size_items_le hp position
    simp only [Run.closeFrom]
    omega
  | succ fuel ih =>
    simp only [Run.closeFrom]
    cases hitem : (run.set position).items[cursor]? with
    | none =>
      have hsize := Array.getElem?_eq_none_iff.mp hitem
      dsimp only
      omega
    | some item =>
      obtain ⟨hnext, hgrows⟩ := h.processItem hp hposition hitem
      have hcursor' := (Array.getElem?_eq_some_iff.mp (hgrows.getElem? hitem)).1
      have hcount := ih hnext hcursor' (by omega)
      rw [workItems_processItem] at hcount
      dsimp only
      omega

/-- Closing a set touches no other set, and leaves it closed. -/
theorem close_spec (hp : job.grammar.Regular) (hposition : position ≤ job.tokens.size) (hs : run.Sound job)
    (hpredicted : run.Predicted job) :
    (run.close job position).Sound job ∧ (run.close job position).Predicted job ∧
      Grows (· = position) run (run.close job position) ∧ (run.close job position).ClosedAt job position :=
  (Closing.start hs hpredicted).closeFrom hp hposition _ (by omega)

/-- Closing a set counts its items. -/
theorem workItems_close (hp : job.grammar.Regular) (hposition : position ≤ job.tokens.size) (hs : run.Sound job)
    (hpredicted : run.Predicted job) :
    (run.close job position).workItems = run.workItems + ((run.close job position).set position).items.size :=
  (Closing.start hs hpredicted).workItems_closeFrom hp hposition _ (Nat.zero_le _) (by omega)

end ContextFree.Earley.Run
