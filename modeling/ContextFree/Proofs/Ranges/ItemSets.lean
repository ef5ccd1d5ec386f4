-- SUMMARY: Every index that recognition by item sets uses is in range, move by move.
import ContextFree.Proofs.Earley.Passes
import ContextFree.Proofs.Ranges.Tables

/-!
# Ranges of item sets

A pass of recognition is a list of moves, which can be read off the chart before the first of them is made. A move names a
position, an item or a node. It is in range because what it names was in the chart and in the table when the pass began,
and both only grow. So the ranges need not be followed through the loops of a pass: each kind of move is looked at once.
-/
namespace ContextFree.Earley

variable {α : Type} [DecidableEq α] {job : Job α}

-- ---------------------------------------------------------------------------
-- Moves
-- ---------------------------------------------------------------------------

/-- The moves that recognition is made of. -/
inductive Move where
  /-- Note that a nonterminal is predicted at a position. -/
  | mark (A : Nonterminal) (position : Nat)
  /-- Start a rule at a position, if lookahead lets it start. -/
  | start (id : RuleId) (position : Nat)
  /-- Move the dot of an item over a symbol whose node is `child` and which ends at `position`. -/
  | advance (item : Item) (position : Nat) (child : NodeId)
  /-- Move the dot of an item over the terminal after it, if it matches at `position`. -/
  | scan (item : Item) (position : Nat)

def Move.make (job : Job α) (run : Run) : Move → Run
  | .mark A position             => { run with sets := run.sets.modify position (·.markPredicted A) }
  | .start id position           => run.startRule job position id
  | .advance item position child => run.advance job item position child
  | .scan item position          => run.scanItem job position item

namespace Run

/-- The moves that predict a nonterminal, once. -/
def predicting (job : Job α) (A : Nonterminal) (position : Nat) (run : Run) : List Move :=
  if (run.set position).predicted.contains A then []
  else .mark A position :: (job.grammar.rulesFor A).toList.map (.start · position)

/-- What there is to do for an item: the run in which the moves begin, and the moves. -/
def consequences (job : Job α) (position : Nat) (item : Item) (empties : Std.TreeMap Nonterminal NodeId) (run : Run) :
    Run × List Move :=
  let run := { run with workItems := run.workItems + 1 }
  let state := job.grammar.state item.state
  match state.next with
  | some (.terminal _)    => (run, [])
  | some (.nonterminal A) =>
    (run, run.predicting job A position ++ (empties[A]?.map fun node => Move.advance item position node).toList)
  | none =>
    let (node, run) := run.completedNode job item position
    (run, ((run.set item.origin).waitingOn state.lhs).toList.map fun other => .advance other position node)

theorem foldl_predicting (job : Job α) (A : Nonterminal) (position : Nat) (run : Run) :
    (run.predicting job A position).foldl (Move.make job) run = run.predict job A position := by
  unfold predicting
  cases hnew : (run.set position).predicted.contains A with
  | true => simp [predict, hnew]
  | false =>
    rw [predict_of_new hnew, if_neg Bool.false_ne_true, List.foldl_cons, List.foldl_map]
    rfl

theorem foldl_consequences (job : Job α) (position : Nat) (item : Item) (empties : Std.TreeMap Nonterminal NodeId)
    (run : Run) :
    (run.consequences job position item empties).2.foldl (Move.make job) (run.consequences job position item empties).1 =
      (run.processItem job position item empties).2 := by
  unfold consequences processItem
  dsimp only
  cases (job.grammar.state item.state).next with
  | none =>
    simp only [List.foldl_map, ← Array.foldl_toList]
    rfl
  | some symbol =>
    cases symbol with
    | terminal t => rfl
    | nonterminal A =>
      simp only [List.foldl_append, foldl_predicting]
      cases empties[A]? <;> rfl

end Run

/-- What there is to do in a pass: the run in which the moves begin, and the moves. -/
def Pass.work (job : Job α) (pass : Pass) : Run × List Move :=
  match (pass.run.set pass.position).items[pass.cursor]? with
  | some item => pass.run.consequences job pass.position item pass.empties
  | none      =>
    (pass.run,
      if pass.position == job.tokens.size then []
      else (pass.run.set pass.position).scans.toList.map fun item => .scan item pass.position)

/-- The moves of a pass lead to the next one, or to the last run. -/
theorem Pass.foldl_work (job : Job α) (pass : Pass) :
    (pass.work job).2.foldl (Move.make job) (pass.work job).1 =
      match pass.next? job with
      | some (_, next) => next.run
      | none           => pass.last job := by
  unfold Pass.work Pass.next? Pass.last
  cases (pass.run.set pass.position).items[pass.cursor]? with
  | some item => exact Run.foldl_consequences job _ item _ _
  | none =>
    dsimp only
    split
    · rfl
    · simp only [List.foldl_map, Run.scan, ← Array.foldl_toList]
      cases ((pass.run.set pass.position).scans.toList.foldl _ pass.run).nextPosition? pass.position <;> rfl

/-- Recognition makes this move in this run. -/
inductive Makes (job : Job α) : Run → Move → Prop where
  | opening {done rest : List Move} {move : Move} :
      (Run.init job).predicting job job.grammar.start 0 = done ++ move :: rest →
      Makes job (done.foldl (Move.make job) (Run.init job)) move
  | pass {taken : List (Option Spot)} {pass : Pass} {done rest : List Move} {move : Move} :
      Passes job taken pass → (pass.work job).2 = done ++ move :: rest →
      Makes job (done.foldl (Move.make job) (pass.work job).1) move

-- ---------------------------------------------------------------------------
-- Ranges
-- ---------------------------------------------------------------------------

/-- An item of the set at a position: its state, its origin and its node are in range. -/
structure Item.InRange (job : Job α) (t : NodeTable) (position : Nat) (item : Item) : Prop where
  state_lt : item.state < job.grammar.states.size
  origin_le : item.origin ≤ position
  node_lt : ∀ node ∈ item.node, node < t.size

/-- There is a set for each position of the input, and what the sets hold is in range. So is the table, whose nodes lie inside
the input. -/
structure Run.InRange (job : Job α) (run : Run) : Prop where
  sets_size : run.sets.size = job.tokens.size + 1
  item : ∀ j < run.sets.size, ∀ item ∈ (run.set j).items, item.InRange job run.table j
  scan : ∀ j < run.sets.size, ∀ item ∈ (run.set j).scans, item.InRange job run.table j
  waiting : ∀ j < run.sets.size, ∀ A, ∀ item ∈ (run.set j).waitingOn A, item.InRange job run.table j
  furthest_lt : run.furthest < run.sets.size
  table : run.table.InRange job.grammar job.tokens.size

/-- What a move names is in range. So is what it makes: the next state, the end of a match, and the nodes. -/
def Move.InRange (job : Job α) (run : Run) : Move → Prop
  | .mark _ position => position < run.sets.size
  | .start id position => id < job.grammar.grammar.rules.size ∧ position < run.sets.size
  | .advance item position child =>
    item.InRange job run.table position ∧ child < run.table.size ∧ position < run.sets.size ∧
    ∃ next, job.grammar.states.advance item.state = .ok next ∧ next < job.grammar.states.size ∧
      (let made := run.table.recordStep job.grammar next item.origin position item.node child
       made.1 < made.2.size)
  | .scan item position =>
    item.InRange job run.table position ∧ position < run.sets.size ∧
    ∃ t, (job.grammar.state item.state).next = some (.terminal t) ∧ t < job.grammar.grammar.terminals.size ∧
      position + job.grammar.matchLength t job.tokens position < run.sets.size

/-- The run is sound, and no node ends behind the input. -/
structure Run.Bounded (job : Job α) (run : Run) : Prop where
  sound : run.Sound job
  ends : run.table.EndsBy job.tokens.size

theorem ItemOk.inRange {t : NodeTable} {position : Nat} {item : Item} {id : RuleId} {before after : List Symbol}
    (hp : job.grammar.Regular) (h : ItemOk job t position item id before after) : item.InRange job t position := by
  refine ⟨h.atDot.lt_size hp, h.derives.le, fun node hnode => ?_⟩
  rcases h.part with ⟨-, hnone⟩ | ⟨-, n, hlt, hsome, -⟩
  · rw [hnone] at hnode
    cases hnode
  · rw [hsome] at hnode
    exact Option.some.inj hnode ▸ hlt

theorem Run.Bounded.inRange {run : Run} (hp : job.grammar.Regular) (hrange : job.grammar.InRange) (h : run.Bounded job) :
    run.InRange job := by
  have hitem : ∀ {j item}, item ∈ (run.set j).items → item.InRange job run.table j := by
    intro j item hitem
    obtain ⟨id, before, after, hok⟩ := h.sound.item hitem
    exact hok.inRange hp
  exact
    { sets_size := h.sound.size_eq
      item := fun j _ item hmem => hitem hmem
      scan := fun j _ item hmem => hitem ((h.sound.filed j).mem_scans.mp hmem).1
      waiting := fun j _ A item hmem => hitem ((h.sound.filed j).mem_waitingOn.mp hmem).1
      furthest_lt := by
        rw [h.sound.size_eq]
        exact Nat.lt_succ_of_le h.sound.furthest.le_size
      table := h.sound.faithful.inRange hp hrange h.ends }

-- ---------------------------------------------------------------------------
-- One move
-- ---------------------------------------------------------------------------

/-- What has to be so when a move is made. It stays so while the table grows. -/
inductive Move.Ready (job : Job α) (run : Run) : Move → Prop where
  | mark {A : Nonterminal} {position : Nat} : position ≤ job.tokens.size → Ready job run (.mark A position)
  | start {id : RuleId} {A : Nonterminal} {position : Nat} : id ∈ job.grammar.rulesFor A → Asked job A position →
      position ≤ job.tokens.size → position ≤ run.furthest → Ready job run (.start id position)
  | advance {item : Item} {position k : Nat} {child : NodeId} {id : RuleId} {before after : List Symbol} {symbol : Symbol} :
      ItemOk job run.table k item id before (symbol :: after) → child < run.table.size →
      (run.table.node child).identity = ⟨.symbol symbol, k, position⟩ → position ≤ job.tokens.size →
      Ready job run (.advance item position child)
  | scan {item : Item} {position : Nat} {id : RuleId} {before after : List Symbol} {t : TerminalId} :
      ItemOk job run.table position item id before (.terminal t :: after) → position ≤ job.tokens.size →
      Ready job run (.scan item position)

/-- What a run has in common with a later one. -/
structure Run.Onward (job : Job α) (run run' : Run) : Prop where
  bounded : run'.Bounded job
  table : run.table.Extends run'.table
  furthest : run.furthest ≤ run'.furthest

variable {run run' : Run} {move : Move}

theorem Run.Onward.refl (h : run.Bounded job) : Run.Onward job run run :=
  ⟨h, .refl _, Nat.le_refl _⟩

theorem Run.Onward.trans {run'' : Run} (h : Run.Onward job run run') (h' : Run.Onward job run' run'') :
    Run.Onward job run run'' :=
  ⟨h'.bounded, h.table.trans h'.table, Nat.le_trans h.furthest h'.furthest⟩

omit [DecidableEq α] in
theorem Run.onward_advance {item : Item} {position : Nat} {child : NodeId} (hends : run.table.EndsBy job.tokens.size)
    (hposition : position ≤ job.tokens.size) : (run.advance job item position child).table.EndsBy job.tokens.size ∧
      run.furthest ≤ (run.advance job item position child).furthest := by
  unfold Run.advance
  split
  · exact ⟨hends, Nat.le_refl _⟩
  · exact ⟨hends.recordStep hposition _ _ _ _, Nat.le_max_left _ _⟩

theorem Run.onward_scanItem {item : Item} {position : Nat} (hends : run.table.EndsBy job.tokens.size)
    (hposition : position ≤ job.tokens.size) : (run.scanItem job position item).table.EndsBy job.tokens.size ∧
      run.furthest ≤ (run.scanItem job position item).furthest := by
  unfold Run.scanItem
  split
  · rename_i t _
    have hle := job.grammar.matchLength_le t job.tokens position
    dsimp only
    split
    · exact ⟨hends, Nat.le_refl _⟩
    · refine onward_advance ?_ (by omega)
      exact hends.intern (x := ⟨.symbol (.terminal t), position, _⟩) (by dsimp only; omega)
  · exact ⟨hends, Nat.le_refl _⟩

namespace Move

theorem Ready.mono (h : move.Ready job run) (htable : run.table.Extends run'.table) (hfurthest : run.furthest ≤ run'.furthest) :
    move.Ready job run' := by
  cases h with
  | mark hposition => exact .mark hposition
  | start hid hasked hposition hle => exact .start hid hasked hposition (Nat.le_trans hle hfurthest)
  | advance hok hlt hchild hposition =>
    exact .advance (hok.mono htable) (Nat.lt_of_lt_of_le hlt htable.size_le) ((htable.identity_eq hlt).trans hchild) hposition
  | scan hok hposition => exact .scan (hok.mono htable) hposition

/-- A move that is ready leaves the run bounded, and only adds to it. -/
theorem Ready.onward (hp : job.grammar.Regular) (hrun : run.Bounded job) (h : move.Ready job run) :
    Run.Onward job run (move.make job run) := by
  cases h with
  | @mark A position hposition => exact ⟨⟨hrun.sound.markPredicted position A, hrun.ends⟩, .refl _, Nat.le_refl _⟩
  | @start id A position hid hasked hposition hle =>
    have hsame : (run.startRule job position id).table = run.table ∧
        (run.startRule job position id).furthest = run.furthest := by
      unfold Run.startRule
      split <;> exact ⟨rfl, rfl⟩
    have hstarting : Run.Starting job position run run := ⟨hrun.sound, hle, fun _ => rfl⟩
    obtain ⟨⟨hsound, -, -⟩, hgrows, -⟩ := Run.startRule_spec hp hposition hstarting hasked hid
    exact ⟨⟨hsound, hsame.1 ▸ hrun.ends⟩, hgrows.table, Nat.le_of_eq hsame.2.symm⟩
  | @advance item position k child id before after symbol hok hlt hchild hposition =>
    have hderived := hrun.sound.faithful.derived ⟨child, hlt, hchild⟩
    obtain ⟨hsound, hgrows, -, -⟩ := Run.advance_spec hp hrun.sound hposition hok hlt hchild hderived
    obtain ⟨hends, hfurthest⟩ := Run.onward_advance hrun.ends hposition
    exact ⟨⟨hsound, hends⟩, hgrows.table, hfurthest⟩
  | @scan item position id before after t hok hposition =>
    obtain ⟨hsound, hgrows, -, -⟩ := Run.scanItem_spec hp hrun.sound hok
    obtain ⟨hends, hfurthest⟩ := Run.onward_scanItem hrun.ends hposition
    exact ⟨⟨hsound, hends⟩, hgrows.table, hfurthest⟩

theorem Ready.inRange (hp : job.grammar.Regular) (hrange : job.grammar.InRange) (hrun : run.Bounded job)
    (h : move.Ready job run) : move.InRange job run := by
  have hset : ∀ {position}, position ≤ job.tokens.size → position < run.sets.size := by
    intro position hposition
    rw [hrun.sound.size_eq]
    exact Nat.lt_succ_of_le hposition
  cases h with
  | mark hposition => exact hset hposition
  | @start id A position hid hasked hposition hle => exact ⟨hrange.rulesFor A id hid, hset hposition⟩
  | @advance item position k child id before after symbol hok hlt hchild hposition =>
    have hk : k ≤ position := Derived.le (hrun.sound.faithful.derived ⟨child, hlt, hchild⟩)
    obtain ⟨hstate, horigin, hnode⟩ := hok.inRange hp
    exact ⟨⟨hstate, Nat.le_trans horigin hk, hnode⟩, hlt, hset hposition, _, hok.atDot.advance_eq hp,
      hok.atDot.step.lt_size hp, hrun.sound.faithful.consistent.recordStep_lt hlt _ _ _ _⟩
  | @scan item position id before after t hok hposition =>
    have hnext := hok.atDot.next_eq hp
    have hitem := hok.inRange hp
    have hle := job.grammar.matchLength_le t job.tokens position
    refine ⟨hitem, hset hposition, t, hnext, ?_, hset (by omega)⟩
    exact hrange.next _ hitem.state_lt _ hnext

/-- Moves that are ready at first are ready when it is their turn. -/
theorem onward_foldl (hp : job.grammar.Regular) {moves : List Move} (hrun : run.Bounded job)
    (hready : ∀ move ∈ moves, move.Ready job run) : Run.Onward job run (moves.foldl (make job) run) := by
  induction moves generalizing run with
  | nil => exact .refl hrun
  | cons move moves ih =>
    obtain ⟨hmove, hrest⟩ := List.forall_mem_cons.mp hready
    have honward := hmove.onward hp hrun
    exact honward.trans (ih honward.bounded fun move hmem => (hrest move hmem).mono honward.table honward.furthest)

theorem ready_of_foldl (hp : job.grammar.Regular) {done rest : List Move} (hrun : run.Bounded job)
    (hready : ∀ move' ∈ done ++ move :: rest, move'.Ready job run) :
    (done.foldl (make job) run).Bounded job ∧ move.Ready job (done.foldl (make job) run) := by
  obtain ⟨hdone, hmove⟩ := List.forall_mem_append.mp hready
  have honward := onward_foldl hp hrun hdone
  exact ⟨honward.bounded, (hmove move List.mem_cons_self).mono honward.table honward.furthest⟩

end Move

-- ---------------------------------------------------------------------------
-- All moves
-- ---------------------------------------------------------------------------

variable {position : Nat} {A : Nonterminal}

theorem Run.ready_predicting (run : Run) (hasked : Asked job A position) (hposition : position ≤ job.tokens.size)
    (hfurthest : position ≤ run.furthest) : ∀ move ∈ run.predicting job A position, move.Ready job run := by
  intro move hmove
  unfold Run.predicting at hmove
  split at hmove
  · cases hmove
  · rcases List.mem_cons.mp hmove with rfl | hstart
    · exact .mark hposition
    · obtain ⟨id, hid, rfl⟩ := List.mem_map.mp hstart
      exact .start (Array.mem_toList_iff.mp hid) hasked hposition hfurthest

omit [DecidableEq α] in
theorem Run.endsBy_completedNode {item : Item} (hends : run.table.EndsBy job.tokens.size)
    (hposition : position ≤ job.tokens.size) : (run.completedNode job item position).2.table.EndsBy job.tokens.size := by
  unfold Run.completedNode
  split
  · exact hends
  · have hinterned := hends.intern (x := ⟨.symbol (.nonterminal (job.grammar.state item.state).lhs), position, position⟩)
      hposition
    exact hinterned.addFamily _ _

/-- The moves for an item begin in a bounded run, and are all ready there. -/
theorem Run.Closing.ready_consequences (hp : job.grammar.Regular) {cursor : Nat} {empties : Std.TreeMap Nonterminal NodeId}
    {item : Item} (h : Closing job position cursor empties run) (hends : run.table.EndsBy job.tokens.size)
    (hposition : position ≤ job.tokens.size) (hitem : (run.set position).items[cursor]? = some item) :
    (run.consequences job position item empties).1.Bounded job ∧
      ∀ move ∈ (run.consequences job position item empties).2,
        move.Ready job (run.consequences job position item empties).1 := by
  have hticked := h.tick
  have hmem : item ∈ (run.set position).items := Array.mem_of_getElem? hitem
  unfold Run.consequences
  generalize hrun : ({ run with workItems := run.workItems + 1 } : Run) = ticked at hticked
  have hmem : item ∈ (ticked.set position).items := hrun ▸ hmem
  have hends : ticked.table.EndsBy job.tokens.size := hrun ▸ hends
  cases hnext : (job.grammar.state item.state).next with
  | none =>
    -- who waits for the completed symbol is read off the set at its origin before any of them moves
    obtain ⟨id, before, hok⟩ := hticked.sound.exists_complete hp hmem hnext
    obtain ⟨hs, hsets, -, hlt, hnode, -⟩ := completedNode_spec hp hticked.sound hok
    simp only [hnext]
    refine ⟨⟨hs, Run.endsBy_completedNode hends hposition⟩, fun move hmove => ?_⟩
    obtain ⟨other, hother, rfl⟩ := List.mem_map.mp hmove
    obtain ⟨hmem', hwaits⟩ := (hs.filed item.origin).mem_waitingOn.mp (Array.mem_toList_iff.mp hother)
    rw [← hok.atDot.lhs_eq hp] at hnode
    obtain ⟨id', before', after', hok'⟩ := hs.exists_next hp hmem' hwaits
    exact .advance hok' hlt hnode hposition
  | some symbol =>
    cases symbol with
    | terminal t =>
      simp only [hnext]
      exact ⟨⟨hticked.sound, hends⟩, fun move hmove => absurd hmove List.not_mem_nil⟩
    | nonterminal A =>
      obtain ⟨id, before, after, hok⟩ := hticked.sound.exists_next hp hmem hnext
      simp only [hnext]
      refine ⟨⟨hticked.sound, hends⟩, List.forall_mem_append.mpr ⟨?_, fun move hmove => ?_⟩⟩
      · exact ticked.ready_predicting (hok.asks hp) hposition (hticked.sound.le_furthest hmem)
      · obtain ⟨node, hnode, rfl⟩ := Option.map_eq_some_iff.mp (Option.mem_toList.mp hmove)
        obtain ⟨hlt, hidentity⟩ := hticked.empties_sound hnode
        exact .advance hok hlt hidentity hposition

/-- The work of a pass begins in a bounded run, and its moves are all ready there. -/
theorem Pass.Ready.ready_work (hp : job.grammar.Regular) {pass : Pass} (h : pass.Ready job)
    (hends : pass.run.table.EndsBy job.tokens.size) :
    (pass.work job).1.Bounded job ∧ ∀ move ∈ (pass.work job).2, move.Ready job (pass.work job).1 := by
  unfold Pass.work
  cases hitem : (pass.run.set pass.position).items[pass.cursor]? with
  | some item => exact h.closing.ready_consequences hp hends h.le_size hitem
  | none =>
    refine ⟨⟨h.closing.sound, hends⟩, fun move hmove => ?_⟩
    dsimp only at hmove
    split at hmove
    · cases hmove
    · obtain ⟨item, hitem, rfl⟩ := List.mem_map.mp hmove
      obtain ⟨hmem, t, hnext⟩ := (h.closing.sound.filed _).mem_scans.mp (Array.mem_toList_iff.mp hitem)
      obtain ⟨id, before, after, hok⟩ := h.closing.sound.exists_next hp hmem hnext
      exact .scan hok h.le_size

theorem Run.bounded_init (job : Job α) : (Run.init job).Bounded job :=
  ⟨(sound_init job).1, fun id hid => absurd hid (Nat.not_lt_zero id)⟩

theorem Run.ready_opening (job : Job α) :
    ∀ move ∈ (Run.init job).predicting job job.grammar.start 0, move.Ready job (Run.init job) :=
  (Run.init job).ready_predicting .start (Nat.zero_le _) (Nat.zero_le _)

theorem Passes.bounded (hp : job.grammar.Regular) {taken : List (Option Spot)} {pass : Pass} (h : Passes job taken pass) :
    pass.run.Bounded job := by
  refine ⟨(h.ready hp).closing.sound, ?_⟩
  induction h with
  | start =>
    have honward := Move.onward_foldl hp (Run.bounded_init job) (Run.ready_opening job)
    rw [Run.foldl_predicting] at honward
    exact honward.bounded.ends
  | @next taken pass pass' x hsteps hnext ih =>
    obtain ⟨hbounded, hready⟩ := (Passes.ready hp hsteps).ready_work hp ih
    have honward := Move.onward_foldl hp hbounded hready
    rw [Pass.foldl_work, hnext] at honward
    exact honward.bounded.ends

/-- Every move that recognition makes is in range, in a run that is in range. -/
theorem Makes.inRange (hp : job.grammar.Regular) (hrange : job.grammar.InRange) (h : Makes job run move) :
    run.InRange job ∧ move.InRange job run := by
  cases h with
  | opening hmoves =>
    obtain ⟨hbounded, hready⟩ := Move.ready_of_foldl hp (Run.bounded_init job) (hmoves ▸ Run.ready_opening job)
    exact ⟨hbounded.inRange hp hrange, hready.inRange hp hrange hbounded⟩
  | pass hpass hmoves =>
    obtain ⟨hbegun, hwork⟩ := (hpass.ready hp).ready_work hp (hpass.bounded hp).ends
    obtain ⟨hbounded, hready⟩ := Move.ready_of_foldl hp hbegun (hmoves ▸ hwork)
    exact ⟨hbounded.inRange hp hrange, hready.inRange hp hrange hbounded⟩

/-- The place where a pass stands is in range. -/
structure Pass.InRange (job : Job α) (pass : Pass) : Prop where
  position_lt : pass.position < pass.run.sets.size
  empties_lt : ∀ (A : Nonterminal) node, pass.empties[A]? = some node → node < pass.run.table.size
  run : pass.run.InRange job
  last : pass.next? job = none → (pass.last job).InRange job

theorem Passes.inRange (hp : job.grammar.Regular) (hrange : job.grammar.InRange) {taken : List (Option Spot)} {pass : Pass}
    (h : Passes job taken pass) : pass.InRange job where
  position_lt := by
    rw [(h.ready hp).closing.sound.size_eq]
    exact Nat.lt_succ_of_le (h.ready hp).le_size
  empties_lt _ _ hnode := ((h.ready hp).closing.empties_sound hnode).1
  run := (h.bounded hp).inRange hp hrange
  last hnone := by
    obtain ⟨hbounded, hready⟩ := (h.ready hp).ready_work hp (h.bounded hp).ends
    have honward := Move.onward_foldl hp hbounded hready
    rw [Pass.foldl_work, hnone] at honward
    exact honward.bounded.inRange hp hrange

/-- Recognition goes from pass to pass up to its last run, each pass is made of moves, and all of them are in range. -/
structure RecognizesInRange (job : Job α) (frequency? : Option Nat) : Prop where
  ends : ∃ taken pass, Passes job taken pass ∧ pass.next? job = none ∧ pass.last job = (recognize job frequency?).run
  work : ∀ pass : Pass, (pass.work job).2.foldl (Move.make job) (pass.work job).1 =
    match pass.next? job with
    | some (_, next) => next.run
    | none           => pass.last job
  passes : ∀ taken pass, Passes job taken pass → pass.InRange job
  moves : ∀ run move, Makes job run move → run.InRange job ∧ move.InRange job run

theorem recognizesInRange (hp : job.grammar.Regular) (hrange : job.grammar.InRange) (frequency? : Option Nat) :
    RecognizesInRange job frequency? where
  ends := Passes.exists_recognize hp frequency?
  work := Pass.foldl_work job
  passes _ _ h := h.inRange hp hrange
  moves _ _ h := h.inRange hp hrange

end ContextFree.Earley
