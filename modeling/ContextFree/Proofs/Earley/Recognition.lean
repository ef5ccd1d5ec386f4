-- SUMMARY: When recognition by item sets halts, every set is closed and scanned: its chart is a closed search.
import ContextFree.Proofs.Earley.Closing
import ContextFree.Proofs.Exact

/-!
# Recognition by item sets

Recognition goes from one position that has items to the next. The sets in between are empty, those behind are closed and
scanned and stay as they are. When it halts there is nothing left to do at any position, so the chart is a closed
search, and the table has a family for each of its splits.

Recognition halts at the last reached position. The last checkpoint is the last position, after the first, up to which the
start symbol derives.
-/
namespace ContextFree.Earley

variable {α : Type} [DecidableEq α] {job : Job α}

namespace Run

variable {run run' : Run} {position j : Nat} {item : Item}

/-! ## Scanning a set -/

/-- Every item of the set at `position` has moved over the terminal after its dot, if that matches. -/
def ScannedAt (job : Job α) (run : Run) (position : Nat) : Prop :=
  ∀ ⦃item t⦄, item ∈ (run.set position).items → (job.grammar.state item.state).next = some (.terminal t) →
    0 < job.grammar.matchLength t job.tokens position →
    run.Advanced job item.state item.origin position (position + job.grammar.matchLength t job.tokens position)

theorem scan_spec (hp : job.grammar.Regular) (hs : run.Sound job) (position : Nat) :
    (run.scan job position).Sound job ∧ Grows (position < ·) run (run.scan job position) ∧
      (∀ j, ((run.scan job position).set j).predicted = (run.set j).predicted) ∧
      (run.scan job position).ScannedAt job position := by
  have hvisit : ∀ r : Run, ∀ item ∈ (run.set position).scans.toList, Advancing job run r →
      Advancing job run (r.scanItem job position item) ∧ Grows (position < ·) r (r.scanItem job position item) ∧
        ∀ t, (job.grammar.state item.state).next = some (.terminal t) →
          0 < job.grammar.matchLength t job.tokens position →
          (r.scanItem job position item).Advanced job item.state item.origin position
            (position + job.grammar.matchLength t job.tokens position) := by
    intro r item hitem hr
    obtain ⟨hmem, t, hnext⟩ := (hs.filed position).mem_scans.mp (Array.mem_toList_iff.mp hitem)
    obtain ⟨id, before, after, hok⟩ := hs.exists_next hp hmem hnext
    obtain ⟨hsound, hgrows, hpredicted, hadvanced⟩ := scanItem_spec hp hr.sound (hok.mono hr.table)
    refine ⟨hr.step hsound hgrows hpredicted, hgrows, fun t' ht' => ?_⟩
    rw [hnext] at ht'
    cases ht'
    exact hadvanced
  obtain ⟨hlast, hgrows, hscanned⟩ := foldl_visits Grows.refl Grows.trans (P := Advancing job run)
    (Q := fun (item : Item) r => ∀ t, (job.grammar.state item.state).next = some (.terminal t) →
      0 < job.grammar.matchLength t job.tokens position →
      r.Advanced job item.state item.origin position (position + job.grammar.matchLength t job.tokens position))
    hvisit (fun r r' item hr hgrows hitem t hnext hpos => (hitem t hnext hpos).mono hr.sound hgrows) (.refl hs)
  rw [Array.foldl_toList] at hlast hgrows hscanned
  refine ⟨hlast.sound, hgrows, hlast.predicted, fun item t hitem hnext hpos => ?_⟩
  have hmem : item ∈ (run.set position).items := by
    rwa [← hgrows.same position (Nat.lt_irrefl position)]
  exact hscanned item (Array.mem_toList_iff.mpr ((hs.filed position).mem_scans.mpr ⟨hmem, t, hnext⟩)) t hnext hpos

/-! ## Positions that are done -/

/-- There is nothing left to do at a position. -/
structure Done (job : Job α) (run : Run) (position : Nat) : Prop where
  closed : run.ClosedAt job position
  scanned : run.ScannedAt job position

theorem done_of_empty (hempty : ∀ item, item ∉ (run.set position).items) : run.Done job position :=
  ⟨⟨fun h => absurd h (hempty _), fun _ _ h => absurd h (hempty _), fun h => absurd h (hempty _)⟩,
    fun _ _ h => absurd h (hempty _)⟩

theorem ClosedAt.mono {touched : Nat → Prop} (h : run.ClosedAt job position) (hs : run.Sound job)
    (hgrows : Grows touched run run') (hkeep : ∀ j ≤ position, ¬ touched j) : run'.ClosedAt job position := by
  have hsame := hgrows.same position (hkeep position (Nat.le_refl position))
  refine ⟨fun hitem hwaits => ?_, fun hitem hwaits hitem' hcompletes => ?_, fun hitem hdot => ?_⟩
  · rw [hsame] at hitem ⊢
    exact h.called hitem hwaits
  · rw [hsame] at hitem'
    obtain ⟨id, before, after, hok⟩ := hs.item hitem'
    have hle := hok.derives.le
    rw [hcompletes.2.2] at hle
    rw [hgrows.same _ (hkeep _ hle)] at hitem
    exact (h.resumed hitem hwaits hitem' hcompletes).mono hs hgrows
  · rw [hsame] at hitem
    exact (h.nothing hitem hdot).mono hs.faithful.consistent hgrows.table

theorem ScannedAt.mono {touched : Nat → Prop} (h : run.ScannedAt job position) (hs : run.Sound job)
    (hgrows : Grows touched run run') (hkeep : ¬ touched position) : run'.ScannedAt job position := by
  intro item t hitem hnext hpos
  rw [hgrows.same position hkeep] at hitem
  exact (h hitem hnext hpos).mono hs hgrows

theorem Done.mono {touched : Nat → Prop} (h : run.Done job position) (hs : run.Sound job)
    (hgrows : Grows touched run run') (hkeep : ∀ j ≤ position, ¬ touched j) : run'.Done job position :=
  ⟨h.closed.mono hs hgrows hkeep, h.scanned.mono hs hgrows (hkeep position (Nat.le_refl position))⟩

/-- The start symbol is complete at a position. -/
def CompleteAt (job : Job α) (run : Run) (stop : Nat) : Prop :=
  ∃ item ∈ (run.set stop).items, Completes job item job.grammar.start 0

/-- Where the start symbol is complete after the first position, it has a node. -/
theorem Sound.has_of_completeAt (hp : job.grammar.Regular) (hs : run.Sound job) {stop : Nat} (hstop : 0 < stop)
    (h : run.CompleteAt job stop) : run.table.Has ⟨.symbol (.nonterminal job.grammar.start), 0, stop⟩ := by
  obtain ⟨item, hitem, hnext, hlhs, horigin⟩ := h
  obtain ⟨id, before, hok⟩ := hs.exists_complete hp hitem hnext
  rcases hok.part with ⟨rfl, -⟩ | ⟨-, node, hlt, -, hidentity⟩
  · have hderives := hok.derives
    rw [horigin] at hderives
    cases hderives
    exact absurd hstop (Nat.lt_irrefl 0)
  · refine ⟨node, hlt, ?_⟩
    rw [hidentity, horigin, ← hlhs, hok.atDot.lhs_eq hp]
    rfl

theorem Sound.le_of_mem (hs : run.Sound job) (hitem : item ∈ (run.set j).items) : j ≤ job.tokens.size := by
  by_contra hlt
  have hset : run.set j = {} := by
    rw [Run.set, Array.getD_eq_getD_getElem?, Array.getElem?_eq_none (by rw [hs.size_eq]; omega), Option.getD_none]
  rw [hset] at hitem
  exact absurd hitem (Array.not_mem_empty item)

/-! ## The next position -/

theorem nextPosition?_of_some (hp : job.grammar.Regular) (hs : run.Sound job) {next : Nat}
    (h : run.nextPosition? position = some next) :
    position < next ∧ job.grammar.Reaches job.tokens next ∧
      ∀ j, position < j → j < next → ∀ item, item ∉ (run.set j).items := by
  obtain ⟨hnext, hrange, hfirst⟩ := List.find?_range'_eq_some.mp h
  refine ⟨(List.mem_range'_1.mp hrange).1, ?_, fun j hj hlt item hitem => ?_⟩
  · obtain ⟨item, hitem⟩ : ∃ item, item ∈ (run.set next).items := by
      apply Array.exists_mem_of_ne_empty _
      simpa using hnext
    obtain ⟨id, before, after, hok⟩ := hs.item hitem
    exact hok.reaches hp
  · have hempty := hfirst j hj hlt
    simp only [Bool.not_not, Array.isEmpty_iff] at hempty
    simp [hempty] at hitem

theorem nextPosition?_of_none (hs : run.Sound job) (h : run.nextPosition? position = none) (hj : position < j) :
    ∀ item, item ∉ (run.set j).items := by
  intro item hitem
  have hle := hs.le_furthest hitem
  have hempty := List.find?_eq_none.mp h j (List.mem_range'_1.mpr ⟨hj, by omega⟩)
  simp at hempty
  simp [hempty] at hitem

/-! ## Counting items -/

/-- The number of items in the sets before a position. -/
def itemsBelow (run : Run) (position : Nat) : Nat :=
  ((List.range position).map fun j => (run.set j).items.size).sum

omit [DecidableEq α] in
theorem itemsBelow_succ (run : Run) (position : Nat) :
    run.itemsBelow (position + 1) = run.itemsBelow position + (run.set position).items.size := by
  simp [itemsBelow, List.range_succ]

omit [DecidableEq α] in
theorem itemsBelow_congr (h : ∀ j < position, run'.set j = run.set j) :
    run'.itemsBelow position = run.itemsBelow position := by
  unfold itemsBelow
  congr 1
  exact List.map_congr_left fun j hj => by rw [h j (List.mem_range.mp hj)]

omit [DecidableEq α] in
/-- Positions without items count nothing. -/
theorem itemsBelow_skip {next : Nat} (hle : position ≤ next)
    (hempty : ∀ j, position ≤ j → j < next → ∀ item, item ∉ (run.set j).items) :
    run.itemsBelow next = run.itemsBelow position := by
  induction next, hle using Nat.le_induction with
  | base => rfl
  | succ next hle ih =>
    have hnone : (run.set next).items = #[] :=
      Array.eq_empty_iff_forall_not_mem.mpr (hempty next hle (Nat.lt_succ_self next))
    rw [itemsBelow_succ, ih fun j hj hlt => hempty j hj (Nat.lt_succ_of_lt hlt), hnone]
    rfl

theorem counted_close (hp : job.grammar.Regular) (hposition : position ≤ job.tokens.size) (hs : run.Sound job)
    (hpredicted : run.Predicted job) (hcounted : run.workItems = run.itemsBelow position) :
    (run.close job position).workItems = (run.close job position).itemsBelow (position + 1) := by
  have hgrows := (close_spec hp hposition hs hpredicted).2.2.1
  rw [workItems_close hp hposition hs hpredicted, itemsBelow_succ, hcounted,
    itemsBelow_congr fun j hj => hgrows.same j (Nat.ne_of_lt hj)]

theorem counted_scan (hp : job.grammar.Regular) (hs : run.Sound job)
    (hcounted : run.workItems = run.itemsBelow (position + 1)) :
    (run.scan job position).workItems = (run.scan job position).itemsBelow (position + 1) := by
  have hgrows := (scan_spec hp hs position).2.1
  rw [workItems_scan, hcounted, itemsBelow_congr fun j hj => hgrows.same j (by omega)]

end Run

/-! ## The whole input -/

/-- A checkpoint is a position after the first where the start symbol has a node, and there is none unless prefixes count. -/
def IsCheckpoint (job : Job α) (run : Run) (stop : Nat) : Prop :=
  job.config.prefixParsing = true ∧ 0 < stop ∧ run.table.Has ⟨.symbol (.nonterminal job.grammar.start), 0, stop⟩

/-- If prefixes count, no position below the bound where the start symbol is complete lies after the checkpoint. -/
def CheckedBelow (job : Job α) (run : Run) (bound : Nat) (checkpoint? : Option Nat) : Prop :=
  job.config.prefixParsing = true → ∀ stop < bound, 0 < stop → run.CompleteAt job stop →
    ∃ last, checkpoint? = some last ∧ stop ≤ last

/-- What is so when recognition halts. -/
structure Halt.Finished (job : Job α) (halt : Halt) : Prop where
  sound : halt.run.Sound job
  predicted : halt.run.Predicted job
  start : job.grammar.start ∈ (halt.run.set 0).predicted
  done : ∀ j, halt.run.Done job j
  checkpoint : ∀ stop, halt.checkpoint? = some stop → IsCheckpoint job halt.run stop
  checked : ∀ bound, CheckedBelow job halt.run bound halt.checkpoint?
  ended : halt.stopped? = none → job.grammar.Reaches job.tokens job.tokens.size
  stopped : ∀ position, halt.stopped? = some position → position < job.tokens.size ∧
    job.grammar.Reaches job.tokens position ∧ ∀ j, position < j → ∀ item, item ∉ (halt.run.set j).items
  counted : halt.run.workItems = halt.run.itemsBelow (job.tokens.size + 1)

/-- What is so on the way: the sets before `position` are done and checked. -/
structure Passing (job : Job α) (position : Nat) (checkpoint? : Option Nat) (run : Run) : Prop where
  sound : run.Sound job
  predicted : run.Predicted job
  start : job.grammar.start ∈ (run.set 0).predicted
  done : ∀ j < position, run.Done job j
  checkpoint : ∀ stop, checkpoint? = some stop → IsCheckpoint job run stop
  checked : CheckedBelow job run position checkpoint?

namespace Passing

variable {run : Run} {position : Nat} {checkpoint? : Option Nat}

theorem grow {run' : Run} {touched : Nat → Prop} (h : Passing job position checkpoint? run) (hs : run'.Sound job)
    (hpredicted : run'.Predicted job) (hgrows : Run.Grows touched run run') (hkeep : ∀ j < position, ¬ touched j) :
    Passing job position checkpoint? run' where
  sound := hs
  predicted := hpredicted
  start := hgrows.predicted 0 _ h.start
  done j hj := (h.done j hj).mono h.sound hgrows fun j' hj' => hkeep j' (Nat.lt_of_le_of_lt hj' hj)
  checkpoint stop hstop := (h.checkpoint stop hstop).imp_right (And.imp_right hgrows.table.has)
  checked hcounts stop hlt hpos hcomplete := by
    refine h.checked hcounts stop hlt hpos ?_
    rwa [Run.CompleteAt, hgrows.same stop (hkeep stop hlt)] at hcomplete

theorem close (hp : job.grammar.Regular) (hposition : position ≤ job.tokens.size)
    (h : Passing job position checkpoint? run) :
    Passing job position checkpoint? (run.close job position) ∧ (run.close job position).ClosedAt job position := by
  obtain ⟨hs, hpredicted, hgrows, hclosed⟩ := Run.close_spec hp hposition h.sound h.predicted
  exact ⟨h.grow hs hpredicted hgrows fun j hj => Nat.ne_of_lt hj, hclosed⟩

/-- The checkpoint moves to the position if the start symbol is complete there. -/
theorem check (hp : job.grammar.Regular) (h : Passing job position checkpoint? run) {checked? : Option Nat}
    (hchecked : checked? = if job.config.prefixParsing && position > 0 && (run.startNode? job position).isSome then
      some position else checkpoint?) :
    Passing job position checked? run ∧ CheckedBelow job run (position + 1) checked? := by
  have hnode : (run.startNode? job position).isSome = true ↔ run.table.Has _ :=
    h.sound.faithful.consistent.isSome_find
  split at hchecked
  · rename_i hreached
    simp only [Bool.and_eq_true, decide_eq_true_eq, hnode] at hreached
    obtain ⟨⟨hcounts, hpos⟩, hhas⟩ := hreached
    have hall : CheckedBelow job run (position + 1) checked? :=
      fun _ stop hlt _ _ => ⟨position, hchecked, Nat.le_of_lt_succ hlt⟩
    refine ⟨⟨h.sound, h.predicted, h.start, h.done, fun stop hstop => ?_, ?_⟩, hall⟩
    · rw [hchecked] at hstop
      cases hstop
      exact ⟨hcounts, hpos, hhas⟩
    · exact fun hcounts stop hlt => hall hcounts stop (Nat.lt_succ_of_lt hlt)
  · rename_i hreached
    simp only [Bool.and_eq_true, decide_eq_true_eq, hnode] at hreached
    subst hchecked
    refine ⟨h, fun hcounts stop hlt hpos hcomplete => ?_⟩
    rcases Nat.lt_succ_iff_lt_or_eq.mp hlt with hbelow | rfl
    · exact h.checked hcounts stop hbelow hpos hcomplete
    · exact absurd ⟨⟨hcounts, hpos⟩, h.sound.has_of_completeAt hp hpos hcomplete⟩ hreached

theorem scan (hp : job.grammar.Regular) (h : Passing job position checkpoint? run)
    (hclosed : run.ClosedAt job position) (hchecked : CheckedBelow job run (position + 1) checkpoint?) :
    Passing job (position + 1) checkpoint? (run.scan job position) := by
  obtain ⟨hs, hgrows, hsame, hscanned⟩ := Run.scan_spec hp h.sound position
  have hgrown := h.grow hs (h.predicted.of_same hgrows hsame) hgrows fun j hj => Nat.not_lt.mpr (Nat.le_of_lt hj)
  refine ⟨hgrown.sound, hgrown.predicted, hgrown.start, fun j hj => ?_, hgrown.checkpoint,
    fun hcounts stop hlt hpos hcomplete => ?_⟩
  · cases Nat.lt_succ_iff_lt_or_eq.mp hj with
    | inl hlt => exact hgrown.done j hlt
    | inr heq =>
      subst heq
      exact ⟨hclosed.mono h.sound hgrows fun j' hj' => Nat.not_lt.mpr hj', hscanned⟩
  · refine hchecked hcounts stop hlt hpos ?_
    rwa [Run.CompleteAt, hgrows.same stop (Nat.not_lt.mpr (Nat.le_of_lt_succ hlt))] at hcomplete

/-- Positions without items are done. -/
theorem skip {next : Nat} (h : Passing job position checkpoint? run)
    (hempty : ∀ j, position ≤ j → j < next → ∀ item, item ∉ (run.set j).items) :
    Passing job next checkpoint? run := by
  refine ⟨h.sound, h.predicted, h.start, fun j hj => ?_, h.checkpoint, fun hcounts stop hlt hpos hcomplete => ?_⟩
  · cases Nat.lt_or_ge j position with
    | inl hlt => exact h.done j hlt
    | inr hge => exact Run.done_of_empty (hempty j hge hj)
  · cases Nat.lt_or_ge stop position with
    | inl hbelow => exact h.checked hcounts stop hbelow hpos hcomplete
    | inr hge =>
      obtain ⟨item, hitem, -⟩ := hcomplete
      exact absurd hitem (hempty stop hge hlt item)

theorem finished {progress : Progress} {stopped? : Option Nat} (h : Passing job position checkpoint? run)
    (hposition : position ≤ job.tokens.size + 1) (hcounted : run.workItems = run.itemsBelow position)
    (hempty : ∀ j, position ≤ j → ∀ item, item ∉ (run.set j).items)
    (hended : stopped? = none → job.grammar.Reaches job.tokens job.tokens.size)
    (hstopped : ∀ last, stopped? = some last → last < job.tokens.size ∧ job.grammar.Reaches job.tokens last ∧
      ∀ j, last < j → ∀ item, item ∉ (run.set j).items) :
    Halt.Finished job ⟨run, progress, stopped?, checkpoint?⟩ where
  sound := h.sound
  predicted := h.predicted
  start := h.start
  done j := (h.skip fun j' hj' _ => hempty j' hj').done j (Nat.lt_succ_self j)
  checkpoint := h.checkpoint
  checked _ := (h.skip fun j' hj' _ => hempty j' hj').checked
  ended := hended
  stopped := hstopped
  counted := by rw [hcounted, Run.itemsBelow_skip hposition fun j hj _ => hempty j hj]

/-- At the end of the input no terminal matches, so a closed set is scanned. -/
theorem finished_at_end {progress : Progress} (h : Passing job job.tokens.size checkpoint? run)
    (hclosed : run.ClosedAt job job.tokens.size) (hchecked : CheckedBelow job run (job.tokens.size + 1) checkpoint?)
    (hcounted : run.workItems = run.itemsBelow (job.tokens.size + 1))
    (hreached : job.grammar.Reaches job.tokens job.tokens.size) :
    Halt.Finished job ⟨run, progress, none, checkpoint?⟩ := by
  have hdone : run.Done job job.tokens.size := by
    refine ⟨hclosed, fun item t _ _ hpos => ?_⟩
    have := job.grammar.matchLength_le t job.tokens job.tokens.size
    omega
  have hpast : Passing job (job.tokens.size + 1) checkpoint? run := by
    refine ⟨h.sound, h.predicted, h.start, fun j hj => ?_, h.checkpoint, hchecked⟩
    cases Nat.lt_succ_iff_lt_or_eq.mp hj with
    | inl hlt => exact h.done j hlt
    | inr heq => exact heq ▸ hdone
  refine hpast.finished (Nat.le_refl _) hcounted (fun j hj item hitem => ?_) (fun _ => hreached)
    (fun _ hnone => by cases hnone)
  exact absurd (h.sound.le_of_mem hitem) (Nat.not_le.mpr hj)

end Passing

theorem recognizeFrom_finished (hp : job.grammar.Regular) (fuel : Nat) {position : Nat} {checkpoint? : Option Nat}
    (progress : Progress) {run : Run} (h : Passing job position checkpoint? run)
    (hcounted : run.workItems = run.itemsBelow position)
    (hreached : job.grammar.Reaches job.tokens position) (hfuel : job.tokens.size < position + fuel) :
    Halt.Finished job (recognizeFrom job fuel position checkpoint? progress run) := by
  have hposition := hreached.le_size
  induction fuel generalizing position checkpoint? progress run with
  | zero => omega
  | succ fuel ih =>
    obtain ⟨hpassing, hclosed⟩ := h.close hp hposition
    have hcounted := Run.counted_close hp hposition h.sound h.predicted hcounted
    obtain ⟨hpassing, hchecked⟩ := hpassing.check hp rfl
    simp only [recognizeFrom]
    split
    · rename_i hlast
      obtain rfl : position = job.tokens.size := by simpa using hlast
      exact hpassing.finished_at_end hclosed hchecked hcounted hreached
    · rename_i hlast
      have hscanned := hpassing.scan hp hclosed hchecked
      have hcounted := Run.counted_scan hp hpassing.sound hcounted
      cases hnext : ((run.close job position).scan job position).nextPosition? position with
      | some next =>
        obtain ⟨hlt, hreached', hempty⟩ := Run.nextPosition?_of_some hp hscanned.sound hnext
        rw [← Run.itemsBelow_skip hlt hempty] at hcounted
        exact ih _ (hscanned.skip hempty) hcounted hreached' (by omega) hreached'.le_size
      | none =>
        have hempty : ∀ j, position + 1 ≤ j → _ := fun _ => Run.nextPosition?_of_none hscanned.sound hnext
        have hlt : position < job.tokens.size := Nat.lt_of_le_of_ne hposition (by simpa using hlast)
        refine hscanned.finished (by omega) hcounted hempty (fun hnone => by cases hnone) fun last hsome => ?_
        cases hsome
        exact ⟨hlt, hreached, hempty⟩

theorem sound_init (job : Job α) : (Run.init job).Sound job ∧ (Run.init job).Predicted job := by
  have hset : ∀ j, (Run.init job).set j = {} := by
    intro j
    simp only [Run.set, Run.init, Array.getD_eq_getD_getElem?, Array.getElem?_replicate]
    split <;> rfl
  have hempty : ∀ {j item}, item ∉ ((Run.init job).set j).items := by simp [hset]
  refine ⟨⟨by simp [Run.init], ?_, fun j => ?_, fun h => absurd h hempty, fun h => absurd h hempty, .start⟩, ?_⟩
  · refine ⟨NodeTable.consistent_empty, ?_, ?_⟩
    · rintro x ⟨id, hid, -⟩
      exact absurd hid (Nat.not_lt_zero id)
    · rintro x key ⟨id, hid, -⟩
      exact absurd hid (Nat.not_lt_zero id)
  · rw [hset]
    exact ItemSet.filed_empty
  · intro j A id hA
    simp [hset] at hA

/-- Recognition comes to its end with nothing left to do. -/
theorem recognize_finished (hp : job.grammar.Regular) (frequency? : Option Nat) :
    Halt.Finished job (recognize job frequency?) := by
  obtain ⟨hs, hpredicted⟩ := sound_init job
  obtain ⟨hs₁, hpredicted₁, -, hstart⟩ :=
    Run.predict_spec hp hs hpredicted (Nat.zero_le _) (Nat.zero_le _) (A := job.grammar.start) .start
  have hpassing : Passing job 0 none ((Run.init job).predict job job.grammar.start 0) :=
    ⟨hs₁, hpredicted₁, hstart, fun j hj => absurd hj (Nat.not_lt_zero j), fun _ hnone => (by cases hnone),
      fun _ stop hlt => absurd hlt (Nat.not_lt_zero stop)⟩
  have hcounted : ((Run.init job).predict job job.grammar.start 0).workItems = 0 := Run.workItems_predict job _ 0 _
  have hfinished := recognizeFrom_finished hp (job.tokens.size + 1)
    (Progress.start .earley job.tokens.size frequency?) hpassing hcounted .start (by omega)
  exact ⟨hfinished.sound, hfinished.predicted, hfinished.start, hfinished.done, hfinished.checkpoint, hfinished.checked,
    hfinished.ended, hfinished.stopped, hfinished.counted⟩

namespace Halt.Finished

variable {halt : Halt} {stop : Nat}

/-- The chart is a closed search, and its table records the splits. -/
theorem closedSearch (hp : job.grammar.Regular) (h : halt.Finished job) :
    ClosedSearch job.grammar job.tokens (Admits job) halt.run.Visits
      (halt.run.table.Records job.grammar) where
  start hid hadmits := ⟨none, h.predicted h.start hid hadmits⟩
  scan := by
    rintro slot id before t after i k hdot ⟨node, hitem⟩ hpos
    exact (h.done k).scanned hitem (hdot.next_eq hp) hpos
  call := by
    rintro slot id before A after i k id' hdot ⟨node, hitem⟩ hid' hadmits
    exact ⟨none, h.predicted ((h.done k).closed.called hitem (hdot.next_eq hp)) hid' hadmits⟩
  resume := by
    rintro slot id before A after i k id' j hdot ⟨node, hitem⟩ hid' ⟨node', hitem'⟩
    obtain ⟨hlt, -, hlhs⟩ := hp.mem_rulesFor.mp hid'
    have hdot' := Prepared.atDot_completed hlt
    refine (h.done j).closed.resumed hitem (hdot.next_eq hp) hitem' ⟨hdot'.next_eq hp, ?_, rfl⟩
    exact (hdot'.lhs_eq hp).trans hlhs
  nothing := by
    rintro slot id i hdot ⟨node, hitem⟩
    exact (h.done i).closed.nothing hitem hdot

/-- Lookahead turns down no rule that derives something. -/
theorem relevance (hp : job.grammar.Regular) (stop : Nat) :
    Relevance job.grammar job.tokens (Admits job) (Within job.grammar job.tokens stop) :=
  within_relevance fun _ hid hbody => by
    simp [Admits, hp.canStart_of_derives (hp.mem_rulesFor.mp hid).1 hbody]

theorem hasFamily_of_way (hp : job.grammar.Regular) (h : halt.Finished job) {x : Identity} {key : List Identity}
    (hway : Way job.grammar job.tokens x key) (hrel : Relevant job.grammar job.tokens stop x) :
    halt.run.table.HasFamily x key := by
  obtain ⟨slot, id, before, after, i, k, j, hsplit, rfl, rfl⟩ := hway.exists_split hp hrel
  exact (h.closedSearch hp).splits_of_relevant hp (relevance hp stop) hsplit hsplit.atDot hsplit.own

/-- The table is exact below any node of the start symbol. -/
theorem exact (hp : job.grammar.Regular) (h : halt.Finished job) {root : NodeId}
    (hroot : halt.run.startNode? job stop = some root) :
    halt.run.table.Exact job.grammar job.tokens stop root where
  faithful := h.sound.faithful
  root := hroot
  complete _ hrel hway := h.hasFamily_of_way hp hway hrel

/-- Recognition reaches the end of the input with a node for it exactly if the start symbol derives it. -/
theorem success_iff (hp : job.grammar.Regular) (h : halt.Finished job) :
    (halt.stopped?.isNone && (halt.run.startNode? job job.tokens.size).isSome) = true ↔
      job.grammar.DerivesSpan job.tokens [.nonterminal job.grammar.start] 0 job.tokens.size := by
  have hnode : (halt.run.startNode? job job.tokens.size).isSome = true ↔ halt.run.table.Has _ :=
    h.sound.faithful.consistent.isSome_find
  rw [Bool.and_eq_true, hnode]
  constructor
  · exact fun ⟨_, hhas⟩ => h.sound.faithful.derived hhas
  · intro hderives
    have hs := h.closedSearch hp
    have hr : Relevance job.grammar job.tokens (Admits job) _ := relevance hp job.tokens.size
    obtain ⟨id, hid, hbody⟩ := hderives.exists_rule hp
    obtain ⟨hlt, huseful, hlhs⟩ := hp.mem_rulesFor.mp hid
    have hvisit := hs.visits_within hp hr .start hid (List.append_nil _).symm hbody (.nil _)
    obtain ⟨k, hsplits⟩ := Prepared.SplitsAt.exists_of_derives hbody
    have hrel : Relevant job.grammar job.tokens job.tokens.size
        ⟨.symbol (.nonterminal job.grammar.start), 0, job.tokens.size⟩ := Within.start
    have hfamily := (h.hasFamily_of_way hp (.rule hid hsplits) hrel).has
    refine ⟨?_, hfamily⟩
    obtain ⟨node, hitem⟩ := hvisit
    cases hstopped : halt.stopped? with
    | none => rfl
    | some position =>
      obtain ⟨hlt, -, hempty⟩ := h.stopped position hstopped
      exact absurd hitem (hempty _ hlt _)

/-- Lookahead turns down no rule that leads on. -/
theorem lenient (hp : job.grammar.Regular) : Lenient job.grammar job.tokens (Admits job) where
  begins hid hbegins := by
    have hfirst := hbegins.firstAllows hp (hp.mem_rulesFor.mp hid).1
    simp [Admits, Prepared.canStart, hfirst]
  nothing hid hbody _ := by simp [Admits, hp.canStart_of_derives (hp.mem_rulesFor.mp hid).1 hbody]

/-- There are items at every reached position after the first. -/
theorem exists_item_of_reaches (hp : job.grammar.Regular) (h : halt.Finished job) {j : Nat}
    (hreaches : job.grammar.Reaches job.tokens j) (hj : 0 < j) : ∃ item, item ∈ (halt.run.set j).items := by
  obtain ⟨slot, id, before, t, after, i, k, hdot, hvisit, hmatch, rfl⟩ :=
    (h.closedSearch hp).exists_visit_of_reaches hp (lenient hp) hreaches hj
  obtain ⟨⟨node, hitem⟩, -⟩ := (h.closedSearch hp).scan hdot hvisit hmatch
  exact ⟨_, hitem⟩

/-- The furthest position into which a dot was moved is the last reached one. -/
theorem isGreatest_furthest (hp : job.grammar.Regular) (h : halt.Finished job) :
    IsGreatest {j | job.grammar.Reaches job.tokens j} halt.run.furthest := by
  refine ⟨h.sound.furthest, fun j hreaches => ?_⟩
  rcases Nat.eq_zero_or_pos j with rfl | hpos
  · exact Nat.zero_le _
  · obtain ⟨item, hitem⟩ := h.exists_item_of_reaches hp hreaches hpos
    exact h.sound.le_furthest hitem

/-- Recognition stops at the furthest position, unless that is the end of the input. -/
theorem stopped?_eq (hp : job.grammar.Regular) (h : halt.Finished job) :
    halt.stopped? = if halt.run.furthest < job.tokens.size then some halt.run.furthest else none := by
  obtain ⟨hfurthest, hgreatest⟩ := h.isGreatest_furthest hp
  cases hstopped : halt.stopped? with
  | none => rw [if_neg (Nat.not_lt.mpr (hgreatest (h.ended hstopped)))]
  | some position =>
    obtain ⟨hlt, hreaches, hempty⟩ := h.stopped position hstopped
    have hle : halt.run.furthest ≤ position := by
      by_contra hpast
      obtain ⟨item, hitem⟩ := h.exists_item_of_reaches hp hfurthest (by omega)
      exact hempty _ (Nat.lt_of_not_le hpast) item hitem
    obtain rfl : position = halt.run.furthest := Nat.le_antisymm (hgreatest hreaches) hle
    rw [if_pos hlt]

/-- The last checkpoint is the last position, after the first, up to which the start symbol derives. -/
theorem checkpoint?_eq_some_iff (hp : job.grammar.Regular) (h : halt.Finished job) :
    halt.checkpoint? = some stop ↔ job.config.prefixParsing = true ∧
      IsGreatest {j | 0 < j ∧ job.grammar.DerivesSpan job.tokens [.nonterminal job.grammar.start] 0 j} stop := by
  have hlast : ∀ {j}, job.config.prefixParsing = true → 0 < j →
      job.grammar.DerivesSpan job.tokens [.nonterminal job.grammar.start] 0 j →
      ∃ last, halt.checkpoint? = some last ∧ j ≤ last := by
    intro j hcounts hpos hderives
    obtain ⟨id, hid, hbody⟩ := hderives.exists_rule hp
    obtain ⟨hlt, _, hlhs⟩ := hp.mem_rulesFor.mp hid
    obtain ⟨node, hitem⟩ := (h.closedSearch hp).visits_within hp (relevance hp j) .start hid
      (List.append_nil _).symm hbody (.nil j)
    have hdot := Prepared.atDot_completed hlt
    exact h.checked (j + 1) hcounts j (Nat.lt_succ_self j) hpos
      ⟨_, hitem, hdot.next_eq hp, (hdot.lhs_eq hp).trans hlhs, rfl⟩
  constructor
  · intro hstop
    obtain ⟨hcounts, hpos, hhas⟩ := h.checkpoint stop hstop
    refine ⟨hcounts, ⟨hpos, h.sound.faithful.derived hhas⟩, ?_⟩
    rintro j ⟨hj, hderives⟩
    obtain ⟨last, hcheckpoint, hle⟩ := hlast hcounts hj hderives
    rw [hstop, Option.some.injEq] at hcheckpoint
    rwa [hcheckpoint]
  · rintro ⟨hcounts, ⟨hpos, hderives⟩, hgreatest⟩
    obtain ⟨last, hcheckpoint, hle⟩ := hlast hcounts hpos hderives
    obtain ⟨-, hpos', hhas⟩ := h.checkpoint last hcheckpoint
    rw [hcheckpoint, Nat.le_antisymm (hgreatest ⟨hpos', h.sound.faithful.derived hhas⟩) hle]

end Halt.Finished

omit [DecidableEq α] in
theorem Halt.startNode_of_root? {halt : Halt} {root : NodeId} {stop : Nat} (h : halt.root? job = some (root, stop)) :
    halt.run.startNode? job stop = some root := by
  simp only [root?, Option.bind_eq_some_iff, Option.map_eq_some_iff] at h
  obtain ⟨stop', -, root', hroot, heq⟩ := h
  cases heq
  exact hroot

end ContextFree.Earley
