-- SUMMARY: A counter that ticks reports the first position of each block that it comes to, and stays in a machine word.
import ContextFree.Recognition.Recognizer
import Mathlib.Algebra.Group.Nat.Defs
import Mathlib.Data.List.Induction

/-!
# Blocks

The frequency divides the positions into blocks. The next report is always due at the first position of a block, which lies
behind all positions ticked so far. So a tick is reported if its block comes after the blocks of all ticks before, whether
these repeat a position or leave out blocks. A sum is formed only when a report is made, and then both summands are at most
the position that is reported. Hence it fits into a machine word if twice the position does.
-/
namespace ContextFree

/-! ## New blocks -/

/-- After these ticks the position comes to a new block, which is not the first one. -/
def NewBlock (frequency : Nat) (ticks : List Nat) (x : Nat) : Prop :=
  1 ≤ x / frequency ∧ ∀ y ∈ ticks, y / frequency < x / frequency

instance (frequency : Nat) (ticks : List Nat) (x : Nat) : Decidable (NewBlock frequency ticks x) :=
  inferInstanceAs (Decidable (_ ∧ _))

/-- The ticks that come to a new block, in order. -/
def newBlocks (frequency : Nat) (ticks : List Nat) : List Nat :=
  (ticks.zipIdx.filter fun (x, i) => NewBlock frequency (ticks.take i) x).map Prod.fst

variable {frequency total processed next fuel x y : Nat} {ticks : List Nat} {algorithm : Algorithm} {p : Progress}

theorem newBlock_concat :
    NewBlock frequency (ticks ++ [x]) y ↔ NewBlock frequency ticks y ∧ x / frequency < y / frequency := by
  simp only [NewBlock, List.forall_mem_append, List.forall_mem_singleton, and_assoc]

/-- After a tick that has come to a new block, only later blocks are new. -/
theorem NewBlock.concat_iff (h : NewBlock frequency ticks x) :
    NewBlock frequency (ticks ++ [x]) y ↔ x / frequency < y / frequency := by
  rw [newBlock_concat, and_iff_right_iff_imp]
  exact fun hlt => ⟨Nat.le_trans h.1 (Nat.le_of_lt hlt), fun z hz => Nat.lt_trans (h.2 z hz) hlt⟩

theorem not_newBlock_zero (ticks : List Nat) (x : Nat) : ¬ NewBlock 0 ticks x := by
  rintro ⟨hpos, -⟩
  rw [Nat.div_zero] at hpos
  exact Nat.not_succ_le_zero 0 hpos

theorem newBlocks_concat (frequency : Nat) (ticks : List Nat) (x : Nat) : newBlocks frequency (ticks ++ [x]) =
    newBlocks frequency ticks ++ if NewBlock frequency ticks x then [x] else [] := by
  have hbefore : ∀ y ∈ ticks.zipIdx, decide (NewBlock frequency ((ticks ++ [x]).take y.2) y.1) =
      decide (NewBlock frequency (ticks.take y.2) y.1) := by
    rintro ⟨y, i⟩ hy
    have hlt : i < ticks.length := by simpa using List.snd_lt_of_mem_zipIdx hy
    rw [List.take_append_of_le_length (Nat.le_of_lt hlt)]
  rw [newBlocks, List.zipIdx_append, List.filter_append, List.map_append, List.filter_congr hbefore]
  congr 1
  by_cases hnew : NewBlock frequency ticks x <;> simp [hnew]

theorem mem_of_mem_newBlocks (hx : x ∈ newBlocks frequency ticks) : x ∈ ticks := by
  obtain ⟨⟨_, i⟩, hmem, rfl⟩ := List.mem_map.mp hx
  exact List.fst_mem_of_mem_zipIdx (List.mem_filter.mp hmem).1

theorem pairwise_newBlocks (frequency : Nat) (ticks : List Nat) : (newBlocks frequency ticks).Pairwise (· < ·) := by
  induction ticks using List.reverseRecOn with
  | nil => exact .nil
  | append_singleton ticks x ih =>
    rw [newBlocks_concat]
    split
    · rename_i hnew
      refine List.pairwise_append.mpr ⟨ih, List.pairwise_singleton _ _, fun y hy z hz => ?_⟩
      obtain rfl := List.mem_singleton.mp hz
      exact Nat.lt_of_div_lt_div (hnew.2 y (mem_of_mem_newBlocks hy))
    · rwa [List.append_nil]

/-- With the frequency zero no block is new. -/
theorem newBlocks_zero (ticks : List Nat) : newBlocks 0 ticks = [] := by
  simp [newBlocks, not_newBlock_zero]

/-! ## The next report -/

/-- From the beginning of a block on, the counter goes to the beginning of the block after the position. -/
theorem nextReport_mul {k : Nat} (hpos : 0 < frequency) (hle : k ≤ processed / frequency + 1)
    (hfuel : processed < k * frequency + fuel) :
    nextReport frequency processed fuel (k * frequency) = (processed / frequency + 1) * frequency := by
  have hlast : ∀ {k}, k ≤ processed / frequency + 1 → processed < k * frequency → k = processed / frequency + 1 :=
    fun hle hlt => Nat.le_antisymm hle ((Nat.div_lt_iff_lt_mul hpos).mpr hlt)
  induction fuel generalizing k with
  | zero => rw [nextReport, hlast hle hfuel]
  | succ fuel ih =>
    rw [nextReport]
    split
    · rename_i hreached
      have hk : k ≤ processed / frequency := (Nat.le_div_iff_mul_le hpos).mpr hreached
      rw [← Nat.succ_mul]
      exact ih (Nat.succ_le_succ hk) (by rw [Nat.succ_mul]; omega)
    · rename_i hbehind
      rw [hlast hle (Nat.not_le.mp hbehind)]

/-- Numbers below this one fit into a machine word. -/
def wordSize : Nat := 2 ^ 64

/-- `nextReport`, if all its sums fit into a machine word. -/
def nextReport? (frequency processed : Nat) : (fuel next : Nat) → Option Nat
  | 0,        next => some next
  | fuel + 1, next =>
    if next ≤ processed then
      if next + frequency < wordSize then nextReport? frequency processed fuel (next + frequency) else none
    else some next

theorem nextReport?_eq (hprocessed : processed < 2 ^ 63) (hle : frequency ≤ next) :
    nextReport? frequency processed fuel next = some (nextReport frequency processed fuel next) := by
  induction fuel generalizing next with
  | zero => rfl
  | succ fuel ih =>
    rw [nextReport?, nextReport]
    split
    · rename_i hreached
      -- Neither summand is above the position.
      have hfits : next + frequency < wordSize := by
        unfold wordSize
        omega
      rw [if_pos hfits, ih (Nat.le_add_left frequency next)]
    · rfl

/-- When the next report is due after a tick, if all sums on the way to it fit into a machine word. -/
def due? (frequency next processed : Nat) : Option Nat :=
  if frequency == 0 || processed < next then some next
  else nextReport? frequency processed (processed + 1 - next) next

/-! ## Ticks -/

namespace Progress

/-- The reports made so far, in order. -/
def reports (p : Progress) : List Report :=
  p.notes.toList.filterMap Note.report?

theorem tick_of_early (h : p.frequency = 0 ∨ x < p.next) : p.tick x = p := by
  rw [tick, if_pos]
  simpa using h

theorem tick_of_due (hpos : 0 < p.frequency) (hdue : p.next ≤ x) : p.tick x =
    { p with
      next := nextReport p.frequency x (x + 1 - p.next) p.next
      notes := p.notes.push (.progress (.progress p.algorithm x p.total)) } := by
  rw [tick, if_neg]
  simp only [Bool.or_eq_true, beq_iff_eq, decide_eq_true_eq]
  omega

/-- What is so after these ticks: the next report is due at the first position that comes to a new block, the ticks that came to
one have been reported, and no sum has left the machine word if all ticks are below half of its size. -/
structure Ticked (algorithm : Algorithm) (frequency total : Nat) (ticks : List Nat) (p : Progress) : Prop where
  algorithm_eq : p.algorithm = algorithm
  total_eq : p.total = total
  monitored : p.monitored = true
  frequency_eq : p.frequency = frequency
  dvd : frequency ∣ p.next
  due_iff : 0 < frequency → ∀ x, p.next ≤ x ↔ NewBlock frequency ticks x
  reports_eq : p.reports = .starting algorithm total :: (newBlocks frequency ticks).map (.progress algorithm · total)
  counted : (∀ x ∈ ticks, x < 2 ^ 63) → ticks.foldlM (due? frequency) frequency = some p.next

theorem ticked_start (algorithm : Algorithm) (frequency total : Nat) :
    Ticked algorithm frequency total [] (start algorithm total (some frequency)) where
  algorithm_eq := rfl
  total_eq := rfl
  monitored := rfl
  frequency_eq := rfl
  dvd := Nat.dvd_refl frequency
  due_iff hpos x := by
    rw [NewBlock, Nat.one_le_div_iff hpos, and_iff_left fun y hy => absurd hy List.not_mem_nil]
    exact Iff.rfl
  reports_eq := rfl
  counted _ := rfl

namespace Ticked

/-- Notes that are not reports make no difference. -/
theorem note (h : Ticked algorithm frequency total ticks p) {n : Note} (hn : n.report? = none) :
    Ticked algorithm frequency total ticks (p.note n) where
  algorithm_eq := h.algorithm_eq
  total_eq := h.total_eq
  monitored := h.monitored
  frequency_eq := h.frequency_eq
  dvd := h.dvd
  due_iff := h.due_iff
  reports_eq := by
    rw [← h.reports_eq]
    simp [reports, Progress.note, hn]
  counted := h.counted

theorem frequency_le (h : Ticked algorithm frequency total ticks p) (hpos : 0 < frequency) : frequency ≤ p.next := by
  have hnew : NewBlock frequency ticks p.next := (h.due_iff hpos _).mp (Nat.le_refl _)
  exact (Nat.one_le_div_iff hpos).mp hnew.1

/-- A report leads to the block after the one that is reported. -/
theorem next_tick (h : Ticked algorithm frequency total ticks p) (hpos : 0 < frequency) (hdue : p.next ≤ x) :
    (p.tick x).next = (x / frequency + 1) * frequency := by
  obtain ⟨k, hk⟩ := h.dvd
  rw [Nat.mul_comm] at hk
  rw [tick_of_due (h.frequency_eq ▸ hpos) hdue, h.frequency_eq, hk]
  rw [hk] at hdue
  exact nextReport_mul hpos (Nat.le_succ_of_le ((Nat.le_div_iff_mul_le hpos).mpr hdue)) (by omega)

theorem due?_eq (h : Ticked algorithm frequency total ticks p) (hx : x < 2 ^ 63) :
    due? frequency p.next x = some (p.tick x).next := by
  by_cases hdue : 0 < frequency ∧ p.next ≤ x
  · have hearly : ¬ ((frequency == 0 || decide (x < p.next)) = true) := by
      simp only [Bool.or_eq_true, beq_iff_eq, decide_eq_true_eq]
      omega
    rw [due?, if_neg hearly, nextReport?_eq hx (h.frequency_le hdue.1), tick_of_due (h.frequency_eq ▸ hdue.1) hdue.2,
      h.frequency_eq]
  · have hearly : frequency = 0 ∨ x < p.next := by omega
    rw [due?, if_pos (by simpa using hearly), tick_of_early (h.frequency_eq ▸ hearly)]

theorem counted_tick (h : Ticked algorithm frequency total ticks p) (hword : ∀ y ∈ ticks ++ [x], y < 2 ^ 63) :
    (ticks ++ [x]).foldlM (due? frequency) frequency = some (p.tick x).next := by
  have hticks := (List.forall_mem_append.mp hword).1
  have hlast : [x].foldlM (due? frequency) p.next = some (p.tick x).next := by
    rw [List.foldlM_cons, h.due?_eq (hword x List.mem_concat_self)]
    rfl
  rw [List.foldlM_append, h.counted hticks]
  exact hlast

/-- Before the next report is due a tick changes nothing, since it comes to no new block. -/
theorem tick_early (h : Ticked algorithm frequency total ticks p) (hearly : frequency = 0 ∨ x < p.next) :
    Ticked algorithm frequency total (ticks ++ [x]) (p.tick x) := by
  have hold : ¬ NewBlock frequency ticks x := by
    intro hnew
    have hpos : 0 < frequency := Nat.pos_of_ne_zero fun hzero => not_newBlock_zero ticks x (hzero ▸ hnew)
    have hdue := (h.due_iff hpos x).mpr hnew
    omega
  have hcounted := h.counted_tick (x := x)
  rw [tick_of_early (h.frequency_eq ▸ hearly)] at hcounted ⊢
  refine ⟨h.algorithm_eq, h.total_eq, h.monitored, h.frequency_eq, h.dvd, fun hpos y => ?_, ?_, hcounted⟩
  · rw [newBlock_concat, ← h.due_iff hpos, iff_self_and]
    intro hy
    have hlt : x < p.next := by omega
    exact Nat.lt_of_lt_of_le (Nat.div_lt_div_of_lt_of_dvd h.dvd hlt) (Nat.div_le_div_right hy)
  · rw [h.reports_eq, newBlocks_concat, if_neg hold, List.append_nil]

/-- When the next report is due a tick comes to a new block and is reported. -/
theorem tick_due (h : Ticked algorithm frequency total ticks p) (hpos : 0 < frequency) (hdue : p.next ≤ x) :
    Ticked algorithm frequency total (ticks ++ [x]) (p.tick x) := by
  have hnew : NewBlock frequency ticks x := (h.due_iff hpos x).mp hdue
  have hnext := h.next_tick hpos hdue
  have hcounted := h.counted_tick (x := x)
  rw [tick_of_due (h.frequency_eq ▸ hpos) hdue] at hnext hcounted ⊢
  refine ⟨h.algorithm_eq, h.total_eq, h.monitored, h.frequency_eq, ?_, fun _ y => ?_, ?_, hcounted⟩
  · exact hnext ▸ Nat.dvd_mul_left _ _
  · rw [hnew.concat_iff, hnext, ← Nat.le_div_iff_mul_le hpos, Nat.succ_le_iff]
  · have hreports := h.reports_eq
    rw [newBlocks_concat, if_pos hnew, List.map_append, ← List.cons_append, ← hreports]
    simp [reports, Note.report?, h.algorithm_eq, h.total_eq]

theorem tick (h : Ticked algorithm frequency total ticks p) (x : Nat) :
    Ticked algorithm frequency total (ticks ++ [x]) (p.tick x) := by
  by_cases hdue : 0 < frequency ∧ p.next ≤ x
  · exact h.tick_due hdue.1 hdue.2
  · exact h.tick_early (by omega)

theorem reports_finish (h : Ticked algorithm frequency total ticks p) :
    p.finish.reports = .starting algorithm total ::
      ((newBlocks frequency ticks).map (.progress algorithm · total) ++ [.finished algorithm]) := by
  rw [finish, if_pos h.monitored, ← List.cons_append, ← h.reports_eq, h.algorithm_eq]
  simp [reports, Progress.note, Note.report?]

theorem counted_finish (h : Ticked algorithm frequency total ticks p) (hle : ∀ x ∈ ticks, x ≤ total)
    (hword : total < 2 ^ 63) : ticks.foldlM (due? frequency) frequency = some p.finish.next := by
  have hnext : p.finish.next = p.next := by
    rw [finish, if_pos h.monitored]
    rfl
  rw [hnext, h.counted fun x hx => Nat.lt_of_le_of_lt (hle x hx) hword]

end Ticked
end Progress
end ContextFree
