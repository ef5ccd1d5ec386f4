-- SUMMARY: Every call to a walker comes to an end, and so does the sequence of its trees.
import ContextFree.Proofs.Walk.Lockstep
import ContextFree.Proofs.Walk.Remaining

/-!
# Termination

That a single walk ends is a matter of room on the path. That the trees come to an end, whatever the selector answers and however the
memory changes, is shown in two steps. The memory only grows and has a bound, so from some call on it stays as it is. From then
on each walk repeats the choices of the walk before up to one, where it tries one family more: the numbers of
families tried are the digits of a counter that goes up with each call. The counter has a fixed number of places, since no
walk retraces beyond the first plan, and so a bound.
-/
namespace ContextFree

variable {α σ : Type}

/-! ## Counters -/

/-- The numbers of families tried, read as the digits of a number with the given places. -/
def reading (base : Nat) : (places : Nat) → List Choice → Nat
  | 0,          _       => 0
  | _ + 1,      []      => 0
  | places + 1, c :: cs => c.tried.length * base ^ places + reading base places cs

section

variable {base places : Nat} {cs pre post post' : List Choice} {c e : Choice}

theorem reading_lt (hbase : 0 < base) (h : ∀ c ∈ cs, c.tried.length < base) : reading base places cs < base ^ places := by
  induction places generalizing cs with
  | zero => exact Nat.lt_succ_self 0
  | succ places ih =>
    match cs with
    | [] => exact Nat.pow_pos hbase
    | c :: cs =>
      obtain ⟨hc, hcs⟩ := List.forall_mem_cons.mp h
      calc c.tried.length * base ^ places + reading base places cs
          < c.tried.length * base ^ places + base ^ places := Nat.add_lt_add_left (ih hcs) _
        _ = (c.tried.length + 1) * base ^ places := (Nat.succ_mul ..).symm
        _ ≤ base * base ^ places := Nat.mul_le_mul_right _ hc
        _ = base ^ (places + 1) := by rw [Nat.pow_succ, Nat.mul_comm]

/-- One more family tried makes the reading greater, whatever is tried later. -/
theorem reading_lt_reading (hbase : 0 < base) (hplaces : pre.length < places) (hpost : ∀ c ∈ post, c.tried.length < base)
    (htried : c.tried.length < e.tried.length) :
    reading base places (pre ++ c :: post) < reading base places (pre ++ e :: post') := by
  induction pre generalizing places with
  | nil =>
    obtain ⟨places, rfl⟩ := Nat.exists_eq_succ_of_ne_zero (Nat.ne_of_gt hplaces)
    calc c.tried.length * base ^ places + reading base places post
        < c.tried.length * base ^ places + base ^ places := Nat.add_lt_add_left (reading_lt hbase hpost) _
      _ = (c.tried.length + 1) * base ^ places := (Nat.succ_mul ..).symm
      _ ≤ e.tried.length * base ^ places := Nat.mul_le_mul_right _ htried
      _ ≤ _ := Nat.le_add_right _ _
  | cons first pre ih =>
    obtain ⟨places, rfl⟩ := Nat.exists_eq_succ_of_ne_zero (Nat.ne_of_gt (Nat.zero_lt_of_lt hplaces))
    exact Nat.add_lt_add_left (ih (Nat.lt_of_succ_lt_succ hplaces)) _

end

/-! ## Bounds on choices -/

/-- Whatever has been tried and whatever there is to try is within the bound, and a choice to be made anew is not exhausted. -/
structure Choice.Bounded (bound : Nat) (c : Choice) : Prop where
  tried : c.tried.length ≤ bound
  candidates : c.candidates ≤ bound
  unexhausted : c.reselect = true → c.isExhausted = false

theorem Choice.Makes.bounded {usable : List Nat} {planned? : Option Choice} {e : Choice} {bound : Nat}
    (h : Makes usable planned? e) (htwo : 2 ≤ usable.length) (husable : usable.length ≤ bound)
    (hplanned : ∀ c ∈ planned?, c.Bounded bound) : e.Bounded bound := by
  cases h with
  | repeated => exact hplanned _ rfl
  | @renewed c _ hrenew _ htried _ _ hcandidates hkeep =>
    have hc := hplanned c rfl
    have hopen : c.tried.length < c.candidates := Nat.not_le.mp (of_decide_eq_false (hc.unexhausted hrenew))
    refine ⟨?_, hcandidates ▸ husable, fun hreselect => absurd (hkeep.symm.trans hreselect) Bool.false_ne_true⟩
    rw [htried]
    exact Nat.le_trans hopen hc.candidates
  | fresh _ htried _ hcandidates hkeep =>
    refine ⟨?_, hcandidates ▸ husable, fun hreselect => absurd (hkeep.symm.trans hreselect) Bool.false_ne_true⟩
    rw [htried, List.length_singleton]
    omega

theorem Forest.exists_families_le (f : Forest α) : ∃ bound, ∀ id, (f.node id).families.size ≤ bound := by
  refine ⟨(Finset.range f.size).sup fun id => (f.node id).families.size, fun id => ?_⟩
  by_cases hid : id < f.size
  · exact Finset.le_sup (f := fun id => (f.node id).families.size) (Finset.mem_range.mpr hid)
  · have hnode : f.node id = default := by
      rw [node, NodeTable.node, Array.getD_eq_getD_getElem?, Array.getElem?_eq_none (Nat.not_lt.mp hid)]
      rfl
    rw [hnode]
    exact Nat.zero_le _

theorem exists_bounded (f : Forest α) {plan : List Choice} (hopen : ∀ c ∈ plan, c.reselect = true → c.isExhausted = false) :
    ∃ bound, (∀ id, (f.node id).families.size ≤ bound) ∧ ∀ c ∈ plan, c.Bounded bound := by
  induction plan with
  | nil => exact f.exists_families_le.imp fun bound h => ⟨h, by simp⟩
  | cons c plan ih =>
    obtain ⟨hc, hplan⟩ := List.forall_mem_cons.mp hopen
    obtain ⟨bound, hfamilies, hbounded⟩ := ih hplan
    refine ⟨bound + (c.tried.length + c.candidates), fun id => Nat.le_trans (hfamilies id) (Nat.le_add_right _ _),
      List.forall_mem_cons.mpr ⟨⟨by omega, by omega, hc⟩, fun e he => ?_⟩⟩
    obtain ⟨htried, hcandidates, hkeep⟩ := hbounded e he
    exact ⟨by omega, by omega, hkeep⟩

namespace Tour

variable {f : Forest α} {selector : Selector σ} {s s' : Tour α σ} {bound : Nat}

/-- Along a bounded plan, all choices are bounded. -/
theorem bounded_of_mem_trace (selector : Selector σ) (hfamilies : ∀ id, (f.node id).families.size ≤ bound)
    (hplan : ∀ c ∈ s.walk.plan, c.Bounded bound) (htrace : s.walk.trace = []) (n : Nat) :
    ∀ e ∈ (s.after f selector n).walk.trace, e.Bounded bound := by
  refine (forall_mem_trace (Q := fun plan => ∀ c ∈ plan, c.Bounded bound) (fun plan h c hc => h c (List.mem_of_mem_tail hc))
    (fun hrecorded hplan => ?_) hplan (by simp [htrace]) n).2
  obtain ⟨id, tasks, -, -, -, htwo, hmakes⟩ := recorded_of_step hrecorded
  refine hmakes.bounded htwo (Nat.le_trans ?_ (hfamilies id)) fun c hc => hplan c (List.mem_of_mem_head? hc)
  exact Nat.le_trans (List.length_filter_le _ _) (Nat.le_of_eq List.length_range)

/-- A tour that ends with the memory it began with has had it all the time. -/
theorem memory_after (h : Reaches f selector s s') (hhalted : s'.tasks = []) (hmemory : s'.walk.memory = s.walk.memory)
    (n : Nat) : (s.after f selector n).walk.memory = s.walk.memory := by
  obtain ⟨m, rfl⟩ := h
  have hgrows : s.walk.memory.Grows (s.after f selector n).walk.memory := Reaches.grows ⟨n, rfl⟩
  exact hgrows.antisymm (hmemory ▸ (reaches_of_halted hhalted n).grows)

end Tour

/-! ## Walkers -/

namespace Walker

variable {w : Walker α σ} {root : NodeId}

theorem after_add (w : Walker α σ) (m n : Nat) : w.after (m + n) = (w.after m).after n := by
  induction n with
  | zero => rfl
  | succ n ih => rw [← Nat.add_assoc, after, ih, after]

/-- The walker after a walk along its plan, before the next walk is planned. -/
def walked (w : Walker α σ) (root : NodeId) : Walker α σ :=
  { w.learn (w.visited root w.plan) with
    produced := w.produced + 1, last? := some (0, (w.visited root w.plan).trace.reverse) }

/-- A call that finds the walker open at the only root walks along the plan. Then the last choice that is not exhausted is
to be renewed, or there are no more trees. -/
theorem next_cases (hroots : w.forest.roots = [root]) (hroot : w.root = 0) (hopen : w.exhausted = false) :
    w.next.result = .ok (produce ((w.visited root w.plan).emit (.endTree (w.visited root w.plan).madeChoice))) ∧
    ((∃ later c earlier, (w.visited root w.plan).trace = later ++ c :: earlier ∧ c.isExhausted = false ∧
        w.next.walker = { w.walked root with plan := earlier.reverse ++ [c.renew] }) ∨
      w.next.walker = { w.walked root with plan := [], root := 1, exhausted := true }) := by
  have hnext : w.next = ⟨.ok (produce ((w.visited root w.plan).emit (.endTree (w.visited root w.plan).madeChoice))),
      (w.visited root w.plan).notes.toList, (w.walked root).planNext (w.visited root w.plan).trace⟩ := by
    rw [next, if_neg (by simp [hopen]), hroot, walk_eq hroots]
    rfl
  rw [hnext]
  refine ⟨rfl, ?_⟩
  rcases (w.walked root).planNext_cases (w.visited root w.plan).trace with
    ⟨later, c, earlier, htrace, -, hc, hplan⟩ | ⟨-, hplan⟩
  · exact .inl ⟨later, c, earlier, htrace, hc, hplan⟩
  · refine .inr (hplan.trans ?_)
    simp [walked, learn, hroots, hroot]

theorem memory_next (hroots : w.forest.roots = [root]) (hroot : w.root = 0) (hopen : w.exhausted = false) :
    w.next.walker.memory = (w.visited root w.plan).memory := by
  obtain ⟨-, ⟨later, c, earlier, -, -, hnext⟩ | hnext⟩ := next_cases hroots hroot hopen <;>
  · rw [hnext]
    rfl

variable [DecidableEq α] {f : Forest α} {tokens : Array α} {trimmed : Identity → Prop} {selector : Selector σ}
  {plan : List Choice} {limit bound : Nat}

theorem keep_of_mem_visited (hf : w.forest.Exact tokens trimmed) (hroot : root < w.forest.size) :
    ∀ e ∈ (w.visited root plan).trace, e.reselect = false := by
  obtain ⟨n, hn⟩ := tour_reaches_visited hf hroot plan
  have hkeep := Tour.keep_of_mem_trace (f := w.forest) (s := w.tour root plan) w.selector rfl n
  rwa [hn] at hkeep

theorem bounded_of_mem_visited (hf : w.forest.Exact tokens trimmed) (hroot : root < w.forest.size)
    (hfamilies : ∀ id, (w.forest.node id).families.size ≤ bound) (hplan : ∀ c ∈ plan, c.Bounded bound) :
    ∀ e ∈ (w.visited root plan).trace, e.Bounded bound := by
  obtain ⟨n, hn⟩ := tour_reaches_visited hf hroot plan
  have hbounded := Tour.bounded_of_mem_trace (s := w.tour root plan) w.selector hfamilies hplan rfl n
  rwa [hn] at hbounded

/-- While the memory stays as it is, each call advances the counter. -/
theorem reading_next (hf : w.forest.Exact tokens trimmed) (hroots : w.forest.roots = [root]) (hroot : root < w.forest.size)
    (hfirst : w.root = 0) (hopen : w.exhausted = false) (hopen' : w.next.walker.exhausted = false)
    (hmemory : w.next.walker.memory = w.memory)
    (hmemory' : (w.next.walker.visited root w.next.walker.plan).memory = w.next.walker.memory)
    (hclear : (w.tour root w.plan).ClearFrom w.forest w.selector limit)
    (hfamilies : ∀ id, (w.forest.node id).families.size ≤ bound) (hbounded : ∀ c ∈ w.plan, c.Bounded bound) :
    (w.next.walker.tour root w.next.walker.plan).ClearFrom w.forest w.selector limit ∧
      (∀ c ∈ w.next.walker.plan, c.Bounded bound) ∧
      reading (bound + 1) (2 ^ (w.forest.size + 2 * limit + 1)) (w.visited root w.plan).trace.reverse <
        reading (bound + 1) (2 ^ (w.forest.size + 2 * limit + 1))
          (w.next.walker.visited root w.next.walker.plan).trace.reverse := by
  obtain ⟨-, ⟨later, c, earlier, htrace, hc, hnext⟩ | hnext⟩ := next_cases hroots hfirst hopen
  · generalize w.next.walker = v at hnext hopen' hmemory hmemory' ⊢
    have hforest : v.forest = w.forest := by rw [hnext]; rfl
    have hselector : v.selector = w.selector := by rw [hnext]; rfl
    have hplan : v.plan = earlier.reverse ++ [c.renew] := by rw [hnext]
    have hwalked : (w.visited root w.plan).memory = w.memory := by
      rw [← hmemory, hnext]
      rfl
    have hsame : w.forest = v.forest ∧ w.selector = v.selector := ⟨hforest.symm, hselector.symm⟩
    obtain ⟨n, hn⟩ := tour_reaches_visited hf hroot w.plan
    obtain ⟨n', hn'⟩ : Tour.Reaches w.forest w.selector (v.tour root v.plan) ⟨[], v.visited root v.plan⟩ := by
      rw [hsame.1, hsame.2]
      exact tour_reaches_visited (hforest ▸ hf) (hforest ▸ hroot) v.plan
    have hinstep : Tour.InStep earlier.reverse [c.renew] (w.tour root w.plan) (v.tour root v.plan) :=
      hplan ▸ inStep_tour hforest root w.plan earlier.reverse [c.renew]
    have hstill := Tour.memory_after ⟨n, hn⟩ rfl hwalked
    have hstill' := Tour.memory_after ⟨n', hn'⟩ rfl hmemory'
    have hmade : ((w.tour root w.plan).after w.forest w.selector n).walk.trace = later ++ c :: earlier := by rw [hn, htrace]
    obtain ⟨hclear', hparted⟩ := hinstep.parted rfl hmade (fun k hk id tasks _ _ _ =>
      (hk.alike.arrive id).escape_eq ((hstill' k).trans (hmemory.trans (hstill k).symm)) id) hclear
    obtain ⟨e, post, htrace', htried⟩ := hparted n' (by rw [hn'])
    rw [hn'] at htrace'
    have hall := bounded_of_mem_visited hf hroot hfamilies hbounded
    rw [htrace] at hall
    obtain ⟨hlater, hc', hearlier⟩ := by simpa only [List.forall_mem_append, List.forall_mem_cons] using hall
    refine ⟨hclear', ?_, ?_⟩
    · rw [hplan]
      refine List.forall_mem_append.mpr ⟨fun e he => hearlier e (List.mem_reverse.mp he), List.forall_mem_singleton.mpr ?_⟩
      exact ⟨hc'.tried, hc'.candidates, fun _ => hc⟩
    · have hlength := length_trace_visited hf hroot hclear
      rw [htrace, List.length_append, List.length_cons] at hlength
      rw [htrace, htrace', List.reverse_append, List.reverse_append, List.reverse_cons, List.reverse_cons, List.append_assoc,
        List.append_assoc]
      refine reading_lt_reading (Nat.succ_pos bound) ?_ (fun d hd => Nat.lt_succ_of_le ?_) ?_
      · rw [List.length_reverse]
        omega
      · exact (hlater d (List.mem_reverse.mp hd)).tried
      · rw [htried]
        exact Nat.lt_succ_self _
  · rw [hnext] at hopen'
    cases hopen'

/-! ## Walkers that calls lead to -/

/-- The walker keeps its selector, its memory is about the families of the forest, and it renews only choices that are not
exhausted. -/
structure Orderly (f : Forest α) (selector : Selector σ) (w : Walker α σ) : Prop where
  selector_eq : w.selector = selector
  memory : w.memory.Within f
  unexhausted : ∀ c ∈ w.plan, c.reselect = true → c.isExhausted = false

omit [DecidableEq α] in
theorem within_tour (hroot : root < w.forest.size) (hmemory : w.memory.Within w.forest)
    (hplan : ∀ c ∈ plan, c.chosen ∈ w.forest.admissible c.node) : (w.tour root plan).Within w.forest :=
  ⟨List.forall_mem_singleton.mpr hroot, hmemory, w.lawful_begun hplan⟩

theorem within_visited (hf : w.forest.Exact tokens trimmed) (hroot : root < w.forest.size)
    (hmemory : w.memory.Within w.forest) (hplan : ∀ c ∈ plan, c.chosen ∈ w.forest.admissible c.node) :
    (w.visited root plan).memory.Within w.forest := by
  exact ((within_tour hroot hmemory hplan).reaches hf (tour_reaches_visited hf hroot plan)).memory

theorem grows_visited (hf : w.forest.Exact tokens trimmed) (hroot : root < w.forest.size) (plan : List Choice) :
    w.memory.Grows (w.visited root plan).memory :=
  (tour_reaches_visited hf hroot plan).grows

omit [DecidableEq α] in
theorem Lawful.root_eq (h : w.Lawful f) (hroots : f.roots = [root]) (hopen : w.exhausted = false) : w.root = 0 := by
  have hlt := h.root_lt hopen
  rw [hroots] at hlt
  exact Nat.lt_one_iff.mp hlt

theorem Reached.orderly (hf : f.Exact tokens trimmed) (h : Reached f selector w) : w.Orderly f selector := by
  obtain ⟨root, hroots, hroot, -⟩ := hf.root
  induction h with
  | new => exact ⟨rfl, .empty f, by simp [Walker.new]⟩
  | @next w hw ih =>
    cases hopen : w.exhausted with
    | true =>
      rw [next_of_exhausted hopen]
      exact ih
    | false =>
      have hlawful := hw.lawful hf
      obtain rfl := hlawful.forest_eq
      have hmemory := within_visited hf hroot ih.memory hlawful.plan
      obtain ⟨-, ⟨later, c, earlier, htrace, hc, hnext⟩ | hnext⟩ := next_cases hroots (hlawful.root_eq hroots hopen) hopen
      · rw [hnext]
        refine ⟨ih.selector_eq, hmemory, List.forall_mem_append.mpr ⟨fun e he hrenew => ?_, ?_⟩⟩
        · have hmem : e ∈ (w.visited root w.plan).trace := by simp [htrace, List.mem_reverse.mp he]
          have hkeep := keep_of_mem_visited hf hroot e hmem
          exact absurd (hkeep.symm.trans hrenew) Bool.false_ne_true
        · exact List.forall_mem_singleton.mpr fun _ => hc
      · rw [hnext]
        exact ⟨ih.selector_eq, hmemory, by simp⟩
  | @replay w hw ih =>
    have hlawful := hw.lawful hf
    obtain rfl := hlawful.forest_eq
    unfold Walker.replay
    split
    · exact ih
    · rename_i first plan hlast
      obtain ⟨hfirst, hplan⟩ := hlawful.last hlast
      obtain rfl : first = 0 := by
        rw [hroots] at hfirst
        exact Nat.lt_one_iff.mp hfirst
      refine ⟨ih.selector_eq, ?_, ih.unexhausted⟩
      rw [walk_eq hroots]
      exact within_visited hf hroot ih.memory hplan
  | @reset w hw ih => exact ⟨ih.selector_eq, .empty f, by simp [Walker.reset, Walker.new]⟩

omit [DecidableEq α] in
theorem Reached.after (h : Reached f selector w) (n : Nat) : Reached f selector (w.after n) := by
  induction n with
  | zero => exact h
  | succ n ih => exact ih.next

theorem Reached.grows_next (hf : f.Exact tokens trimmed) (h : Reached f selector w) :
    w.memory.Grows w.next.walker.memory := by
  obtain ⟨root, hroots, hroot, -⟩ := hf.root
  cases hopen : w.exhausted with
  | true =>
    rw [next_of_exhausted hopen]
    exact .refl _
  | false =>
    have hlawful := h.lawful hf
    obtain rfl := hlawful.forest_eq
    rw [memory_next hroots (hlawful.root_eq hroots hopen) hopen]
    exact grows_visited hf hroot w.plan

theorem Reached.grows_after (hf : f.Exact tokens trimmed) (h : Reached f selector w) (n : Nat) :
    w.memory.Grows (w.after n).memory := by
  induction n with
  | zero => exact .refl _
  | succ n ih => exact ih.trans ((h.after n).grows_next hf)

/-- A walker whose memory stays as it is runs out of trees. -/
theorem Reached.exists_exhausted_of_memory (hf : f.Exact tokens trimmed) (h : Reached f selector w)
    (hmemory : ∀ n, (w.after n).memory = w.memory) : ∃ n, (w.after n).exhausted = true := by
  by_contra hnever
  have hopen : ∀ n, (w.after n).exhausted = false := by simpa using hnever
  obtain ⟨root, hroots, hroot, -⟩ := hf.root
  have hforest : ∀ n, (w.after n).forest = f := fun n => ((h.after n).lawful hf).forest_eq
  have hselector : ∀ n, (w.after n).selector = selector := fun n => ((h.after n).orderly hf).selector_eq
  have hfirst : ∀ n, (w.after n).root = 0 := fun n => ((h.after n).lawful hf).root_eq hroots (hopen n)
  obtain ⟨bound, hfamilies, hbounded⟩ := exists_bounded f (h.orderly hf).unexhausted
  have hcounts : ∀ n, ((w.after n).tour root (w.after n).plan).ClearFrom f selector w.plan.length ∧
      (∀ c ∈ (w.after n).plan, c.Bounded bound) ∧ n ≤ reading (bound + 1) (2 ^ (f.size + 2 * w.plan.length + 1))
        ((w.after n).visited root (w.after n).plan).trace.reverse := by
    intro n
    induction n with
    | zero => exact ⟨Tour.clearFrom_plan (s := w.tour root w.plan) rfl, hbounded, Nat.zero_le _⟩
    | succ n ih =>
      obtain ⟨hclear, hbounded, hle⟩ := ih
      have hmemory' := hmemory (n + 2)
      rw [Walker.after, memory_next (hforest (n + 1) ▸ hroots) (hfirst (n + 1)) (hopen (n + 1)), ← hmemory (n + 1)] at hmemory'
      rw [← hforest n, ← hselector n] at hclear
      obtain ⟨hclear', hbounded', hlt⟩ := reading_next (w := w.after n) (hforest n ▸ hf) (hforest n ▸ hroots)
        (hforest n ▸ hroot) (hfirst n) (hopen n) (hopen (n + 1)) ((hmemory (n + 1)).trans (hmemory n).symm) hmemory' hclear
        (hforest n ▸ hfamilies) hbounded
      rw [hforest n, hselector n] at hclear'
      rw [hforest n] at hlt
      exact ⟨hclear', hbounded', Nat.succ_le_of_lt (Nat.lt_of_le_of_lt hle hlt)⟩
  have hshown : ∀ n, reading (bound + 1) (2 ^ (f.size + 2 * w.plan.length + 1))
      ((w.after n).visited root (w.after n).plan).trace.reverse < (bound + 1) ^ 2 ^ (f.size + 2 * w.plan.length + 1) := by
    intro n
    refine reading_lt (Nat.succ_pos bound) fun c hc => Nat.lt_succ_of_le ?_
    exact (bounded_of_mem_visited (hforest n ▸ hf) (hforest n ▸ hroot) (hforest n ▸ hfamilies) (hcounts n).2.1 c
      (List.mem_reverse.mp hc)).tried
  exact Nat.lt_irrefl _ (Nat.lt_of_le_of_lt (hcounts _).2.2 (hshown _))

/-- Every walker runs out of trees. -/
theorem Reached.exists_exhausted (hf : f.Exact tokens trimmed) (h : Reached f selector w) :
    ∃ n, (w.after n).exhausted = true := by
  -- by induction on what can still be remembered
  induction hroom : f.size + 2 * f.places.card - w.memory.weight using Nat.strong_induction_on generalizing w with
  | _ room ih =>
    by_cases hmemory : ∀ n, (w.after n).memory = w.memory
    · exact h.exists_exhausted_of_memory hf hmemory
    · obtain ⟨n, hn⟩ := not_forall.mp hmemory
      have hlt := (h.grows_after hf n).eq_or_lt.resolve_left hn
      have hle := ((h.after n).orderly hf).memory.weight_le
      obtain ⟨k, hk⟩ := ih _ (by omega) (h.after n) rfl
      exact ⟨n + k, by rw [after_add]; exact hk⟩

/-- The loop of a walk that a call makes halts, and comes to what the call produces. -/
theorem exists_reaches (hf : w.forest.Exact tokens trimmed) {first : Nat} (hfirst : first < w.forest.roots.length)
    (plan : List Choice) :
    ∃ walked, Tour.Reaches w.forest w.selector (w.tour (w.forest.roots.getD first 0) plan) ⟨[], walked⟩ ∧
      w.walk first plan = walked.emit (.endTree walked.madeChoice) := by
  obtain ⟨root, hroots, hroot, -⟩ := hf.root
  obtain rfl : first = 0 := by
    rw [hroots] at hfirst
    exact Nat.lt_one_iff.mp hfirst
  refine ⟨w.visited root plan, ?_, walk_eq hroots plan⟩
  rw [hroots]
  exact tour_reaches_visited hf hroot plan

end Walker

namespace Sample

/-- A selector that takes the last family that was not tried. -/
def lastUntried : Selector Unit :=
  .stateless fun candidates tried => ⟨((untried candidates tried).getLast?.map (·.2)).getD 0, true⟩

/-- `S → R | X Q W Q R`, `R → ε | Q | W`, `W → P`, `Q → P`, `P → X` and `X → P | Q | R`. Everything derives nothing, and all but `S`
derive each other. -/
def roundabout : Prepared Char :=
  prepareNamed ["S", "P", "Q", "R", "W", "X"]
    [(0, [.nonterminal 3]), (0, [.nonterminal 5, .nonterminal 2, .nonterminal 4, .nonterminal 2, .nonterminal 3]), (3, []),
      (3, [.nonterminal 2]), (3, [.nonterminal 4]), (4, [.nonterminal 1]), (2, [.nonterminal 1]), (1, [.nonterminal 5]),
      (5, [.nonterminal 1]), (5, [.nonterminal 2]), (5, [.nonterminal 3])]

end Sample

namespace Recognizer

variable [DecidableEq α] [Quote α]

/-- Walking comes to an end, over every forest, after any calls and whatever the selector answers. The loop of a call for the next
tree, or for the last tree again, halts, and what it comes to is what the call produces. And after some calls there are no
more trees. -/
theorem walking_ends (r : Recognizer α) (hp : r.grammar.Built) (input : Array α) (offset : Nat) {f : Forest α}
    (hf : (r.parseFrom input offset).outcome.forest = some f) (selector : Selector σ) {w : Walker α σ}
    (hw : Walker.Reached f selector w) :
    (w.hasMore = true → ∃ walked, Tour.Reaches f selector (w.tour (f.roots.getD w.root 0) w.plan) ⟨[], walked⟩ ∧
      w.next.result = .ok (Walker.produce (walked.emit (.endTree walked.madeChoice)))) ∧
    (∀ root plan, w.last? = some (root, plan) → ∃ walked,
      Tour.Reaches f selector (w.tour (f.roots.getD root 0) plan) ⟨[], walked⟩ ∧
      w.replay.result = .ok (Walker.produce (walked.emit (.endTree walked.madeChoice)))) ∧
    ∃ n, (w.after n).hasMore = false := by
  obtain ⟨-, -, trimmed, hexact⟩ := r.exists_exact hp input offset hf
  have hlawful := hw.lawful hexact
  obtain rfl := hlawful.forest_eq
  obtain rfl := (hw.orderly hexact).selector_eq
  refine ⟨fun hmore => ?_, fun root plan hlast => ?_, ?_⟩
  · have hopen : w.exhausted = false := by simpa [Walker.hasMore] using hmore
    obtain ⟨walked, hreaches, hwalk⟩ := Walker.exists_reaches hexact (hlawful.root_lt hopen) w.plan
    refine ⟨walked, hreaches, ?_⟩
    rw [(Walker.next_of_open hopen).1, hwalk]
  · obtain ⟨walked, hreaches, hwalk⟩ := Walker.exists_reaches hexact (hlawful.last hlast).1 plan
    refine ⟨walked, hreaches, ?_⟩
    simp only [Walker.replay, hlast, hwalk]
  · obtain ⟨n, hn⟩ := hw.exists_exhausted hexact
    exact ⟨n, by simp [Walker.hasMore, hn]⟩

/-- The second walk over the roundabout ends, though it repeats a choice of the first on a path where it leads back to an open
node. -/
theorem walking_ends_roundabout : ∃ (f : Forest Char) (w : Walker Char Unit),
    (parseFrom ⟨Sample.roundabout, .earley {}, none⟩ #[] 0).outcome.forest = some f ∧ f.isInfinite = true ∧
    w.produced = 1 ∧ w.hasMore = true ∧
    (∃ walked, Tour.Reaches f Sample.lastUntried (w.tour (f.roots.getD w.root 0) w.plan) ⟨[], walked⟩ ∧
      w.next.result = .ok (Walker.produce (walked.emit (.endTree walked.madeChoice)))) ∧
    ∃ n, (w.after n).hasMore = false := by
  have hread : (parseFrom ⟨Sample.roundabout, .earley {}, none⟩ #[] 0).outcome.forest.map (fun f =>
      let w := (Walker.new f Sample.lastUntried).next.walker
      (f.isInfinite, w.produced, w.hasMore)) = some (true, 1, true) := by decide +kernel
  obtain ⟨f, hf, hfacts⟩ := Option.map_eq_some_iff.mp hread
  simp only [Prod.mk.injEq] at hfacts
  obtain ⟨hinfinite, hproduced, hmore⟩ := hfacts
  obtain ⟨hnext, -, hend⟩ := walking_ends ⟨Sample.roundabout, .earley {}, none⟩ (Sample.built_prepareNamed _ _) #[] 0 hf
    Sample.lastUntried (.next .new)
  exact ⟨f, _, hf, hinfinite, hproduced, hmore, hnext hmore, hend⟩

end Recognizer
end ContextFree
