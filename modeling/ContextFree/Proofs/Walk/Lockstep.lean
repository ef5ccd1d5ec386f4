-- SUMMARY: When a walk along the choices of another walk goes step by step where that one went.
import ContextFree.Proofs.Walk.Memory

/-!
# Walks in lockstep

The choices of a walk, or the first of them, are the plan of another one. The two walks go the same way step by step as long as the
plan lasts, if they escape alike: which families are usable depends on the path alone, and where there is a choice the plan
has the one that was made. The other walk never asks its selector on the way. Where the plan renews a choice, the walks
part, and from there on nothing is planned.
-/
namespace ContextFree

variable {α σ : Type}

namespace Walk

variable {f : Forest α} {selector : Selector σ} {id : NodeId} {w w' : Walk α σ} {e : Choice} {i : Nat}

/-! ## What choosing comes to -/

theorem choose_none (h : w.usableFamilies f id = []) : w.choose f selector id = w.escape f id := by
  rw [choose, h]

theorem choose_one (h : w.usableFamilies f id = [i]) :
    w.choose f selector id = (some i, { w with memory := w.memory.select id i }) := by
  rw [choose, h]

theorem choose_several (h : 2 ≤ (w.usableFamilies f id).length) :
    w.choose f selector id =
      (some (w.makeChoice f selector id (w.usableFamilies f id)).1.chosen,
        (w.makeChoice f selector id (w.usableFamilies f id)).2.record
          (w.makeChoice f selector id (w.usableFamilies f id)).1) := by
  rw [choose]
  split
  · rename_i hnone
    simp [hnone] at h
  · rename_i hone
    simp [hone] at h
  · rfl

/-- A choice that the plan has at this point is made again, and nobody is asked. -/
theorem makeChoice_planned {usable : List Nat} (hhead : w.plan.head? = some e) (hnode : e.node = id)
    (hkeep : e.reselect = false) : w.makeChoice f selector id usable = (e, w) := by
  simp [makeChoice, hhead, hnode, hkeep, Option.filter]

/-! ## Walks that look alike -/

/-- Nothing but memories, plans and notes tells the walks apart. -/
structure Alike (w w' : Walk α σ) : Prop where
  onPath : w'.onPath = w.onPath
  trace : w'.trace = w.trace
  events : w'.events = w.events
  derivation : w'.derivation = w.derivation
  madeChoice : w'.madeChoice = w.madeChoice

namespace Alike

theorem leadsBack (h : w.Alike w') (family : Family) : w'.leadsBack family = w.leadsBack family := by
  rw [Walk.leadsBack, Walk.leadsBack, h.onPath]

theorem usableFamilies (h : w.Alike w') (id : NodeId) : w'.usableFamilies f id = w.usableFamilies f id := by
  simp only [Walk.usableFamilies, h.leadsBack]

theorem report (h : w.Alike w') (id : NodeId) : (w.report f id).Alike (w'.report f id) :=
  ⟨h.onPath, h.trace, by rw [Walk.report, Walk.report, emit, emit, h.events], h.derivation, h.madeChoice⟩

theorem arrive (h : w.Alike w') (id : NodeId) : (w.arrive f id).Alike (w'.arrive f id) := by
  refine ⟨congrArg (·.insert id) h.onPath, h.trace, ?_, h.derivation, h.madeChoice⟩
  simp only [Walk.arrive, enter, opening, h.events]

theorem follow (h : w.Alike w') (id : NodeId) (family? : Option Nat) : (w.follow id family?).Alike (w'.follow id family?) :=
  ⟨h.onPath, h.trace, h.events, by rw [Walk.follow, Walk.follow, h.derivation], h.madeChoice⟩

theorem depart (h : w.Alike w') (id : NodeId) (family? : Option Nat) :
    (w.depart f id family?).Alike (w'.depart f id family?) := by
  have hpath := congrArg (·.erase id) h.onPath
  cases family? <;>
    exact ⟨hpath, h.trace, by simp only [Walk.depart, leave, closing, h.events], h.derivation, h.madeChoice⟩

/-- Walks with the same memory escape alike. -/
theorem escape_eq (h : w.Alike w') (hmemory : w'.memory = w.memory) (id : NodeId) :
    (w'.escape f id).1 = (w.escape f id).1 := by
  have hremembered : w'.rememberedEscape? f id = w.rememberedEscape? f id := by
    simp only [rememberedEscape?, hmemory, h.leadsBack]
  have hfound : w'.findEscape f id = w.findEscape f id := by
    simp only [findEscape, hmemory, h.leadsBack]
  rcases w.escape_cases f id with ⟨family?, hsome, heq⟩ | ⟨hnone, heq, -⟩
  · rcases w'.escape_cases f id with ⟨family?', hsome', heq'⟩ | ⟨hnone', -⟩
    · rw [heq, heq']
      exact Option.some.inj (hsome'.symm.trans (hremembered.trans hsome))
    · rw [hremembered, hsome] at hnone'
      cases hnone'
  · rcases w'.escape_cases f id with ⟨family?', hsome', -⟩ | ⟨-, heq', -⟩
    · rw [hremembered, hnone] at hsome'
      cases hsome'
    · rw [heq, heq', hfound]

/-- The choice of a walk, if there is one, is made again by a walk that has it in its plan. -/
theorem choose (h : w.Alike w') (selector : Selector σ)
    (hescape : w.usableFamilies f id = [] → (w'.escape f id).1 = (w.escape f id).1)
    (hplanned : ∀ e, (w.choose f selector id).2.trace = e :: w.trace → w'.plan.head? = some e ∧ e.reselect = false) :
    (w'.choose f selector id).1 = (w.choose f selector id).1 ∧
      (w.choose f selector id).2.Alike (w'.choose f selector id).2 ∧
      (w'.choose f selector id).2.selector = w'.selector ∧ (w'.choose f selector id).2.notes = w'.notes := by
  have husable := h.usableFamilies (f := f) id
  match hlist : w.usableFamilies f id with
  | [] =>
    rw [hlist] at husable
    rw [choose_none hlist, choose_none husable]
    obtain ⟨memory, heq⟩ := w.escape_spec f id
    obtain ⟨memory', heq'⟩ := w'.escape_spec f id
    rw [heq, heq']
    exact ⟨hescape hlist, ⟨h.onPath, h.trace, h.events, h.derivation, h.madeChoice⟩, rfl, rfl⟩
  | [i] =>
    rw [hlist] at husable
    rw [choose_one hlist, choose_one husable]
    exact ⟨rfl, ⟨h.onPath, h.trace, h.events, h.derivation, h.madeChoice⟩, rfl, rfl⟩
  | i :: j :: rest =>
    have htwo : 2 ≤ (w.usableFamilies f id).length := by simp [hlist]
    have hnodup : (w.usableFamilies f id).Nodup := by
      rw [Walk.usableFamilies_eq]
      exact (f.nodup_admissible id).filter _
    obtain ⟨hnode, -, memory, notes, hwalk⟩ := makeChoice_spec f selector w id (by simp [hlist]) hnodup
    rw [choose_several htwo] at hplanned ⊢
    rw [choose_several (by rwa [husable])]
    obtain ⟨hhead, hkeep⟩ := hplanned _ (by rw [hwalk]; rfl)
    rw [makeChoice_planned hhead hnode hkeep, hwalk]
    refine ⟨rfl, ⟨h.onPath, ?_, h.events, h.derivation, ?_⟩, rfl, rfl⟩
    · simp only [record, h.trace]
    · simp only [record, h.madeChoice]

end Alike
end Walk

/-! ## Tours in lockstep -/

theorem Choice.Makes.keep {usable : List Nat} {planned? : Option Choice} {e : Choice}
    (h : Choice.Makes usable planned? e) : e.reselect = false := by
  cases h <;> assumption

namespace Tour

/-- The tours look alike, and the second has in its plan what is left of `made`, and after that `rest`. -/
structure InStep (made rest : List Choice) (s s' : Tour α σ) : Prop where
  tasks : s'.tasks = s.tasks
  alike : s.walk.Alike s'.walk
  plan : ∃ left, s.walk.trace.reverse ++ left = made ∧ s'.walk.plan = left ++ rest

/-- The next step of both, if it enters a node without a usable family, takes the same escape. -/
def EscapesAlike (f : Forest α) (s s' : Tour α σ) : Prop :=
  ∀ id tasks, s.tasks = .enter id :: tasks → (f.node id).isTerminal = false →
    (s.walk.arrive f id).usableFamilies f id = [] →
    ((s'.walk.arrive f id).escape f id).1 = ((s.walk.arrive f id).escape f id).1

variable {f : Forest α} {selector : Selector σ} {s s' : Tour α σ} {made rest : List Choice} {m n : Nat}

/-- Traces only grow. -/
theorem trace_suffix (f : Forest α) (selector : Selector σ) (s : Tour α σ) (n : Nat) :
    s.walk.trace <:+ (s.after f selector n).walk.trace := by
  induction n with
  | zero => exact List.suffix_rfl
  | succ n ih =>
    rcases step_plan f selector (s.after f selector n) with ⟨-, htrace⟩ | ⟨e, -, htrace⟩
    · rw [after, htrace]
      exact ih
    · rw [after, htrace]
      exact ih.trans (List.suffix_cons e _)

namespace InStep

/-- A choice that the first tour makes next is the next one in the plan of the second. -/
theorem exists_left (h : InStep made rest s s') {e : Choice} (hmade : (e :: s.walk.trace).reverse <+: made) :
    ∃ left, (e :: s.walk.trace).reverse ++ left = made ∧ s'.walk.plan = e :: (left ++ rest) := by
  obtain ⟨left, hleft⟩ := hmade
  obtain ⟨left', hleft', hplan⟩ := h.plan
  refine ⟨left, hleft, ?_⟩
  rw [← hleft, List.reverse_cons, List.append_assoc] at hleft'
  rw [hplan, List.append_cancel_left hleft']
  rfl

/-- Tours in lockstep look alike after the next step, and the second one has asked nobody. -/
theorem alike_step (h : InStep made rest s s') (hkeep : ∀ e ∈ made, e.reselect = false) (hescape : EscapesAlike f s s')
    (hmade : (s.step f selector).walk.trace.reverse <+: made) :
    (s'.step f selector).tasks = (s.step f selector).tasks ∧
      (s.step f selector).walk.Alike (s'.step f selector).walk ∧
      (s'.step f selector).walk.selector = s'.walk.selector ∧ (s'.step f selector).walk.notes = s'.walk.notes := by
  have hleft := fun e => h.exists_left (e := e)
  obtain ⟨tasks, w⟩ := s
  obtain ⟨tasks', w'⟩ := s'
  have halike : w.Alike w' := h.alike
  obtain rfl : tasks' = tasks := h.tasks
  match tasks' with
  | [] => exact ⟨rfl, halike, rfl, rfl⟩
  | .leave id family? :: tasks =>
    exact ⟨rfl, halike.depart id family?, by cases family? <;> rfl, by cases family? <;> rfl⟩
  | .enter id :: tasks =>
    cases hterminal : (f.node id).isTerminal with
    | true =>
      rw [step_terminal hterminal, step_terminal hterminal]
      exact ⟨rfl, halike.report id, rfl, rfl⟩
    | false =>
      rw [step_inner hterminal] at hmade
      rw [step_inner hterminal, step_inner hterminal]
      obtain ⟨hfamily, hchoose, hselector, hnotes⟩ := (halike.arrive id).choose selector (hescape id tasks rfl hterminal)
        fun e htrace => by
          have hstart : (e :: w.trace).reverse <+: made := htrace ▸ hmade
          obtain ⟨left, hleft, hplan⟩ := hleft e hstart
          exact ⟨congrArg List.head? hplan, hkeep e (hstart.subset (by simp))⟩
      simp only [descend, hfamily]
      exact ⟨trivial, hchoose.follow id _, hselector, hnotes⟩

/-- Tours in lockstep that escape alike stay so until the plan is used up. -/
theorem step (h : InStep made rest s s') (hkeep : ∀ e ∈ made, e.reselect = false) (hescape : EscapesAlike f s s')
    (hmade : (s.step f selector).walk.trace.reverse <+: made) :
    InStep made rest (s.step f selector) (s'.step f selector) := by
  obtain ⟨htasks, halike, -⟩ := h.alike_step hkeep hescape hmade
  refine ⟨htasks, halike, ?_⟩
  have htraces := halike.trace
  rcases step_plan f selector s with ⟨-, htrace⟩ | ⟨e, -, htrace⟩ <;>
    rcases step_plan f selector s' with ⟨hplan', htrace'⟩ | ⟨e', hplan', htrace'⟩ <;>
    rw [htrace, htrace', h.alike.trace] at htraces
  · obtain ⟨left, hleft, hplan⟩ := h.plan
    exact ⟨left, htrace ▸ hleft, hplan'.trans hplan⟩
  · exact absurd htraces (List.cons_ne_self _ _)
  · exact absurd htraces.symm (List.cons_ne_self _ _)
  · rw [htrace] at hmade ⊢
    obtain ⟨left, hleft, hplan⟩ := h.exists_left hmade
    exact ⟨left, hleft, by rw [hplan', hplan, List.tail_cons]⟩

/-- Tours that begin in lockstep are so after any number of steps within the plan, if they escape alike on the way. -/
theorem after (h : InStep made rest s s') (hkeep : ∀ e ∈ made, e.reselect = false)
    (hescape : ∀ k, InStep made rest (s.after f selector k) (s'.after f selector k) →
      EscapesAlike f (s.after f selector k) (s'.after f selector k))
    (hmade : (s.after f selector n).walk.trace.reverse <+: made) :
    InStep made rest (s.after f selector n) (s'.after f selector n) := by
  induction n with
  | zero => exact h
  | succ n ih =>
    have hn := ih ((List.reverse_prefix.mpr (trace_suffix f selector (s.after f selector n) 1)).trans hmade)
    exact hn.step hkeep (hescape n hn) hmade

/-- Tours in lockstep that stay so for a step follow the same family. -/
theorem choose_eq (h : InStep made rest s s') (h' : (s.step f selector).walk.Alike (s'.step f selector).walk) {id : NodeId}
    {tasks : List Task} (htasks : s.tasks = .enter id :: tasks) (hterminal : (f.node id).isTerminal = false) :
    ((s'.walk.arrive f id).choose f selector id).1 = ((s.walk.arrive f id).choose f selector id).1 := by
  -- the families are on record in the derivations
  have hpush : ∀ {s : Tour α σ}, s.tasks = .enter id :: tasks → (s.step f selector).walk.derivation =
      s.walk.derivation.push (id, ((s.walk.arrive f id).choose f selector id).1) := by
    intro s htasks
    rw [step_descend htasks hterminal]
    exact congrArg (Array.push · _) ((s.walk.arrive f id).choose_cases f selector id).1.derivation
  have hsame := h'.derivation
  rw [hpush htasks, hpush (h.tasks.trans htasks)] at hsame
  exact congrArg Prod.snd (Array.push_eq_push.mp hsame).1

/-- Tours in lockstep that stay so for a step retrace together. -/
theorem retraces (h : InStep made rest s s') (h' : (s.step f selector).walk.Alike (s'.step f selector).walk)
    (hretraces : s'.Retraces f selector) : s.Retraces f selector := by
  obtain ⟨id, tasks, i, htasks, hterminal, hchosen, hback⟩ := hretraces
  have htasks := h.tasks.symm.trans htasks
  refine ⟨id, tasks, i, htasks, hterminal, ?_, (h.alike.arrive id).leadsBack _ ▸ hback⟩
  rw [← h.choose_eq h' htasks hterminal, hchosen]

end InStep

/-! ## The choices of a tour -/

/-- A step that records a choice enters a node where there is one to make. -/
theorem recorded_of_step {e : Choice} (h : (s.step f selector).walk.trace = e :: s.walk.trace) :
    ∃ id tasks, s.tasks = .enter id :: tasks ∧ (f.node id).isTerminal = false ∧ e.node = id ∧
      2 ≤ ((s.walk.arrive f id).usableFamilies f id).length ∧
      Choice.Makes ((s.walk.arrive f id).usableFamilies f id) s.walk.plan.head? e := by
  rcases step_cases f selector s with ⟨-, heq⟩ | ⟨id, tasks, -, -, heq⟩ | ⟨id, tasks, htasks, hterminal, heq⟩ |
    ⟨id, family?, tasks, -, heq⟩
  · rw [heq] at h
    exact absurd h.symm (List.cons_ne_self _ _)
  · rw [heq] at h
    exact absurd h.symm (List.cons_ne_self _ _)
  · rw [heq] at h
    obtain ⟨-, ⟨-, -, htrace⟩ | ⟨i, -, -, -, htrace⟩ | ⟨htwo, e', hnode, hmakes, -, -, htrace⟩⟩ :=
      (s.walk.arrive f id).choose_cases f selector id
    · exact absurd (h.symm.trans htrace) (List.cons_ne_self _ _)
    · exact absurd (h.symm.trans htrace) (List.cons_ne_self _ _)
    · obtain rfl : e = e' := (List.cons.inj (h.symm.trans htrace)).1
      exact ⟨id, tasks, htasks, hterminal, hnode, htwo, hmakes⟩
  · rw [heq, Walk.trace_depart] at h
    exact absurd h.symm (List.cons_ne_self _ _)

/-- What each recorded choice has, given the plan, all choices of a tour have. -/
theorem forall_mem_trace {P : Choice → Prop} {Q : List Choice → Prop} (htail : ∀ plan, Q plan → Q plan.tail)
    (hstep : ∀ {s : Tour α σ} {e : Choice}, (s.step f selector).walk.trace = e :: s.walk.trace → Q s.walk.plan → P e)
    (hplan : Q s.walk.plan) (htrace : ∀ e ∈ s.walk.trace, P e) (n : Nat) :
    Q (s.after f selector n).walk.plan ∧ ∀ e ∈ (s.after f selector n).walk.trace, P e := by
  induction n with
  | zero => exact ⟨hplan, htrace⟩
  | succ n ih =>
    rcases step_plan f selector (s.after f selector n) with ⟨hplan, htrace⟩ | ⟨e, hplan, htrace⟩
    · rw [after, hplan, htrace]
      exact ih
    · rw [after, hplan, htrace]
      exact ⟨htail _ ih.1, List.forall_mem_cons.mpr ⟨hstep htrace ih.1, ih.2⟩⟩

/-- Choices are recorded as they are, not to be made anew. -/
theorem keep_of_mem_trace (selector : Selector σ) (htrace : s.walk.trace = []) (n : Nat) :
    ∀ e ∈ (s.after f selector n).walk.trace, e.reselect = false := by
  refine (forall_mem_trace (Q := fun _ => True) (fun _ _ => trivial) (fun hrecorded _ => ?_) trivial (by simp [htrace]) n).2
  obtain ⟨id, tasks, -, -, -, -, hmakes⟩ := recorded_of_step hrecorded
  exact hmakes.keep

/-- Each choice of a tour was recorded at some step. -/
theorem exists_recording (htrace : s.walk.trace = []) {later earlier : List Choice} {c : Choice}
    (h : (s.after f selector n).walk.trace = later ++ c :: earlier) :
    ∃ m, (s.after f selector m).walk.trace = earlier ∧ ((s.after f selector m).step f selector).walk.trace = c :: earlier := by
  induction n generalizing later with
  | zero =>
    rw [after, htrace] at h
    cases later <;> cases h
  | succ n ih =>
    rcases step_plan f selector (s.after f selector n) with ⟨-, hstep⟩ | ⟨e, -, hstep⟩
    · rw [after, hstep] at h
      exact ih h
    · rw [after, hstep] at h
      cases later with
      | nil =>
        obtain ⟨rfl, hearlier⟩ := List.cons.inj h
        exact ⟨n, hearlier, by rw [hstep, hearlier]⟩
      | cons e' later => exact ih (List.cons.inj h).2

/-! ## Where tours part -/

/-- Where a choice is renewed, the second tour makes one that was not made before at this point, and has nothing planned after. -/
theorem InStep.part {c : Choice} (h : InStep made [c.renew] s s') (hmade : s.walk.trace.reverse = made)
    (hc : (s.step f selector).walk.trace = c :: s.walk.trace) :
    ∃ e, (s'.step f selector).walk.trace = e :: s.walk.trace ∧ e.tried = e.chosen :: c.tried ∧
      (s'.step f selector).walk.plan = [] ∧ ¬ s'.Retraces f selector := by
  obtain ⟨left, hleft, hplan⟩ := h.plan
  obtain rfl : left = [] := by
    rw [hmade] at hleft
    exact List.append_right_eq_self.mp hleft
  obtain ⟨id, tasks, htasks, hterminal, hnode, htwo, -⟩ := recorded_of_step hc
  rw [← (h.alike.arrive id).usableFamilies] at htwo
  have hstep : s'.step f selector = descend f selector id tasks s'.walk := step_descend (h.tasks.trans htasks) hterminal
  have hhead : s'.walk.plan.head? = some c.renew := by rw [hplan]; rfl
  have hfree : ¬ s'.Retraces f selector := by
    rintro ⟨id', tasks', i, -, -, hchosen, hback⟩
    obtain ⟨c', hc', hkeep, -⟩ := Walk.planned_of_leadsBack hchosen hback
    obtain rfl := Option.some.inj (hc'.symm.trans hhead)
    cases hkeep
  obtain ⟨-, ⟨hnone, -⟩ | ⟨i, hone, -⟩ | ⟨-, e, hnode', hmakes, -, hplan', htrace'⟩⟩ :=
    (s'.walk.arrive f id).choose_cases f selector id
  · simp [hnone] at htwo
  · simp [hone] at htwo
  · rw [hstep]
    have hmakes : Choice.Makes _ (some c.renew) e := hhead ▸ hmakes
    have htail : (descend f selector id tasks s'.walk).walk.plan = [] := by
      refine hplan'.trans ?_
      rw [show (s'.walk.arrive f id).plan = [c.renew] from hplan]
      rfl
    have htrace : (descend f selector id tasks s'.walk).walk.trace = e :: s.walk.trace := by
      refine htrace'.trans ?_
      rw [← h.alike.trace]
      rfl
    cases hmakes with
    | repeated hkeep => cases hkeep
    | renewed _ _ htried => exact ⟨e, htrace, htried, htail, hfree⟩
    | fresh hother => exact absurd (hnode.trans hnode'.symm) (hother c.renew rfl)

/-- A tour along the choices of another up to one that is renewed makes those choices, then another one there. If the first tour
retraces only within its first choices, so does the second. -/
theorem InStep.parted {later earlier : List Choice} {c : Choice} {limit : Nat} (htrace : s.walk.trace = [])
    (h : InStep earlier.reverse [c.renew] s s') (hmade : (s.after f selector n).walk.trace = later ++ c :: earlier)
    (hescape : ∀ k, InStep earlier.reverse [c.renew] (s.after f selector k) (s'.after f selector k) →
      EscapesAlike f (s.after f selector k) (s'.after f selector k))
    (hclear : s.ClearFrom f selector limit) :
    s'.ClearFrom f selector limit ∧ ∀ k, (s'.after f selector k).tasks = [] →
      ∃ e post, (s'.after f selector k).walk.trace = post ++ e :: earlier ∧ e.tried = e.chosen :: c.tried := by
  have hkeep : ∀ e ∈ earlier.reverse, e.reselect = false := fun e he =>
    keep_of_mem_trace selector htrace n e (by rw [hmade]; simp [List.mem_reverse.mp he])
  obtain ⟨m, hbefore, hrecorded⟩ := exists_recording htrace hmade
  have hwithin : ∀ k ≤ m, (s.after f selector k).walk.trace.reverse <+: earlier.reverse := by
    intro k hk
    obtain ⟨d, rfl⟩ := Nat.exists_eq_add_of_le hk
    rw [← hbefore, after_add]
    exact List.reverse_prefix.mpr (trace_suffix f selector _ d)
  have hm := h.after hkeep hescape (hwithin m (Nat.le_refl m))
  obtain ⟨e, htrace', htried, hplan', hfree⟩ := hm.part (by rw [hbefore]) (by rw [hrecorded, hbefore])
  rw [hbefore] at htrace'
  constructor
  · intro k hlimit hretraces
    rcases Nat.lt_trichotomy k m with hlt | rfl | hgt
    · -- on the way the tours retrace together
      have hk := h.after hkeep hescape (hwithin k (Nat.le_of_lt hlt))
      have hk' := hk.alike_step hkeep (hescape k hk) (hwithin (k + 1) hlt)
      refine hclear k ?_ (hk.retraces hk'.2.1 hretraces)
      rwa [hk.alike.trace] at hlimit
    · exact hfree hretraces
    · -- from there on nothing is planned
      have hstart : s'.walk.trace = [] := h.alike.trace.trans htrace
      obtain ⟨d, rfl⟩ := Nat.exists_eq_add_of_le (Nat.succ_le_of_lt hgt)
      refine not_retraces_of_plan ?_ hretraces
      have hgone : s'.walk.plan.length ≤ (s'.after f selector (m + 1)).walk.trace.length := by
        rw [← List.drop_eq_nil_iff, ← after_plan hstart]
        exact hplan'
      rw [after_plan hstart, List.drop_eq_nil_iff, after_add]
      exact Nat.le_trans hgone (trace_suffix f selector _ d).length_le
  · intro k hhalted
    refine ⟨e, ?_⟩
    have hlt : m < k := by
      by_contra hle
      obtain ⟨id, tasks, htasks, -⟩ := recorded_of_step (s := s.after f selector m) (hbefore.symm ▸ hrecorded)
      have hended : (s'.after f selector m).tasks = [] := by
        obtain ⟨d, rfl⟩ := Nat.exists_eq_add_of_le (Nat.not_lt.mp hle)
        rwa [after_add, after_of_halted hhalted]
      rw [hm.tasks, htasks] at hended
      cases hended
    obtain ⟨d, rfl⟩ := Nat.exists_eq_add_of_le (Nat.succ_le_of_lt hlt)
    obtain ⟨post, hpost⟩ := trace_suffix f selector (s'.after f selector (m + 1)) d
    refine ⟨post, ?_, htried⟩
    rw [after_add, ← hpost]
    exact congrArg (post ++ ·) htrace'

end Tour

/-- A walk along the choices of another one begins in lockstep with it. -/
theorem Walker.inStep_tour {v w : Walker α σ} (hforest : w.forest = v.forest) (root : NodeId) (plan made rest : List Choice) :
    Tour.InStep made rest (v.tour root plan) (w.tour root (made ++ rest)) := by
  refine ⟨rfl, ⟨rfl, rfl, ?_, rfl, rfl⟩, made, rfl, rfl⟩
  show (w.begun (made ++ rest)).events = (v.begun plan).events
  simp only [begun, Walk.emit, hforest]

end ContextFree
