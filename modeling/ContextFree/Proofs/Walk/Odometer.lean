-- SUMMARY: Plans as odometers: which sequences of choices have been passed, and what renewing the last open choice adds.
import ContextFree.Proofs.Walk.Choosing

/-!
# Plans as odometers

The choices of a walk are the digits of an odometer, with two differences: which choice comes next depends on the earlier
ones, and a digit runs through its values in an order that a selector decides on the way. A plan has passed a sequence of
choices if the sequence follows the plan up to some choice and departs there by a family that was tried before. A walk
along a plan makes choices that have passed what the plan has passed. Renewing the last choice that is not exhausted passes
one sequence more, that of the walk itself.
-/
namespace ContextFree

variable {usable : NodeId → List Nat} {plan entries pre post : List Choice} {c e : Choice} {id : NodeId} {i : Nat}
  {left right left' right' steps : List (NodeId × Nat)}

/-! ## Records of choices -/

namespace Choice

/-- The node of a choice and the family chosen. -/
def step (c : Choice) : NodeId × Nat := (c.node, c.chosen)

/-- The families that were taken here before and will not be taken again. -/
def passed (c : Choice) : List Nat :=
  if c.reselect then c.tried else c.tried.tail

theorem passed_of_keep (h : c.reselect = false) : c.passed = c.tried.tail := by
  rw [passed, h]
  rfl

/-- The families tried are usable, none was tried twice, and the latest is the one chosen. -/
structure Sound (usable : NodeId → List Nat) (c : Choice) : Prop where
  head : c.tried.head? = some c.chosen
  nodup : c.tried.Nodup
  subset : c.tried ⊆ usable c.node
  candidates : c.candidates = (usable c.node).length

namespace Sound

theorem tried_eq (h : c.Sound usable) : c.tried = c.chosen :: c.tried.tail :=
  List.eq_cons_of_mem_head? h.head

theorem mem_tried (h : c.Sound usable) : i ∈ c.tried ↔ i ∈ c.tried.tail ∨ i = c.chosen := by
  rw [h.tried_eq, List.tail_cons, List.mem_cons, or_comm]

theorem chosen_notMem (h : c.Sound usable) : c.chosen ∉ c.tried.tail := by
  have hnodup := h.nodup
  rw [h.tried_eq] at hnodup
  exact (List.nodup_cons.mp hnodup).1

/-- An exhausted choice has tried every usable family. -/
theorem mem_of_isExhausted (h : c.Sound usable) (hexhausted : c.isExhausted = true) (hi : i ∈ usable c.node) :
    i ∈ c.tried := by
  have hlength : (usable c.node).length ≤ c.tried.length := h.candidates ▸ of_decide_eq_true hexhausted
  exact ((h.nodup.subperm h.subset).perm_of_length_le hlength).mem_iff.mpr hi

theorem length_lt (h : c.Sound usable) (hopen : c.isExhausted = false) : c.tried.length < (usable c.node).length :=
  h.candidates ▸ Nat.not_le.mp (of_decide_eq_false hopen)

theorem renew (h : c.Sound usable) : c.renew.Sound usable :=
  ⟨h.head, h.nodup, h.subset, h.candidates⟩

end Sound

/-- A choice made from a sound plan is sound. -/
theorem Makes.sound {planned? : Option Choice} (h : Makes (usable e.node) planned? e)
    (hsound : ∀ c ∈ planned?, c.Sound usable) (hopen : ∀ c ∈ planned?, c.reselect = true → c.isExhausted = false) :
    e.Sound usable ∧ e.reselect = false := by
  cases h with
  | repeated hreselect => exact ⟨hsound _ rfl, hreselect⟩
  | @renewed c _ hrenew hnode htried hmem hnew hcandidates hreselect =>
    have hc := hsound c rfl
    have hnew := hnew (hnode ▸ hc.length_lt (hopen c rfl hrenew))
    refine ⟨⟨by rw [htried]; rfl, ?_, ?_, hcandidates⟩, hreselect⟩
    · rw [htried]
      exact List.nodup_cons.mpr ⟨hnew, hc.nodup⟩
    · rw [htried, ← hnode]
      exact List.cons_subset.mpr ⟨hnode ▸ hmem, hc.subset⟩
  | fresh _ htried hmem hcandidates hreselect =>
    refine ⟨⟨by rw [htried]; rfl, ?_, ?_, hcandidates⟩, hreselect⟩
    · rw [htried]
      exact List.nodup_singleton _
    · rw [htried]
      exact List.cons_subset.mpr ⟨hmem, List.nil_subset _⟩

end Choice

namespace Odometer

/-! ## Sequences of choices -/

/-- Sequences of choices that are equal, or agree up to different choices at one node. -/
inductive Parallel : List (NodeId × Nat) → List (NodeId × Nat) → Prop where
  | nil : Parallel [] []
  | apart {id : NodeId} {i j : Nat} (left right : List (NodeId × Nat)) :
      i ≠ j → Parallel ((id, i) :: left) ((id, j) :: right)
  | cons {left right : List (NodeId × Nat)} (step : NodeId × Nat) :
      Parallel left right → Parallel (step :: left) (step :: right)

namespace Parallel

theorem refl (steps : List (NodeId × Nat)) : Parallel steps steps := by
  induction steps with
  | nil => exact .nil
  | cons step _ ih => exact .cons step ih

theorem append (h : Parallel left right) (hrest : left = right → Parallel left' right') :
    Parallel (left ++ left') (right ++ right') := by
  induction h with
  | nil => exact hrest rfl
  | apart _ _ hne => exact .apart _ _ hne
  | cons step _ ih => exact .cons step (ih fun heq => hrest (heq ▸ rfl))

/-- Parallel sequences are no proper beginnings of each other. -/
theorem append_inj (h : Parallel left right) (heq : left ++ left' = right ++ right') : left = right ∧ left' = right' := by
  induction h with
  | nil => exact ⟨rfl, heq⟩
  | apart _ _ hne =>
    rw [List.cons_append, List.cons_append, List.cons.injEq, Prod.mk.injEq] at heq
    exact absurd heq.1.2 hne
  | cons step _ ih =>
    obtain ⟨rfl, hrest⟩ := ih (List.tail_eq_of_cons_eq heq)
    exact ⟨rfl, hrest⟩

/-- A sequence that is parallel to a choice and more begins with a choice at the same node. -/
theorem exists_cons (h : Parallel ((id, i) :: left) right) :
    ∃ j rest, right = (id, j) :: rest ∧ (j = i → Parallel left rest) := by
  cases h with
  | apart _ rest hne => exact ⟨_, rest, rfl, fun heq => absurd heq.symm hne⟩
  | cons _ h => exact ⟨i, _, rfl, fun _ => h⟩

end Parallel

/-! ## Plans -/

/-- Sound choices, of which only the last may have to be made anew; it is not exhausted then. -/
inductive Planned (usable : NodeId → List Nat) : List Choice → Prop where
  | nil : Planned usable []
  | renewing {c : Choice} : c.Sound usable → c.reselect = true → c.isExhausted = false → Planned usable [c]
  | cons {c : Choice} {plan : List Choice} :
      c.Sound usable → c.reselect = false → Planned usable plan → Planned usable (c :: plan)

/-- The choices of a walk along a plan. -/
inductive Made (usable : NodeId → List Nat) : List Choice → List Choice → Prop where
  | nil (plan : List Choice) : Made usable plan []
  | cons {plan entries : List Choice} {e : Choice} :
      Choice.Makes (usable e.node) plan.head? e → Made usable plan.tail entries → Made usable plan (e :: entries)

/-- The sequence has the nodes of the plan for as long as it follows the plan. -/
def Fits : List Choice → List (NodeId × Nat) → Prop
  | [],        _                => True
  | _ :: _,    []               => False
  | c :: plan, (id, i) :: steps => c.node = id ∧ (i = c.chosen → Fits plan steps)

/-- The sequence follows the plan up to a choice and departs there by a family that was taken before. -/
def Passed : List Choice → List (NodeId × Nat) → Prop
  | c :: plan, (id, i) :: steps => c.node = id ∧ (i ∈ c.passed ∨ i = c.chosen ∧ Passed plan steps)
  | _,         _                => False

theorem Planned.tail (h : Planned usable plan) : Planned usable plan.tail := by
  cases h with
  | nil => exact .nil
  | renewing => exact .nil
  | cons _ _ h => exact h

theorem Planned.sound (h : Planned usable plan) :
    ∀ c ∈ plan, c.Sound usable ∧ (c.reselect = true → c.isExhausted = false) := by
  induction h with
  | nil => simp
  | renewing hsound _ hopen => simpa using ⟨hsound, fun _ => hopen⟩
  | cons hsound hkeep _ ih =>
    exact List.forall_mem_cons.mpr ⟨⟨hsound, fun hrenew => absurd (hkeep.symm.trans hrenew) Bool.false_ne_true⟩, ih⟩

namespace Made

theorem append {entries' : List Choice} (h : Made usable plan entries)
    (h' : Made usable (plan.drop entries.length) entries') : Made usable plan (entries ++ entries') := by
  induction h with
  | nil plan => exact h'
  | cons hmakes _ ih =>
    rw [List.length_cons, ← List.drop_tail] at h'
    exact .cons hmakes (ih h')

theorem sound (h : Made usable plan entries) (hplan : Planned usable plan) :
    ∀ e ∈ entries, e.Sound usable ∧ e.reselect = false := by
  induction h with
  | nil => simp
  | cons hmakes _ ih =>
    have hhead := fun c hc => hplan.sound c (List.mem_of_mem_head? hc)
    exact List.forall_mem_cons.mpr
      ⟨hmakes.sound (fun c hc => (hhead c hc).1) fun c hc => (hhead c hc).2, ih hplan.tail⟩

/-- Unplanned choices have passed nothing. -/
theorem not_passed (h : Made usable [] entries) : ¬ Passed entries steps := by
  generalize hplan : ([] : List Choice) = plan at h
  induction h generalizing steps with
  | nil => exact id
  | @cons plan entries e hmakes _ ih =>
    subst hplan
    intro hpassed
    match steps, hpassed with
    | (id, i) :: steps, ⟨hnode, hchoice⟩ =>
      cases hmakes with
      | fresh _ htried _ _ hreselect =>
        rcases hchoice with hmem | ⟨-, hpassed⟩
        · rw [Choice.passed_of_keep hreselect, htried] at hmem
          cases hmem
        · exact ih rfl hpassed

/-- The choices of a walk along a plan have passed what the plan has passed. -/
theorem passed_iff (h : Made usable plan entries) (hplan : Planned usable plan)
    (hfits : Fits plan (entries.map Choice.step)) : Passed entries steps ↔ Passed plan steps := by
  -- along the plan: choices are repeated up to the one to be renewed, and what follows that one is unplanned
  induction hplan generalizing entries steps with
  | nil => exact iff_of_false h.not_passed id
  | @renewing c hsound hrenew hopen =>
    cases h with
    | nil => exact absurd hfits id
    | @cons _ entries e hmakes hrest =>
      obtain ⟨hnode, -⟩ := hfits
      match steps with
      | [] => exact Iff.rfl
      | (id, i) :: steps =>
        cases hmakes with
        | repeated hreselect => exact absurd (hreselect.symm.trans hrenew) Bool.false_ne_true
        | renewed _ _ htried _ _ _ hreselect =>
          have hpassed : e.passed = c.passed := by
            rw [Choice.passed_of_keep hreselect, htried, Choice.passed, hrenew]
            rfl
          have hnone : ¬ Passed entries steps := hrest.not_passed
          simp only [Passed, hpassed, hnode, hnone, and_false]
        | fresh hother => exact absurd hnode (hother c rfl)
  | @cons c plan hsound hkeep hplan ih =>
    cases h with
    | nil => exact absurd hfits id
    | @cons _ entries e hmakes hrest =>
      obtain ⟨hnode, hfits⟩ := hfits
      match steps with
      | [] => exact Iff.rfl
      | (id, i) :: steps =>
        cases hmakes with
        | repeated => simp only [Passed, ih hrest (hfits rfl)]
        | renewed hrenew => exact absurd (hkeep.symm.trans hrenew) Bool.false_ne_true
        | fresh hother => exact absurd hnode (hother c rfl)

end Made

/-! ## What was passed -/

/-- A walk has not passed its own choices. -/
theorem not_passed_self (hsound : ∀ e ∈ entries, e.Sound usable ∧ e.reselect = false) :
    ¬ Passed entries (entries.map Choice.step) := by
  induction entries with
  | nil => exact id
  | cons e entries ih =>
    obtain ⟨⟨he, hkeep⟩, hrest⟩ := List.forall_mem_cons.mp hsound
    rintro ⟨-, hmem | ⟨-, hpassed⟩⟩
    · exact he.chosen_notMem (Choice.passed_of_keep hkeep ▸ hmem)
    · exact ih hrest hpassed

/-- The sequence is that of the walk or was passed. -/
def Done (entries : List Choice) (steps : List (NodeId × Nat)) : Prop :=
  Passed entries steps ∨ steps = entries.map Choice.step

theorem done_cons_iff (hkeep : e.reselect = false) :
    Done (e :: entries) ((e.node, i) :: steps) ↔ i ∈ e.tried.tail ∨ i = e.chosen ∧ Done entries steps := by
  simp only [Done, Passed, Choice.passed_of_keep hkeep, true_and, List.map_cons, Choice.step, List.cons.injEq,
    Prod.mk.injEq, and_or_left, or_assoc]

/-- When all choices of a walk are exhausted, nothing is left. -/
theorem done_of_isExhausted (hsound : ∀ e ∈ post, e.Sound usable ∧ e.reselect = false)
    (hexhausted : ∀ e ∈ post, e.isExhausted = true) (hparallel : Parallel (post.map Choice.step) steps)
    (hsteps : ∀ x ∈ steps, x.2 ∈ usable x.1) : Done post steps := by
  induction post generalizing steps with
  | nil =>
    cases hparallel
    exact .inr rfl
  | cons e post ih =>
    obtain ⟨⟨he, hkeep⟩, hrest⟩ := List.forall_mem_cons.mp hsound
    obtain ⟨hfull, hexhausted⟩ := List.forall_mem_cons.mp hexhausted
    obtain ⟨i, steps, rfl, hagree⟩ := hparallel.exists_cons
    obtain ⟨hi, hsteps⟩ := List.forall_mem_cons.mp hsteps
    rw [done_cons_iff hkeep]
    refine (he.mem_tried.mp (he.mem_of_isExhausted hfull hi)).imp_right fun heq => ?_
    exact ⟨heq, ih hrest hexhausted (hagree heq) hsteps⟩

/-! ## The next plan -/

theorem planned_renew (hpre : ∀ e ∈ pre, e.Sound usable ∧ e.reselect = false) (hc : c.Sound usable)
    (hopen : c.isExhausted = false) : Planned usable (pre ++ [c.renew]) := by
  induction pre with
  | nil => exact .renewing hc.renew rfl hopen
  | cons e pre ih =>
    obtain ⟨⟨he, hkeep⟩, hrest⟩ := List.forall_mem_cons.mp hpre
    exact .cons he hkeep (ih hrest)

theorem fits_renew (hparallel : Parallel ((pre ++ c :: post).map Choice.step) steps) : Fits (pre ++ [c.renew]) steps := by
  induction pre generalizing steps with
  | nil =>
    obtain ⟨i, steps, rfl, -⟩ := hparallel.exists_cons
    exact ⟨rfl, fun _ => trivial⟩
  | cons e pre ih =>
    obtain ⟨i, steps, rfl, hagree⟩ := hparallel.exists_cons
    exact ⟨rfl, fun heq => ih (hagree heq)⟩

/-- Renewing the last choice that is not exhausted passes the walk itself, and nothing else that was not passed before. -/
theorem passed_renew_iff (hsound : ∀ e ∈ pre ++ c :: post, e.Sound usable ∧ e.reselect = false)
    (hexhausted : ∀ e ∈ post, e.isExhausted = true)
    (hparallel : Parallel ((pre ++ c :: post).map Choice.step) steps) (hsteps : ∀ x ∈ steps, x.2 ∈ usable x.1) :
    Passed (pre ++ [c.renew]) steps ↔ Done (pre ++ c :: post) steps := by
  induction pre generalizing steps with
  | nil =>
    obtain ⟨⟨hc, hkeep⟩, hpost⟩ := List.forall_mem_cons.mp hsound
    obtain ⟨i, steps, rfl, hagree⟩ := hparallel.exists_cons
    have htried : Passed [c.renew] ((c.node, i) :: steps) ↔ i ∈ c.tried := by
      simp [Passed, Choice.passed, Choice.renew]
    rw [List.nil_append, List.nil_append, htried, done_cons_iff hkeep, hc.mem_tried]
    refine or_congr_right ⟨fun heq => ⟨heq, ?_⟩, And.left⟩
    exact done_of_isExhausted hpost hexhausted (hagree heq) (List.forall_mem_cons.mp hsteps).2
  | cons e pre ih =>
    obtain ⟨⟨-, hkeep⟩, hrest⟩ := List.forall_mem_cons.mp hsound
    obtain ⟨i, steps, rfl, hagree⟩ := hparallel.exists_cons
    rw [List.cons_append, List.cons_append, done_cons_iff hkeep, ← Choice.passed_of_keep hkeep]
    refine (and_iff_right rfl).trans (or_congr_right (and_congr_right fun heq => ?_))
    exact ih hrest (hagree heq) (List.forall_mem_cons.mp hsteps).2

end Odometer
end ContextFree
