-- SUMMARY: Families of a node in the order of their priorities, and what one choice by priority picks from them.
import ContextFree.Proofs.Walk.Choosing
import Mathlib.Data.List.Sort
import Mathlib.Data.List.Induction

/-!
# Ranking by priority

The priority of a family is the highest one among its children. The ranking of a node lists its admissible families by
descending priority; those of equal priority keep their order. A choice by priority looks at the families that were not
tried, keeps the best one seen so far and counts the others that tie with it. So it takes the next family in the ranking, and
its count says whether another one of the same priority is left.
-/
namespace ContextFree

variable {α : Type} {id : NodeId} {i j : Nat}

/-! ## Priorities -/

namespace Forest

variable {f : Forest α}

/-- The priority of a family, as a selector sees it. -/
def priorityOf (f : Forest α) (id : NodeId) (i : Nat) : Int :=
  (Walk.viewFamily f id i).priority

/-- The symbol whose attributes count for a node: its own, or the one before its dot. -/
def symbolOf (f : Forest α) (id : NodeId) : Option Symbol :=
  match (f.node id).label with
  | .symbol symbol => some symbol
  | .state slot    => (f.grammar.state slot).previous

/-- The well-formed priorities of the children of a family. -/
def priorities (f : Forest α) (id : NodeId) (i : Nat) : Set Int :=
  {p | ∃ child ∈ ((f.node id).families.getD i .nothing).children, ∃ symbol, f.symbolOf child = some symbol ∧
    (f.grammar.attributesOf symbol).priority = some p}

/-- The admissible families by descending priority, in their order where priorities are equal. -/
def ranked (f : Forest α) (id : NodeId) : List Nat :=
  (f.admissible id).mergeSort fun i j => f.priorityOf id j ≤ f.priorityOf id i

theorem priority_viewChild (f : Forest α) (child : NodeId) :
    (Walk.viewChild f child).attributes.priority =
      (f.symbolOf child).bind fun symbol => (f.grammar.attributesOf symbol).priority := by
  have hattributes : (Walk.viewChild f child).attributes =
      ((f.symbolOf child).map f.grammar.attributesOf).getD .empty := rfl
  rw [hattributes]
  cases f.symbolOf child <;> rfl

theorem mem_priorities_iff {p : Int} :
    p ∈ f.priorities id i ↔ p ∈ (Walk.viewFamily f id i).children.filterMap (·.attributes.priority) := by
  simp only [Walk.viewFamily, List.filterMap_map, List.mem_filterMap, Function.comp_apply, priority_viewChild,
    Option.bind_eq_some_iff]
  rfl

/-- The priority of a family is the highest one among its children, or zero if none has one. -/
theorem priorityOf_spec (f : Forest α) (id : NodeId) (i : Nat) :
    f.priorities id i = ∅ ∧ f.priorityOf id i = 0 ∨ IsGreatest (f.priorities id i) (f.priorityOf id i) := by
  rw [priorityOf, Candidate.priority]
  cases hmax : ((Walk.viewFamily f id i).children.filterMap (·.attributes.priority)).max? with
  | none =>
    rw [List.max?_eq_none_iff] at hmax
    refine .inl ⟨Set.eq_empty_of_forall_notMem fun p hp => ?_, rfl⟩
    rw [mem_priorities_iff, hmax] at hp
    cases hp
  | some p =>
    obtain ⟨hmem, hle⟩ := List.max?_eq_some_iff.mp hmax
    exact .inr ⟨mem_priorities_iff.mpr hmem, fun q hq => hle q (mem_priorities_iff.mp hq)⟩

/-! ## Rankings -/

/-- One family is ranked before another: its priority is higher, or equal and its position is lower. -/
def Before (f : Forest α) (id : NodeId) (i j : Nat) : Prop :=
  f.priorityOf id j < f.priorityOf id i ∨ f.priorityOf id j = f.priorityOf id i ∧ i < j

theorem Before.asymm (h : f.Before id i j) : ¬ f.Before id j i := by
  unfold Before at *
  omega

theorem antisymm_before (f : Forest α) (id : NodeId) : Std.Antisymm fun i j => i = j ∨ f.Before id i j where
  antisymm i j hij hji := by
    unfold Before at *
    omega

theorem perm_ranked (f : Forest α) (id : NodeId) : (f.ranked id).Perm (f.admissible id) :=
  List.mergeSort_perm ..

theorem nodup_ranked (f : Forest α) (id : NodeId) : (f.ranked id).Nodup :=
  (f.perm_ranked id).nodup_iff.mpr (f.nodup_admissible id)

theorem pairwise_admissible (f : Forest α) (id : NodeId) : (f.admissible id).Pairwise (· < ·) :=
  List.pairwise_lt_range.filter _

section Sorting

variable (f : Forest α) (id : NodeId)

theorem le_trans_priority (a b c : Nat) (hab : decide (f.priorityOf id b ≤ f.priorityOf id a) = true)
    (hbc : decide (f.priorityOf id c ≤ f.priorityOf id b) = true) :
    decide (f.priorityOf id c ≤ f.priorityOf id a) = true := by
  rw [decide_eq_true_eq] at *
  exact hbc.trans hab

theorem le_total_priority (a b : Nat) : (decide (f.priorityOf id b ≤ f.priorityOf id a) ||
    decide (f.priorityOf id a ≤ f.priorityOf id b)) = true := by
  rw [Bool.or_eq_true, decide_eq_true_eq, decide_eq_true_eq]
  exact le_total _ _

/-- Families of one priority are ranked in their order. -/
theorem filter_ranked (p : Int) : (f.ranked id).filter (f.priorityOf id · = p) =
    (f.admissible id).filter (f.priorityOf id · = p) := by
  have hequal : ((f.admissible id).filter (f.priorityOf id · = p)).Pairwise
      fun a b => decide (f.priorityOf id b ≤ f.priorityOf id a) = true := by
    refine List.pairwise_of_forall_mem_list fun a ha b hb => ?_
    rw [List.mem_filter, decide_eq_true_eq] at ha hb
    rw [decide_eq_true_eq, ha.2, hb.2]
  have hsublist := List.sublist_mergeSort (f.le_trans_priority id) (f.le_total_priority id) hequal List.filter_sublist
  have hfilter := hsublist.filter (f.priorityOf id · = p)
  simp only [List.filter_filter, Bool.and_self] at hfilter
  exact (hfilter.eq_of_length ((f.perm_ranked id).filter _).length_eq.symm).symm

/-- Each family is ranked before those that come later. -/
theorem pairwise_ranked : (f.ranked id).Pairwise (f.Before id) := by
  rw [List.pairwise_iff_forall_sublist]
  intro i j hpair
  have hle := List.pairwise_iff_forall_sublist.mp
    (List.pairwise_mergeSort (f.le_trans_priority id) (f.le_total_priority id) (f.admissible id)) hpair
  rw [decide_eq_true_eq] at hle
  refine (lt_or_eq_of_le hle).imp_right fun heq => ⟨heq, ?_⟩
  -- the two stay in their order among the families of their priority
  have hfilter := hpair.filter (f.priorityOf id · = f.priorityOf id i)
  rw [filter_ranked, List.filter_eq_self.mpr (by simp [heq])] at hfilter
  exact List.pairwise_iff_forall_sublist.mp (f.pairwise_admissible id) (hfilter.trans List.filter_sublist)

end Sorting

/-- There is one way to list the admissible families by rank. -/
theorem eq_ranked {families : List Nat} (hperm : families.Perm (f.admissible id))
    (h : families.Pairwise fun i j => i = j ∨ f.Before id i j) : families = f.ranked id := by
  refine (hperm.trans (f.perm_ranked id).symm).eq_of_pairwise (fun i j _ _ => ?_) h ((f.pairwise_ranked id).imp .inr)
  exact (f.antisymm_before id).antisymm i j

end Forest

/-! ## The best candidate -/

/-- The best candidate comes after lower ones and before those that are no higher, and the others of its priority are
counted. -/
theorem Selector.best?_spec (l : List (Candidate × Nat)) (hne : l ≠ []) : ∃ before best after, l = before ++ best :: after ∧
    (∀ x ∈ before, x.1.priority < best.1.priority) ∧ (∀ x ∈ after, x.1.priority ≤ best.1.priority) ∧
    best? l = some (best.2, best.1.priority, after.countP fun x => x.1.priority = best.1.priority) := by
  induction l using List.reverseRecOn with
  | nil => exact absurd rfl hne
  | append_singleton l x ih =>
    by_cases hl : l = []
    · subst hl
      exact ⟨[], x, [], rfl, by simp, by simp, rfl⟩
    · obtain ⟨before, best, after, rfl, hbefore, hafter, hbest⟩ := ih hl
      -- the new one is lower, ties with the best, or is the best from now on
      have hstep : best? (before ++ best :: after ++ [x]) =
          if x.1.priority < best.1.priority then best? (before ++ best :: after)
          else if x.1.priority = best.1.priority then
            some (best.2, best.1.priority, after.countP (fun x => x.1.priority = best.1.priority) + 1)
          else some (x.2, x.1.priority, 0) := by
        rw [best?, List.foldl_append, ← best?, hbest]
        rfl
      rw [hstep]
      rcases lt_trichotomy x.1.priority best.1.priority with hlt | heq | hgt
      · refine ⟨before, best, after ++ [x], by simp, hbefore, ?_, ?_⟩
        · exact List.forall_mem_append.mpr ⟨hafter, List.forall_mem_singleton.mpr hlt.le⟩
        · rw [if_pos hlt, hbest, List.countP_append, List.countP_singleton, decide_eq_false hlt.ne]
          rfl
      · refine ⟨before, best, after ++ [x], by simp, hbefore, ?_, ?_⟩
        · exact List.forall_mem_append.mpr ⟨hafter, List.forall_mem_singleton.mpr heq.le⟩
        · rw [if_neg heq.not_lt, if_pos heq, List.countP_append, List.countP_singleton, decide_eq_true heq]
          rfl
      · refine ⟨before ++ best :: after, x, [], by simp, ?_, by simp, ?_⟩
        · refine List.forall_mem_append.mpr ⟨fun y hy => (hbefore y hy).trans hgt, List.forall_mem_cons.mpr ⟨hgt, ?_⟩⟩
          exact fun y hy => (hafter y hy).trans_lt hgt
        · rw [if_neg hgt.not_gt, if_neg hgt.ne']
          rfl

/-- The families of the candidates that were not tried, in their order. -/
theorem map_untried (candidates : List Candidate) (tried : List Nat) :
    (untried candidates tried).map (·.1.family) = (candidates.map (·.family)).filter (· ∉ tried) := by
  have hfamilies : candidates.map (·.family) = candidates.zipIdx.map (·.1.family) := by
    nth_rewrite 1 [← List.zipIdx_map_fst 0 candidates]
    rw [List.map_map]
    rfl
  rw [hfamilies, List.filter_map, untried]
  congr 1
  refine List.filter_congr fun x _ => ?_
  simp

namespace Walk

variable {f : Forest α} {usable tried : List Nat}

theorem map_family_views (f : Forest α) (id : NodeId) (usable : List Nat) :
    (usable.map (viewFamily f id)).map (·.family) = usable :=
  (List.map_map ..).trans (List.map_id _)

theorem mem_untried_views : ∀ x ∈ untried (usable.map (viewFamily f id)) tried.reverse,
    (usable.map (viewFamily f id))[x.2]? = some x.1 ∧ x.1.family ∉ tried ∧
      x.1.priority = f.priorityOf id x.1.family := by
  intro x hx
  rw [untried, List.mem_filter, List.mem_zipIdx_iff_getElem?] at hx
  obtain ⟨i, -, hview⟩ := List.mem_map.mp (List.mem_of_getElem? hx.1)
  refine ⟨hx.1, by simpa using hx.2, ?_⟩
  rw [← hview]
  rfl

/-- Among the families that were not tried, the one chosen by priority comes after lower ones and before those that are no
higher. The choice counts as arbitrary if one of these has the same priority. -/
theorem ask_byPriority (f : Forest α) (w : Walk α Unit) (id : NodeId) (h : ∃ i ∈ usable, i ∉ tried) :
    ∃ before chosen after, usable.filter (· ∉ tried) = before ++ chosen :: after ∧
      (w.ask f .byPriority id usable tried).1 = chosen ∧
      (∀ j ∈ before, f.priorityOf id j < f.priorityOf id chosen) ∧
      (∀ j ∈ after, f.priorityOf id j ≤ f.priorityOf id chosen) ∧
      ((w.ask f .byPriority id usable tried).2.1 = true ↔ ∃ j ∈ after, f.priorityOf id j = f.priorityOf id chosen) := by
  have hfamilies := map_untried (usable.map (viewFamily f id)) tried.reverse
  rw [map_family_views] at hfamilies
  simp only [List.mem_reverse] at hfamilies
  have hne : untried (usable.map (viewFamily f id)) tried.reverse ≠ [] := by
    obtain ⟨i, hi, hnew⟩ := h
    have hmem : i ∈ usable.filter (· ∉ tried) := List.mem_filter.mpr ⟨hi, decide_eq_true hnew⟩
    rw [← hfamilies] at hmem
    exact List.ne_nil_of_mem (List.mem_map.mp hmem).choose_spec.1
  obtain ⟨before, best, after, hsplit, hbefore, hafter, hbest⟩ := Selector.best?_spec _ hne
  have hmem : ∀ x ∈ before ++ best :: after, (usable.map (viewFamily f id))[x.2]? = some x.1 ∧ x.1.family ∉ tried ∧
      x.1.priority = f.priorityOf id x.1.family := hsplit ▸ mem_untried_views
  obtain ⟨hget, hnew, hpriority⟩ := hmem best (List.mem_append_right _ List.mem_cons_self)
  have hask : w.ask f .byPriority id usable tried =
      (best.1.family, decide (after.countP (fun x => x.1.priority = best.1.priority) > 0), w) := by
    simp [ask, Selector.byPriority, Selector.stateless, hbest, hget, hnew, Option.filter]
  rw [hask]
  rw [hsplit, List.map_append, List.map_cons] at hfamilies
  refine ⟨_, best.1.family, _, hfamilies.symm, rfl, ?_, ?_, ?_⟩
  · refine List.forall_mem_map.mpr fun x hx => ?_
    rw [← hpriority, ← (hmem x (List.mem_append_left _ hx)).2.2]
    exact hbefore x hx
  · refine List.forall_mem_map.mpr fun x hx => ?_
    rw [← hpriority, ← (hmem x (List.mem_append_right _ (List.mem_cons_of_mem _ hx))).2.2]
    exact hafter x hx
  · have hequal : ∀ x ∈ after, x.1.priority = best.1.priority ↔
        f.priorityOf id x.1.family = f.priorityOf id best.1.family := fun x hx => by
      rw [← hpriority, ← (hmem x (List.mem_append_right _ (List.mem_cons_of_mem _ hx))).2.2]
    simp only [decide_eq_true_eq, gt_iff_lt, List.countP_pos_iff, List.mem_map, exists_exists_and_eq_and]
    exact exists_congr fun x => and_congr_right fun hx => hequal x hx

/-- Asked for one of the admissible families, the selector answers with the first in the ranking that was not tried. -/
theorem ask_admissible (f : Forest α) (w : Walk α Unit) (id : NodeId) (h : ∃ i ∈ f.admissible id, i ∉ tried) :
    ∃ chosen ∈ f.admissible id, chosen ∉ tried ∧ (w.ask f .byPriority id (f.admissible id) tried).1 = chosen ∧
      (∀ j ∈ f.admissible id, j ∉ tried → j ≠ chosen → f.Before id chosen j) ∧
      ((w.ask f .byPriority id (f.admissible id) tried).2.1 = true ↔
        ∃ j ∈ f.admissible id, j ∉ chosen :: tried ∧ f.priorityOf id j = f.priorityOf id chosen) := by
  obtain ⟨before, chosen, after, hsplit, hchosen, hbefore, hafter, hties⟩ := ask_byPriority f w id h
  have hsorted := (f.pairwise_admissible id).filter (· ∉ tried)
  rw [hsplit, List.pairwise_append, List.pairwise_cons] at hsorted
  have hmem : ∀ {j}, j ∈ f.admissible id ∧ j ∉ tried ↔ j ∈ before ∨ j = chosen ∨ j ∈ after := by
    intro j
    rw [← List.mem_cons, ← List.mem_append, ← hsplit, List.mem_filter, decide_eq_true_eq]
  obtain ⟨hadmissible, hnew⟩ := hmem.mpr (.inr (.inl rfl))
  refine ⟨chosen, hadmissible, hnew, hchosen, fun j hj htried hne => ?_, hties.trans ⟨?_, ?_⟩⟩
  · rcases hmem.mp ⟨hj, htried⟩ with hj | hj | hj
    · exact .inl (hbefore j hj)
    · exact absurd hj hne
    · exact (lt_or_eq_of_le (hafter j hj)).imp_right fun heq => ⟨heq, hsorted.2.1.1 j hj⟩
  · rintro ⟨j, hj, hequal⟩
    obtain ⟨hj', htried⟩ := hmem.mpr (.inr (.inr hj))
    refine ⟨j, hj', ?_, hequal⟩
    rw [List.mem_cons, not_or]
    exact ⟨(hsorted.2.1.1 j hj).ne', htried⟩
  · rintro ⟨j, hj, htried, hequal⟩
    rw [List.mem_cons, not_or] at htried
    rcases hmem.mp ⟨hj, htried.2⟩ with hj | hj | hj
    · exact absurd hequal (hbefore j hj).ne
    · exact absurd hj htried.1
    · exact ⟨j, hj, hequal⟩

end Walk

/-! ## Choices by priority -/

/-- The families were tried in the order of the ranking, the choice counts as arbitrary if one of the same priority was left,
and it is made anew only if some family is left. -/
structure Choice.Graded (f : Forest α) (c : Choice) : Prop where
  candidates : c.candidates = (f.admissible c.node).length
  ranked : c.tried.reverse <+: f.ranked c.node
  ambiguous : c.ambiguous = true ↔
    ∃ j ∈ f.admissible c.node, j ∉ c.tried ∧ f.priorityOf c.node j = f.priorityOf c.node c.chosen
  unexhausted : c.reselect = true → c.isExhausted = false

theorem Choice.Graded.renew {f : Forest α} {c : Choice} (h : c.Graded f) (hopen : c.isExhausted = false) :
    c.renew.Graded f :=
  ⟨h.candidates, h.ranked, h.ambiguous, fun _ => hopen⟩

namespace Forest

variable {f : Forest α} {tried : List Nat}

/-- If the families tried come first in the ranking, the one that is before all others comes next. -/
theorem ranked_next (h : tried.reverse <+: f.ranked id) (hadmissible : i ∈ f.admissible id) (hnew : i ∉ tried)
    (hbefore : ∀ j ∈ f.admissible id, j ∉ tried → j ≠ i → f.Before id i j) : (i :: tried).reverse <+: f.ranked id := by
  obtain ⟨rest, hrest⟩ := h
  have hpairwise := f.pairwise_ranked id
  have hnodup := f.nodup_ranked id
  have hi : i ∈ rest := by
    have hmem := (f.perm_ranked id).mem_iff.mpr hadmissible
    rw [← hrest, List.mem_append, List.mem_reverse] at hmem
    exact hmem.resolve_left hnew
  obtain ⟨next, rest, rfl⟩ := List.exists_cons_of_ne_nil (List.ne_nil_of_mem hi)
  have hnext : next ∈ f.ranked id ∧ next ∉ tried := by
    rw [← hrest, List.nodup_append] at hnodup
    rw [← hrest]
    refine ⟨List.mem_append_right _ List.mem_cons_self, fun htried => ?_⟩
    exact hnodup.2.2 next (List.mem_reverse.mpr htried) next List.mem_cons_self rfl
  obtain rfl : i = next := by
    by_contra hne
    have hafter := hbefore next ((f.perm_ranked id).mem_iff.mp hnext.1) hnext.2 (Ne.symm hne)
    rw [← hrest, List.pairwise_append, List.pairwise_cons] at hpairwise
    exact hafter.asymm (hpairwise.2.1.1 i ((List.mem_cons.mp hi).resolve_left hne))
  exact ⟨rest, by simp [← hrest]⟩

end Forest

namespace Walk

variable {f : Forest α} {w : Walk α Unit}

/-- A choice by priority from a graded plan is graded. -/
theorem makeChoice_graded (hne : f.admissible id ≠ []) (hplan : ∀ c ∈ w.plan, c.Graded f) :
    (w.makeChoice f .byPriority id (f.admissible id)).1.Graded f := by
  unfold makeChoice
  dsimp only
  split
  · rename_i choice hchoice
    obtain ⟨hplanned, -⟩ := Option.filter_eq_some_iff.mp hchoice
    exact hplan choice (List.mem_of_mem_head? (Option.filter_eq_some_iff.mp hplanned).1)
  · rename_i hnone
    generalize hplanned : w.plan.head?.filter (·.node == id) = planned at hnone
    -- what was tried comes first in the ranking, and is not everything
    have htried : ((planned.map Choice.tried).getD []).reverse <+: f.ranked id ∧
        ∃ i ∈ f.admissible id, i ∉ (planned.map Choice.tried).getD [] := by
      cases planned with
      | none => exact ⟨List.nil_prefix, List.exists_mem_of_ne_nil _ hne |>.imp fun i hi => ⟨hi, List.not_mem_nil⟩⟩
      | some c =>
        obtain ⟨hhead, hnode⟩ := Option.filter_eq_some_iff.mp hplanned
        have hc := hplan c (List.mem_of_mem_head? hhead)
        have hreselect : c.reselect = true := by simpa [Option.filter] using hnone
        obtain rfl := beq_iff_eq.mp hnode
        refine ⟨hc.ranked, exists_untried (f.nodup_admissible _) ?_⟩
        exact hc.candidates ▸ Nat.not_le.mp (of_decide_eq_false (hc.unexhausted hreselect))
    obtain ⟨hfirst, huntried⟩ := htried
    obtain ⟨chosen, hadmissible, hnew, hchosen, hbefore, hties⟩ := ask_admissible f w id huntried
    rw [hchosen]
    exact ⟨rfl, Forest.ranked_next hfirst hadmissible hnew hbefore, hties, fun hreselect => by cases hreselect⟩

end Walk
end ContextFree
