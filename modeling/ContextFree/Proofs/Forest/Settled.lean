-- SUMMARY: Finished forests: their facts are what a survey finds, so counts follow a recurrence and no cycle is without a loop.
import ContextFree.Proofs.Forest.Finishing
import ContextFree.Proofs.Forest.Grounding

/-!
# Settled forests

Finishing a table keeps, under new numbers, what the survey found: surveying the finished forest would find the same facts
again. `Forest.Settled` says this of a forest without mention of the table that it came from. The facts about a node of a settled
forest follow from those of the children of its forward families, and forward families never lead back.
-/
namespace ContextFree

variable {α : Type}

/-! ## Renumbering -/

namespace Survey

variable {R : NodeId → NodeId → Prop} {nodes nodes' : Array Node} {marks marks' : Array Mark} {a b c d : NodeId}
  {roots roots' : List NodeId}

/-- What can be reached in one array can be reached in an array that is alike. -/
theorem Alike.reachable (h : Alike R nodes nodes') (hroots : ∀ root ∈ roots, ∃ root' ∈ roots', R root root')
    (hreach : Reachable nodes roots a) (hR : R a b) : Reachable nodes' roots' b := by
  induction hreach generalizing b with
  | root hmem =>
    obtain ⟨root', hmem', hR'⟩ := hroots _ hmem
    obtain rfl := (h.unique hR hR').mp rfl
    exact .root hmem'
  | @child a child family hreach hfamily hchild ih =>
    have hexists : ∀ {a}, Reachable nodes roots a → ∃ b, R a b := by
      intro a hreach
      induction hreach with
      | root hmem =>
        obtain ⟨root', -, hR'⟩ := hroots _ hmem
        exact ⟨root', hR'⟩
      | child _ hfamily hchild ih => exact h.downward.child ih hfamily hchild
    obtain ⟨a', ha⟩ := hexists hreach
    obtain ⟨family', hfamily', halike⟩ := exists_of_mem_forall₂ (h.families ha) (Array.mem_toList_iff.mpr hfamily)
    obtain ⟨child', hchild', hR'⟩ := exists_of_mem_forall₂ halike hchild
    obtain rfl := (h.unique hR hR').mp rfl
    exact .child (ih ha) (Array.mem_toList_iff.mp hfamily') hchild'

end Survey

namespace Forest

open Survey (Mark Grounded)

/-- The facts about the nodes of a forest as marks. -/
def marks (f : Forest α) : Array Mark :=
  f.facts.map Mark.done

@[simp] theorem factsOf_marks (f : Forest α) (id : NodeId) : Survey.factsOf f.marks id = f.factsOf id := by
  by_cases hlt : id < f.facts.size
  · simp [Survey.factsOf, marks, Forest.factsOf, Array.getD_eq_getD_getElem?, hlt, Mark.facts?]
  · simp [Survey.factsOf, marks, Forest.factsOf, Array.getD_eq_getD_getElem?, hlt, Mark.facts?]

theorem factsOf_of_marks {f : Forest α} {id : NodeId} {facts : Facts} (h : f.marks.getD id .unseen = .done facts) :
    f.factsOf id = facts := by
  rw [← factsOf_marks, Survey.factsOf, h]
  rfl

variable {p : Prepared α} {t : NodeTable} {roots : List NodeId} {tokens : Array α} {offset : Nat}

/-- A finished forest is its table, trimmed, ordered and renumbered. -/
theorem alike_finish (ht : t.Rooted roots) :
    Survey.Alike (fun a b => Kept p t roots a ∧ finishedId p t roots a = b) (ordered p t)
      (finish p t roots tokens offset).table.nodes where
  lt := by
    rintro a _ ⟨ha, rfl⟩
    exact ⟨(downward_kept ht).lt ha, finishedId_lt ht ha⟩
  unique := by
    rintro a _ c _ ⟨ha, rfl⟩ ⟨hc, rfl⟩
    refine ⟨fun heq => heq ▸ rfl, fun heq => ?_⟩
    obtain ⟨_, hdone⟩ := (done_iff_kept ht).mpr ha
    obtain ⟨_, hdone'⟩ := (done_iff_kept ht).mpr hc
    have hnumber := Compact.kept_number hdone
    have heq : Compact.number (surveyed p t roots) a = Compact.number (surveyed p t roots) c := heq
    rw [heq, Compact.kept_number hdone'] at hnumber
    exact (Option.some.inj hnumber).symm
  identity := by
    rintro a _ ⟨ha, rfl⟩
    rw [identity_ordered]
    exact (identity_finish ht ha).symm
  families := by
    rintro a _ ⟨ha, rfl⟩
    have hnode : (finish p t roots tokens offset).table.nodes.getD (finishedId p t roots a) default = _ :=
      node_finish ht ha
    rw [hnode, Compact.renumbered, Array.toList_map, List.forall₂_map_right_iff, List.forall₂_same]
    intro family hfamily
    rw [Survey.FamilyAlike, Family.children_map, List.forall₂_map_right_iff, List.forall₂_same]
    intro child hchild
    have hkept : Kept p t roots child := .child ha (Array.mem_toList_iff.mp hfamily) hchild
    obtain ⟨_, hdone⟩ := (done_iff_kept ht).mpr hkept
    exact ⟨hkept, (Compact.getD_renumbering hdone).symm⟩

theorem marks_finish (ht : t.Rooted roots) {a : NodeId} (ha : Kept p t roots a) :
    (surveyed p t roots).getD a .unseen = (finish p t roots tokens offset).marks.getD (finishedId p t roots a) .unseen := by
  obtain ⟨facts, hdone⟩ := (done_iff_kept ht).mpr ha
  have hfacts : (finish p t roots tokens offset).facts[finishedId p t roots a]? = some facts := by
    rw [← Array.getElem?_toList, facts_finish, List.getElem?_map, finishedId, Compact.kept_number hdone, Option.map_some,
      Survey.factsOf, hdone]
    rfl
  rw [hdone, marks, Array.getD_eq_getD_getElem?, Array.getElem?_map, hfacts]
  rfl

theorem reachable_finish (ht : t.Rooted roots) {n : NodeId} (hn : n < (finish p t roots tokens offset).size) :
    Reachable (finish p t roots tokens offset).table.nodes (finish p t roots tokens offset).roots n := by
  obtain ⟨a, ha, rfl⟩ := exists_kept ht hn
  refine (alike_finish ht).reachable (fun root hroot => ?_) ha ⟨ha, rfl⟩
  refine ⟨finishedId p t roots root, ?_, .root hroot, rfl⟩
  rw [roots_finish ht]
  exact List.mem_map_of_mem hroot

theorem downward_finish (ht : t.Rooted roots) :
    Survey.Downward (finish p t roots tokens offset).table.nodes
      (Reachable (finish p t roots tokens offset).table.nodes (finish p t roots tokens offset).roots) where
  lt hreach := by
    induction hreach with
    | root hmem =>
      rw [roots_finish ht] at hmem
      obtain ⟨root, hroot, rfl⟩ := List.mem_map.mp hmem
      exact finishedId_lt ht (.root hroot)
    | child _ hfamily hchild ih =>
      obtain ⟨a, ha, rfl⟩ := exists_kept ht ih
      exact (alike_finish ht).symm.downward.lt ((alike_finish ht).symm.downward.child ⟨a, ha, rfl⟩ hfamily hchild)
  child hid hfamily hchild := .child hid hfamily hchild

/-- The facts of a finished forest are what a survey of the forest itself finds out. -/
theorem marks_finish_eq (ht : t.Rooted roots) :
    (finish p t roots tokens offset).marks =
      Survey.run (finish p t roots tokens offset).table.nodes (finish p t roots tokens offset).roots := by
  have hroots : List.Forall₂ (fun a b => Kept p t roots a ∧ finishedId p t roots a = b)
      (Order.orderRoots (ordered p t) roots) (finish p t roots tokens offset).roots := by
    rw [roots_finish ht, List.forall₂_map_right_iff, List.forall₂_same]
    exact fun root hroot => ⟨.root hroot, rfl⟩
  have hsize : (finish p t roots tokens offset).marks.size = (finish p t roots tokens offset).size := by
    rw [marks, Array.size_map, ← Array.length_toList, facts_finish, List.length_map, size_finish ht]
  have hsize' : (Survey.run (finish p t roots tokens offset).table.nodes (finish p t roots tokens offset).roots).size =
      (finish p t roots tokens offset).size := Survey.size_run (downward_finish ht)
  apply Array.toList_inj.mp
  rw [toList_eq_map_getD _ Mark.unseen, toList_eq_map_getD (Survey.run _ _) Mark.unseen, hsize, hsize']
  refine List.map_congr_left fun n hn => ?_
  obtain ⟨a, ha, rfl⟩ := exists_kept ht (List.mem_range.mp hn)
  rw [← marks_finish ht ha]
  exact Survey.run_alike (alike_finish ht) hroots ⟨ha, rfl⟩

end Forest

/-! ## Settled forests -/

namespace Forest

/-- Every node is below a root, what is below a root is a node, and the facts are those that a survey finds out. -/
structure Settled (f : Forest α) : Prop where
  reachable : ∀ {id}, id < f.size → Reachable f.table.nodes f.roots id
  downward : Survey.Downward f.table.nodes (Reachable f.table.nodes f.roots)
  surveyed : f.marks = Survey.run f.table.nodes f.roots

/-- Finishing settles a forest. -/
theorem settled_finish {p : Prepared α} {t : NodeTable} {roots : List NodeId} (ht : t.Rooted roots) (tokens : Array α)
    (offset : Nat) : (finish p t roots tokens offset).Settled :=
  ⟨reachable_finish ht, downward_finish ht, marks_finish_eq ht⟩

variable {id child a b : NodeId} {family : Family}

/-- The families of a node that are no loops. -/
def forward (f : Forest α) (id : NodeId) : List Family :=
  Survey.forwardFamilies (f.node id) (f.factsOf id).loops

theorem mem_forward {f : Forest α} :
    family ∈ f.forward id ↔ ∃ i, (f.node id).families[i]? = some family ∧ i ∉ (f.factsOf id).loops :=
  Survey.mem_forwardFamilies

theorem mem_families_of_forward {f : Forest α} (h : family ∈ f.forward id) : family ∈ (f.node id).families := by
  obtain ⟨i, hget, -⟩ := mem_forward.mp h
  exact Array.mem_of_getElem? hget

/-- Without loops all families are forward. -/
theorem forward_of_loops {f : Forest α} (h : (f.factsOf id).loops = []) :
    f.forward id = (f.node id).families.toList := by
  simp [forward, Survey.forwardFamilies, h]

/-- The child is named by a forward family. -/
def Leads (f : Forest α) (a b : NodeId) : Prop :=
  ∃ family ∈ f.forward a, b ∈ family.children

namespace Settled

variable {f : Forest α}

theorem child_lt (h : f.Settled) (hid : id < f.size) (hfamily : family ∈ (f.node id).families)
    (hchild : child ∈ family.children) : child < f.size :=
  h.downward.lt (.child (h.reachable hid) hfamily hchild)

theorem facts_size (h : f.Settled) : f.facts.size = f.size := by
  have hsize : f.marks.size = f.facts.size := Array.size_map
  rw [← hsize, h.surveyed]
  exact Survey.size_run h.downward

/-- The facts about the nodes are grounded in the forest. -/
theorem grounded (h : f.Settled) (hid : id < f.size) : Survey.Grounded f.table.nodes f.marks id := by
  rw [h.surveyed]
  exact Survey.grounded_run h.downward (h.reachable hid)

theorem lt_of_reachable (h : f.Settled) (ha : a < f.size) (hreach : Reachable f.table.nodes [a] b) :
    b < f.size := by
  induction hreach with
  | root hmem => exact List.mem_singleton.mp hmem ▸ ha
  | child _ hfamily hchild ih => exact h.child_lt ih hfamily hchild

/-! ## Facts of a settled forest -/

/-- The facts about a node are settled from those about the children of its forward families. -/
theorem facts_eq (h : f.Settled) (hid : id < f.size) :
    f.factsOf id = Survey.settle f.table.nodes f.marks (f.node id) (f.factsOf id).loops := by
  cases h.grounded hid with
  | intro hdone hfacts =>
    rw [factsOf_of_marks hdone]
    exact hfacts

theorem factsOf_mem (h : f.Settled) (hid : id < f.size) : f.factsOf id ∈ f.facts := by
  obtain ⟨facts, hdone⟩ := (h.grounded hid).done
  rw [factsOf_of_marks hdone]
  rw [marks, Array.getD_eq_getD_getElem?, Array.getElem?_map] at hdone
  cases hget : f.facts[id]? with
  | none => rw [hget] at hdone; cases hdone
  | some facts' =>
    rw [hget] at hdone
    cases hdone
    exact Array.mem_of_getElem? hget

/-- A loop family has a child from which its node can be reached. -/
theorem exists_loop (h : f.Settled) (hid : id < f.size) {i : Nat} (hi : i ∈ (f.factsOf id).loops) :
    ∃ family, (f.node id).families[i]? = some family ∧
      ∃ child ∈ family.children, Reachable f.table.nodes [child] id := by
  cases h.grounded hid with
  | intro hdone _ hback =>
    rw [factsOf_of_marks hdone] at hi
    exact hback i hi

theorem loops_of_empty (h : f.Settled) (hid : id < f.size) (hempty : (f.node id).families = #[]) :
    (f.factsOf id).loops = [] := by
  rw [List.eq_nil_iff_forall_not_mem]
  intro i hi
  obtain ⟨family, hget, -⟩ := h.exists_loop hid hi
  rw [hempty] at hget
  simp at hget

/-- Forward families are well founded: what holds of a node if it holds of the children of its forward families holds of
all nodes. -/
theorem forward_induction (h : f.Settled) {P : NodeId → Prop}
    (hstep : ∀ id, id < f.size → (∀ family ∈ f.forward id, ∀ child ∈ family.children, P child) → P id)
    (hid : id < f.size) : P id := by
  have hground := h.grounded hid
  induction hground with
  | @intro id facts hdone _ _ _ ih =>
    refine hstep id hid fun family hfamily child hchild => ?_
    have hmem := mem_families_of_forward hfamily
    rw [forward, factsOf_of_marks hdone] at hfamily
    exact ih family hfamily child hchild (h.child_lt hid hmem hchild)

theorem count_of_empty (h : f.Settled) (hid : id < f.size) (hempty : (f.node id).families = #[]) :
    f.count id = 1 := by
  rw [count, h.facts_eq hid, Survey.settle_count_of_empty hempty]

/-- A count is the sum over the forward families of the products over their children. A loop over no input adds one. -/
theorem count_eq (h : f.Settled) (hid : id < f.size) (hne : (f.node id).families ≠ #[]) :
    f.count id = ((f.forward id).map fun family => (family.children.map f.count).prod).sum +
      if (f.factsOf id).loops ≠ [] ∧ (f.node id).isEmpty = true then 1 else 0 := by
  have hcount : Survey.familyCount f.marks = fun family => (family.children.map f.count).prod := by
    funext family
    rw [Survey.familyCount_eq]
    simp only [factsOf_marks]
    rfl
  have hsettled : f.count id = (Survey.settle f.table.nodes f.marks (f.node id) (f.factsOf id).loops).count :=
    congrArg Facts.count (h.facts_eq hid)
  rw [hsettled, Survey.settle_count hne, hcount]
  rfl

theorem infinite_iff (h : f.Settled) (hid : id < f.size) :
    (f.factsOf id).infinite = true ↔ (f.factsOf id).loops ≠ [] ∨
      ∃ family ∈ f.forward id, ∃ child ∈ family.children, (f.factsOf child).infinite = true := by
  have hsettled : (f.factsOf id).infinite =
      (Survey.settle f.table.nodes f.marks (f.node id) (f.factsOf id).loops).infinite :=
    congrArg Facts.infinite (h.facts_eq hid)
  rw [hsettled, Survey.settle_infinite (h.loops_of_empty hid)]
  simp only [factsOf_marks]
  rfl

/-- Without a loop below a node, all its families are forward, and there is no loop below their children. -/
theorem loopless (h : f.Settled) (hid : id < f.size) (hfinite : (f.factsOf id).infinite = false) :
    (f.factsOf id).loops = [] ∧
      ∀ family ∈ (f.node id).families, ∀ child ∈ family.children, (f.factsOf child).infinite = false := by
  have hnone : ¬ ((f.factsOf id).infinite = true) := by simp [hfinite]
  rw [h.infinite_iff hid, not_or, not_not] at hnone
  refine ⟨hnone.1, fun family hfamily child hchild => ?_⟩
  by_contra hinfinite
  rw [Bool.not_eq_false] at hinfinite
  refine hnone.2 ⟨family, ?_, child, hchild, hinfinite⟩
  rw [forward_of_loops hnone.1]
  exact Array.mem_toList_iff.mpr hfamily

/-- A forest without loops has none below any node. -/
theorem infinite_of_isInfinite (h : f.Settled) (hfinite : f.isInfinite = false) (hid : id < f.size) :
    (f.factsOf id).infinite = false := by
  refine h.forward_induction (P := fun id => (f.factsOf id).infinite = false) (fun id hid ih => ?_) hid
  rw [← Bool.not_eq_true, h.infinite_iff hid, not_or]
  refine ⟨fun hloops => ?_, fun ⟨family, hfamily, child, hchild, hinfinite⟩ => ?_⟩
  · rw [isInfinite, Array.any_eq_false'] at hfinite
    exact hfinite _ (h.factsOf_mem hid) (by simpa using hloops)
  · rw [ih family hfamily child hchild] at hinfinite
    cases hinfinite

/-! ## Forward families -/

theorem lt_of_leads (h : f.Settled) (ha : a < f.size) (hleads : Relation.TransGen f.Leads a b) :
    b < f.size := by
  induction hleads with
  | single hstep =>
    obtain ⟨family, hfamily, hchild⟩ := hstep
    exact h.child_lt ha (mem_families_of_forward hfamily) hchild
  | tail _ hstep ih =>
    obtain ⟨family, hfamily, hchild⟩ := hstep
    exact h.child_lt ih (mem_families_of_forward hfamily) hchild

/-- Forward families do not lead back. -/
theorem leads_irrefl (h : f.Settled) (hid : id < f.size) : ¬ Relation.TransGen f.Leads id id := by
  refine h.forward_induction (P := fun id => ¬ Relation.TransGen f.Leads id id) (fun id hid ih hloop => ?_) hid
  obtain ⟨c, hstep, hback⟩ := Relation.TransGen.head'_iff.mp hloop
  obtain ⟨family, hfamily, hchild⟩ := hstep
  exact ih family hfamily c hchild (Relation.TransGen.tail' hback ⟨family, hfamily, hchild⟩)

end Settled
end Forest
end ContextFree
