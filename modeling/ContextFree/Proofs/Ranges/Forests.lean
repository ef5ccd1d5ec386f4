-- SUMMARY: Every index that finishing uses is in range, and so is every index that a finished forest holds.
import ContextFree.Proofs.Forest.Storage
import ContextFree.Proofs.Ranges.Tables
import ContextFree.Proofs.Walk.ParseTrees

/-!
# Ranges of forests

Trimming and ordering leave as many nodes as there were, and families name no child that they did not name before. The survey
goes from the roots to children, so it comes to nodes only, and it keeps one mark for each. Every node that it is done
with gets a number below the number of nodes that stay, and so do the children of that node.
-/
namespace ContextFree

-- ---------------------------------------------------------------------------
-- The survey
-- ---------------------------------------------------------------------------

namespace Survey

variable {nodes : Array Node} {roots : List NodeId} {fuel : Nat} {id : NodeId} {marks : Array Mark}

/-- The survey visits a node that it has not seen, with these marks and with fuel for so many levels. -/
inductive Visits (nodes : Array Node) (roots : List NodeId) : Nat → NodeId → Array Mark → Prop where
  | root {done rest : List NodeId} {root : NodeId} {marks : Array Mark} :
      roots = done ++ root :: rest →
      marks = done.foldl (see (visit nodes (nodes.size + 1))) (Array.replicate nodes.size .unseen) →
      marks.getD root .unseen = .unseen → Visits nodes roots (nodes.size + 1) root marks
  | child {fuel : Nat} {id child : NodeId} {marks marks' : Array Mark} {done rest : List NodeId} :
      Visits nodes roots (fuel + 1) id marks →
      (nodes.getD id default).families.toList.zipIdx.flatMap (·.1.children) = done ++ child :: rest →
      marks' = done.foldl (see (visit nodes fuel)) (marks.setIfInBounds id .onPath) →
      marks'.getD child .unseen = .unseen → Visits nodes roots fuel child marks'

theorem Visits.unseen (h : Visits nodes roots fuel id marks) : marks.getD id .unseen = .unseen := by
  cases h with
  | root _ _ hunseen => exact hunseen
  | child _ _ _ hunseen => exact hunseen

/-- The survey comes to nodes below the roots, and there is always fuel for what it has not seen. -/
theorem Visits.fueled (hS : Downward nodes (Reachable nodes roots)) (h : Visits nodes roots fuel id marks) :
    Reachable nodes roots id ∧ Fueled nodes fuel marks := by
  induction h with
  | @root done rest root marks hroots hmarks _ =>
    have hmem : ∀ id ∈ done, Reachable nodes roots id := fun id hid => .root (by simp [hroots, hid])
    refine ⟨.root (by simp [hroots]), ?_⟩
    rw [hmarks]
    exact (fueled_start nodes).advance
      (Advances.sweep (fun hid hsize => advances_visit hS _ hid hsize) hmem Array.size_replicate)
  | @child fuel id child marks marks' done rest hvisits hchildren hmarks _ ih =>
    obtain ⟨hid, hfuel⟩ := ih
    -- one level is used up, and there is one unseen node less
    obtain ⟨left, hleft, hentered⟩ := hfuel.enter (hS.lt hid) hvisits.unseen
    obtain rfl := Nat.succ.inj hleft
    have hmem := hS.children hid
    rw [hchildren] at hmem
    obtain ⟨hdone, hrest⟩ := List.forall_mem_append.mp hmem
    refine ⟨hrest child List.mem_cons_self, ?_⟩
    rw [hmarks]
    exact hentered.advance (Advances.sweep (fun hid hsize => advances_visit hS _ hid hsize) hdone hentered.size_eq)

theorem Visits.inRange (hS : Downward nodes (Reachable nodes roots)) (h : Visits nodes roots fuel id marks) :
    id < nodes.size ∧ marks.size = nodes.size ∧ 0 < fuel := by
  obtain ⟨hid, hfuel⟩ := h.fueled hS
  obtain ⟨left, rfl, -⟩ := hfuel.enter (hS.lt hid) h.unseen
  exact ⟨hS.lt hid, hfuel.size_eq, Nat.succ_pos left⟩

end Survey

theorem Compact.size_renumbering (marks : Array Survey.Mark) : (renumbering marks).size = marks.size := by
  obtain ⟨numbers, hfold, hsize, -⟩ := assign_range marks marks.size
  rw [renumbering_eq, hfold, hsize]

-- ---------------------------------------------------------------------------
-- Finishing
-- ---------------------------------------------------------------------------

namespace Forest

variable {α : Type} {p : Prepared α} {t : NodeTable} {roots : List NodeId} {id : NodeId}

/-- What the steps of finishing name is in range. Up to compacting there are as many nodes, marks and numbers as the table has
nodes, and children and roots are among them. What the survey is done with gets the number of a node that stays. -/
structure FinishesInRange (p : Prepared α) (t : NodeTable) (roots : List NodeId) : Prop where
  root_lt : ∀ root ∈ roots, root < t.size
  orderedRoot_lt : ∀ root ∈ Order.orderRoots (ordered p t) roots, root < t.size
  pure_lt : ∀ id ∈ Trim.pureNodes p t.nodes, id < t.size
  nodes : ∀ nodes ∈ [t.nodes, Trim.trim p t.nodes, ordered p t], nodes.size = t.size ∧
    ∀ id < t.size, ∀ family ∈ (nodes.getD id default).families, ∀ child ∈ family.children, child < t.size
  visits : ∀ fuel id marks, Survey.Visits (ordered p t) (Order.orderRoots (ordered p t) roots) fuel id marks →
    id < t.size ∧ marks.size = t.size ∧ 0 < fuel
  marks_size : (surveyed p t roots).size = t.size
  numbers_size : (Compact.renumbering (surveyed p t roots)).size = t.size
  keptFacts_size : (Compact.keptFacts (surveyed p t roots)).size = (Compact.keptNodes (ordered p t) (surveyed p t roots)).size
  number_lt : ∀ id facts, (surveyed p t roots).getD id .unseen = .done facts →
    (Compact.renumbering (surveyed p t roots)).getD id id < (Compact.keptNodes (ordered p t) (surveyed p t roots)).size
  child_done : ∀ id facts, (surveyed p t roots).getD id .unseen = .done facts →
    ∀ family ∈ ((ordered p t).getD id default).families, ∀ child ∈ family.children,
      ∃ facts, (surveyed p t roots).getD child .unseen = .done facts

theorem finishesInRange (ht : t.Rooted roots) : FinishesInRange p t roots := by
  have hsize : (surveyed p t roots).size = t.size := (size_surveyed ht).trans (size_ordered p t)
  -- what is kept does not depend on the tokens
  have hkept : (finish p t roots #[] 0).facts.size = (finish p t roots #[] 0).size := facts_size_finish ht
  have hordered : ∀ {id family child}, family ∈ ((ordered p t).getD id default).families → child ∈ family.children →
      child < t.size := by
    intro id family child hfamily hchild
    obtain ⟨family', hfamily', hsub⟩ := exists_family_of_ordered hfamily
    exact ht.consistent.child_lt hfamily' (hsub child hchild)
  have htrimmed : ∀ {id family child}, family ∈ ((Trim.trim p t.nodes).getD id default).families →
      child ∈ family.children → child < t.size :=
    fun hfamily => hordered (Order.mem_families_orderFamilies.mpr hfamily)
  refine
    { root_lt := ht.root_lt
      orderedRoot_lt := fun root hroot => ht.root_lt root (Order.mem_orderRoots.mp hroot)
      pure_lt := fun id hid => ?_
      nodes := fun nodes hnodes => ?_
      visits := fun fuel id marks hvisits => size_ordered p t ▸ hvisits.inRange (downward_kept ht)
      marks_size := hsize
      numbers_size := (Compact.size_renumbering _).trans hsize
      keptFacts_size := hkept
      number_lt := fun id facts hdone => ?_
      child_done := fun id facts hdone family hfamily child hchild => ?_ }
  · obtain ⟨-, -, hfamilies, -⟩ := Trim.mem_pureNodes.mp hid
    by_contra hge
    rw [families_getD_of_le (Nat.not_lt.mp hge)] at hfamilies
    simp at hfamilies
  · simp only [List.mem_cons, List.not_mem_nil, or_false] at hnodes
    rcases hnodes with rfl | rfl | rfl
    · exact ⟨rfl, fun id _ family hfamily child hchild => ht.consistent.child_lt hfamily hchild⟩
    · exact ⟨Trim.size_trim p t.nodes, fun id _ family hfamily child hchild => htrimmed hfamily hchild⟩
    · exact ⟨size_ordered p t, fun id _ family hfamily child hchild => hordered hfamily hchild⟩
  · rw [Compact.getD_renumbering hdone]
    have hlt : finishedId p t roots id < (finish p t roots #[] 0).size :=
      finishedId_lt ht ((done_iff_kept ht).mp ⟨facts, hdone⟩)
    exact hlt
  · have hkept : Kept p t roots id := (done_iff_kept ht).mp ⟨facts, hdone⟩
    exact (done_iff_kept ht).mpr (.child hkept hfamily hchild)

-- ---------------------------------------------------------------------------
-- Finished forests
-- ---------------------------------------------------------------------------

/-- Roots and loop families are nodes and families of the forest, there are facts for every node, and every node lies inside
the tokens of the forest. -/
structure InRange (f : Forest α) : Prop where
  root_lt : ∀ root ∈ f.roots, root < f.size
  facts_size : f.facts.size = f.size
  table : f.table.InRange f.grammar f.tokens.size
  loop_lt : ∀ id < f.size, ∀ i ∈ (f.factsOf id).loops, i < (f.node id).families.size

/-- A forest that is exact over some tokens is in range of its own. -/
theorem Exact.inRange [DecidableEq α] {f : Forest α} {tokens : Array α} {trimmed : Identity → Prop} (hrange : f.grammar.InRange)
    (h : f.Exact tokens trimmed) (hf : f.WellFormed) (hcoherent : f.table.Coherent) : f.InRange where
  root_lt := hf.root_lt
  facts_size := hf.facts_size
  table :=
    { find_lt := fun x id hfind => ((hcoherent.find_iff x id).mp hfind).1
      child_lt := hcoherent.child_lt
      label := fun id hid => Derived.hasLabel h.regular hrange (h.derived hid)
      left_le := fun id hid => Derived.le (h.derived hid)
      right_le := fun id hid => h.right_le hid }
  loop_lt id hid i hi := by
    obtain ⟨family, hget, -⟩ := h.exists_loop hid hi
    exact (Array.getElem?_eq_some_iff.mp hget).1

end Forest
end ContextFree
