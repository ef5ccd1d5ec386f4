-- SUMMARY: What a finished forest holds under the new numbers of its nodes.
import ContextFree.Forest.Finished
import ContextFree.Proofs.Forest.Trimming
import ContextFree.Proofs.Forest.Ordering
import ContextFree.Proofs.Forest.Compacting

/-!
# Finished forests

The nodes of a finished forest are the nodes that can be reached from the roots once the families are trimmed, each under
a new number. It keeps its identity and, by identity, its families in sorted order; the survey's facts about it come along.
-/
namespace ContextFree

/-- A consistent table with roots in it. -/
structure NodeTable.Rooted (t : NodeTable) (roots : List NodeId) : Prop where
  consistent : t.Consistent
  root_lt : ∀ root ∈ roots, root < t.size

namespace Forest

variable {α : Type} {p : Prepared α} {t : NodeTable} {roots : List NodeId} {id child : NodeId} {family : Family}

/-- The nodes of a table, trimmed and ordered. -/
def ordered (p : Prepared α) (t : NodeTable) : Array Node :=
  Order.orderFamilies (Trim.trim p t.nodes)

/-- The marks on them after the survey. -/
def surveyed (p : Prepared α) (t : NodeTable) (roots : List NodeId) : Array Survey.Mark :=
  Survey.run (ordered p t) (Order.orderRoots (ordered p t) roots)

/-- The nodes below the roots after trimming. -/
def Kept (p : Prepared α) (t : NodeTable) (roots : List NodeId) (id : NodeId) : Prop :=
  Reachable (ordered p t) (Order.orderRoots (ordered p t) roots) id

/-- The number of a node in the finished forest. -/
def finishedId (p : Prepared α) (t : NodeTable) (roots : List NodeId) (id : NodeId) : NodeId :=
  Compact.number (surveyed p t roots) id

/-! ## Ordered nodes -/

@[simp] theorem size_ordered (p : Prepared α) (t : NodeTable) : (ordered p t).size = t.size := by
  rw [ordered, Order.size_orderFamilies, Trim.size_trim]
  rfl

theorem identity_ordered (p : Prepared α) (t : NodeTable) (id : NodeId) :
    ((ordered p t).getD id default).identity = (t.node id).identity := by
  rw [ordered, Order.identity_orderFamilies, Trim.identity_trim]
  rfl

theorem exists_family_of_ordered (hfamily : family ∈ ((ordered p t).getD id default).families) :
    ∃ family' ∈ (t.node id).families, ∀ child ∈ family.children, child ∈ family'.children :=
  Trim.mem_families_trim (Order.mem_families_orderFamilies.mp hfamily)

theorem Kept.reachable (h : Kept p t roots id) : Reachable t.nodes roots id := by
  induction h with
  | root hmem => exact .root (Order.mem_orderRoots.mp hmem)
  | child _ hfamily hchild ih =>
    obtain ⟨family', hfamily', hsub⟩ := exists_family_of_ordered hfamily
    exact .child ih hfamily' (hsub _ hchild)

theorem reachable_lt (ht : t.Rooted roots) (h : Reachable t.nodes roots id) : id < t.size := by
  cases h with
  | root hmem => exact ht.root_lt id hmem
  | child _ hfamily hchild => exact ht.consistent.child_lt hfamily hchild

theorem downward_kept (ht : t.Rooted roots) : Survey.Downward (ordered p t) (Kept p t roots) where
  lt h := by
    rw [size_ordered]
    exact reachable_lt ht h.reachable
  child h hfamily hchild := .child h hfamily hchild

/-! ## The finished forest -/

variable {tokens : Array α} {offset : Nat}

theorem size_surveyed (ht : t.Rooted roots) : (surveyed p t roots).size = (ordered p t).size :=
  Survey.size_run (downward_kept ht)

theorem done_iff_kept (ht : t.Rooted roots) :
    (∃ facts, (surveyed p t roots).getD id .unseen = .done facts) ↔ Kept p t roots id :=
  Survey.done_iff_reachable (downward_kept ht)

theorem nodes_finish (ht : t.Rooted roots) :
    (finish p t roots tokens offset).table.nodes.toList = (Compact.kept (surveyed p t roots)).map fun id =>
      Compact.renumbered (surveyed p t roots) ((ordered p t).getD id default) :=
  Compact.toList_keptNodes (size_surveyed ht)

theorem size_finish (ht : t.Rooted roots) :
    (finish p t roots tokens offset).size = (Compact.kept (surveyed p t roots)).length := by
  rw [size, NodeTable.size, ← Array.length_toList, nodes_finish ht, List.length_map]

/-- Every node of the finished forest is a node that was kept. -/
theorem exists_kept (ht : t.Rooted roots) {n : NodeId}
    (hn : n < (finish p t roots tokens offset).size) : ∃ id, Kept p t roots id ∧ finishedId p t roots id = n := by
  rw [size_finish ht] at hn
  obtain ⟨hnumber, hdone⟩ := Compact.number_eq_of_kept (List.getElem?_eq_getElem hn)
  exact ⟨_, (done_iff_kept ht).mp hdone, hnumber⟩

theorem finishedId_lt (ht : t.Rooted roots) (hid : Kept p t roots id) :
    finishedId p t roots id < (finish p t roots tokens offset).size := by
  obtain ⟨facts, hdone⟩ := (done_iff_kept ht).mpr hid
  obtain ⟨hlt, -⟩ := List.getElem?_eq_some_iff.mp (Compact.kept_number hdone)
  rw [size_finish ht]
  exact hlt

theorem node_finish (ht : t.Rooted roots) (hid : Kept p t roots id) :
    (finish p t roots tokens offset).node (finishedId p t roots id) =
      Compact.renumbered (surveyed p t roots) ((ordered p t).getD id default) := by
  obtain ⟨facts, hdone⟩ := (done_iff_kept ht).mpr hid
  rw [node, NodeTable.node, Array.getD_eq_getD_getElem?, ← Array.getElem?_toList, nodes_finish ht,
    List.getElem?_map, finishedId, Compact.kept_number hdone]
  rfl

theorem identity_finish (ht : t.Rooted roots) (hid : Kept p t roots id) :
    ((finish p t roots tokens offset).node (finishedId p t roots id)).identity = (t.node id).identity := by
  rw [node_finish ht hid, ← identity_ordered p t id]
  rfl

theorem facts_finish : (finish p t roots tokens offset).facts.toList =
    (Compact.kept (surveyed p t roots)).map (Survey.factsOf (surveyed p t roots)) :=
  Compact.toList_keptFacts _

theorem factsOf_finish (ht : t.Rooted roots) (hid : Kept p t roots id) :
    (finish p t roots tokens offset).factsOf (finishedId p t roots id) = Survey.factsOf (surveyed p t roots) id := by
  obtain ⟨facts, hdone⟩ := (done_iff_kept ht).mpr hid
  rw [factsOf, Array.getD_eq_getD_getElem?, ← Array.getElem?_toList, facts_finish, List.getElem?_map, finishedId,
    Compact.kept_number hdone]
  rfl

theorem any_facts_finish (ht : t.Rooted roots) {test : Facts → Bool} :
    (finish p t roots tokens offset).facts.any test = true ↔
      ∃ id, Kept p t roots id ∧ test (Survey.factsOf (surveyed p t roots) id) = true := by
  rw [← Array.any_toList, facts_finish, List.any_map, List.any_eq_true]
  exact exists_congr fun id => and_congr_left' (Compact.mem_kept.trans (done_iff_kept ht))

/-- A family that is kept names the children that it named before. -/
theorem familyKeys_finish (ht : t.Rooted roots) (hid : Kept p t roots id) :
    familyKeys (finish p t roots tokens offset).table.nodes (finishedId p t roots id) = familyKeys (ordered p t) id := by
  have hnode : (finish p t roots tokens offset).table.nodes.getD (finishedId p t roots id) default = _ :=
    node_finish ht hid
  simp only [familyKeys, hnode, Compact.renumbered, Array.toList_map, List.map_map]
  apply List.map_congr_left
  intro family hfamily
  simp only [Function.comp, Order.familyKey, Family.children_map, List.map_map]
  apply List.map_congr_left
  intro child hchild
  have hkept : Kept p t roots child := .child hid (Array.mem_toList_iff.mp hfamily) hchild
  obtain ⟨facts, hdone⟩ := (done_iff_kept ht).mpr hkept
  have hnumber : (Compact.renumbering (surveyed p t roots)).getD child child = finishedId p t roots child :=
    Compact.getD_renumbering hdone
  simp only [Function.comp, hnumber, identity_ordered]
  exact identity_finish ht hkept

theorem roots_finish (ht : t.Rooted roots) :
    (finish p t roots tokens offset).roots =
      (Order.orderRoots (ordered p t) roots).map (finishedId p t roots) := by
  apply List.map_congr_left
  intro root hroot
  obtain ⟨facts, hdone⟩ := (done_iff_kept ht).mpr (.root hroot)
  exact Compact.getD_renumbering hdone

end Forest
end ContextFree
