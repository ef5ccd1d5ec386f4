-- SUMMARY: Sorting by a key: the keys come out in an order that depends on them alone.
import ContextFree.Proofs.Forest.Nodes
import Mathlib.Data.List.Sort

/-!
# Sorted families

Sorting rearranges. Keys are ordered totally and equal keys are the same, so the sorted keys depend only on which keys there
are and how often. Families that are not told apart by their keys have the same children.
-/
namespace ContextFree.Order

variable {β γ κ : Type}

/-! ## Sorting -/

theorem insertBy_eq (le : β → β → Bool) (x : β) (xs : List β) :
    insertBy le x xs = xs.orderedInsert (fun a b => le a b = true) x := by
  induction xs with
  | nil => rfl
  | cons y ys ih => simp only [insertBy, List.orderedInsert, ih]

theorem sortBy_eq (le : β → β → Bool) (xs : List β) :
    sortBy le xs = xs.insertionSort (fun a b => le a b = true) := by
  induction xs with
  | nil => rfl
  | cons x xs ih =>
    rw [List.insertionSort_cons, ← ih, ← insertBy_eq]
    rfl

variable [Ord κ]

theorem perm_sortByKey (key : β → κ) (xs : List β) : (sortByKey key xs).Perm xs := by
  rw [sortByKey, sortBy_eq]
  have hperm := (List.perm_insertionSort (fun a b : κ × β => (compare a.1 b.1).isLE = true)
    (xs.map fun x => (key x, x))).map (·.2)
  simpa [List.map_map, Function.comp_def] using hperm

/-- Sorting by a key sorts the keys. -/
theorem map_sortByKey (key : β → κ) (xs : List β) :
    (sortByKey key xs).map key = (xs.map key).insertionSort (fun a b => (compare a b).isLE = true) := by
  rw [sortByKey, sortBy_eq, List.map_map]
  generalize hpairs : (xs.map fun x => (key x, x)) = pairs
  have hfst : pairs.map (·.1) = xs.map key := by simp [← hpairs, Function.comp_def]
  have hkey : ∀ pair ∈ pairs, key pair.2 = pair.1 := by
    intro pair hpair
    rw [← hpairs] at hpair
    obtain ⟨x, -, rfl⟩ := List.mem_map.mp hpair
    rfl
  rw [← hfst, ← List.map_insertionSort (fun a b : κ × β => (compare a.1 b.1).isLE = true) _ _ _ fun a _ b _ => Iff.rfl]
  exact List.map_congr_left fun pair hpair => hkey pair ((List.mem_insertionSort _).mp hpair)

variable [Std.TransOrd κ] [Std.LawfulEqOrd κ]

/-- Lists with the same keys in any order have them in the same order once they are sorted. -/
theorem map_sortByKey_congr {key : β → κ} {key' : γ → κ} {xs : List β} {ys : List γ}
    (h : (xs.map key).Perm (ys.map key')) : (sortByKey key xs).map key = (sortByKey key' ys).map key' := by
  rw [map_sortByKey, map_sortByKey]
  let le : κ → κ → Prop := fun a b => (compare a b).isLE = true
  have : Std.Total le := ⟨fun a b => by
    cases hcompare : compare a b with
    | lt => exact .inl (by simp [le, hcompare])
    | eq => exact .inl (by simp [le, hcompare])
    | gt => exact .inr (by simp [le, Std.OrientedCmp.lt_of_gt hcompare])⟩
  have : IsTrans κ le := ⟨fun _ _ _ hab hbc => Std.TransCmp.isLE_trans hab hbc⟩
  have : Std.Antisymm le :=
    ⟨fun _ _ hab hba => Std.LawfulEqOrd.eq_of_compare (Std.OrientedCmp.isLE_antisymm hab hba)⟩
  have hperm := ((List.perm_insertionSort le (xs.map key)).trans h).trans (List.perm_insertionSort le _).symm
  exact hperm.eq_of_pairwise (fun _ _ _ _ => antisymm) (List.pairwise_insertionSort le _)
    (List.pairwise_insertionSort le _)

/-! ## Ordered nodes -/

variable {nodes nodes' : Array Node} {id id' : NodeId}

omit [Std.TransOrd κ] [Std.LawfulEqOrd κ] in
theorem sortByKey_of_length_le (key : β → κ) {xs : List β} (h : xs.length ≤ 1) : sortByKey key xs = xs := by
  match xs, h with
  | [], _  => rfl
  | [_], _ => rfl

theorem node_orderFamilies (nodes : Array Node) (id : NodeId) :
    (orderFamilies nodes).getD id default =
      ⟨(nodes.getD id default).identity,
        (sortByKey (familyKey nodes) (nodes.getD id default).families.toList).toArray⟩ := by
  by_cases hlt : id < nodes.size
  · simp only [orderFamilies, Array.getD_eq_getD_getElem?, Array.getElem?_map, Array.getElem?_eq_getElem hlt,
      Option.map_some, Option.getD_some]
    split
    · rfl
    · rename_i hsize
      rw [sortByKey_of_length_le _ (by simpa using hsize)]
  · rw [families_getD_of_le (Nat.not_lt.mp hlt)]
    simp [orderFamilies, Array.getD_eq_getD_getElem?, hlt]
    rfl

@[simp] theorem size_orderFamilies (nodes : Array Node) : (orderFamilies nodes).size = nodes.size :=
  Array.size_map

theorem identity_orderFamilies (nodes : Array Node) (id : NodeId) :
    ((orderFamilies nodes).getD id default).identity = (nodes.getD id default).identity := by
  rw [node_orderFamilies]

theorem mem_families_orderFamilies {family : Family} :
    family ∈ ((orderFamilies nodes).getD id default).families ↔ family ∈ (nodes.getD id default).families := by
  rw [node_orderFamilies]
  simp [(perm_sortByKey _ _).mem_iff]

@[simp] theorem familyKey_orderFamilies (nodes : Array Node) : familyKey (orderFamilies nodes) = familyKey nodes := by
  funext family
  simp only [familyKey, identity_orderFamilies]

/-- Nodes with the same families in any order have them in the same order once they are sorted. -/
theorem familyKeys_orderFamilies_congr (h : (familyKeys nodes id).Perm (familyKeys nodes' id')) :
    familyKeys (orderFamilies nodes) id = familyKeys (orderFamilies nodes') id' := by
  simp only [familyKeys, familyKey_orderFamilies, node_orderFamilies]
  exact map_sortByKey_congr h

@[simp] theorem mem_orderRoots {roots : List NodeId} : id ∈ orderRoots nodes roots ↔ id ∈ roots :=
  (perm_sortByKey _ _).mem_iff

/-- Roots with the same identities in any order have them in the same order once they are sorted. -/
theorem identities_orderRoots_congr {roots roots' : List NodeId}
    (h : (roots.map fun id => (nodes.getD id default).identity).Perm
      (roots'.map fun id => (nodes'.getD id default).identity)) :
    (orderRoots nodes roots).map (fun id => (nodes.getD id default).identity) =
      (orderRoots nodes' roots').map fun id => (nodes'.getD id default).identity :=
  map_sortByKey_congr h

end ContextFree.Order
