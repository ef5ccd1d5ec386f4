-- SUMMARY: Unfoldings of a node: trees that take one forward family at each node, as many as the count says.
import ContextFree.Proofs.Forest.Counting
import Mathlib.Data.List.Sigma

/-!
# Unfoldings

An unfolding of a node takes one family at the node and at every node that this leads to, and never a loop. As long as no
loop over no input adds to the counts, the count of a node is the number of its unfoldings.
-/
namespace ContextFree

variable {α : Type} {id : NodeId} {ids : List NodeId} {i : Nat} {family : Family}

/-- A node with the family taken there, by position, and the unfoldings of the children. -/
inductive Unfolding where
  | leaf (id : NodeId)
  | node (id : NodeId) (family : Nat) (children : List Unfolding)

namespace Unfolding

mutual

/-- The inner nodes in preorder, each with the family taken there. -/
def listing : Unfolding → List (NodeId × Nat)
  | leaf _                  => []
  | node id family children => (id, family) :: listingAll children

/-- The listings of some unfoldings, one after the other. -/
def listingAll : List Unfolding → List (NodeId × Nat)
  | []      => []
  | u :: us => u.listing ++ listingAll us

end

end Unfolding

variable {us children : List Unfolding}

/-- The unfoldings unfold the nodes, one each. -/
inductive Unfolds (f : Forest α) : List Unfolding → List NodeId → Prop where
  | nil : Unfolds f [] []
  | leaf {id : NodeId} {us : List Unfolding} {ids : List NodeId} :
      (f.node id).families = #[] → Unfolds f us ids → Unfolds f (.leaf id :: us) (id :: ids)
  | node {id : NodeId} {i : Nat} {family : Family} {children us : List Unfolding} {ids : List NodeId} :
      (f.node id).families[i]? = some family → f.isLoop id i = false → Unfolds f children family.children →
      Unfolds f us ids → Unfolds f (.node id i children :: us) (id :: ids)

namespace Unfolds

variable {f : Forest α}

theorem cons_iff {u : Unfolding} : Unfolds f (u :: us) (id :: ids) ↔ Unfolds f [u] [id] ∧ Unfolds f us ids := by
  constructor
  · intro h
    cases h with
    | leaf hempty hrest => exact ⟨.leaf hempty .nil, hrest⟩
    | node hget hloop hchildren hrest => exact ⟨.node hget hloop hchildren .nil, hrest⟩
  · rintro ⟨h, hrest⟩
    cases h with
    | leaf hempty => exact .leaf hempty hrest
    | node hget hloop hchildren => exact .node hget hloop hchildren hrest

theorem iff_forall₂ : Unfolds f us ids ↔ List.Forall₂ (fun id u => Unfolds f [u] [id]) ids us := by
  induction us generalizing ids with
  | nil => exact ⟨fun h => by cases h; exact .nil, fun h => by cases h; exact .nil⟩
  | cons u us ih =>
    cases ids with
    | nil => exact iff_of_false nofun nofun
    | cons id ids => rw [cons_iff, List.forall₂_cons, ih]

theorem encard_eq (ids : List NodeId) :
    {us | Unfolds f us ids}.encard = (ids.map fun id => {u | Unfolds f [u] [id]}.encard).prod := by
  rw [← encard_forall₂]
  exact congrArg Set.encard (Set.ext fun us => iff_forall₂)

end Unfolds

namespace Forest

/-- The unfoldings of a node. -/
def unfoldings (f : Forest α) (id : NodeId) : Set Unfolding :=
  {u | Unfolds f [u] [id]}

/-- No node over no input has a loop. -/
def NoEmptyLoops (f : Forest α) : Prop :=
  ∀ id < f.size, (f.node id).isEmpty = true → (f.factsOf id).loops = []

instance (f : Forest α) : Decidable f.NoEmptyLoops :=
  inferInstanceAs (Decidable (∀ id < f.size, (f.node id).isEmpty = true → (f.factsOf id).loops = []))

variable [DecidableEq α] {f : Forest α} {tokens : Array α} {trimmed : Identity → Prop}

/-- The families of a node that are no loops, with their positions. -/
def forwardAt (f : Forest α) (id : NodeId) : List (Family × Nat) :=
  (f.node id).families.toList.zipIdx.filter fun (_, i) => !f.isLoop id i

omit [DecidableEq α] in
theorem mem_forwardAt : (family, i) ∈ f.forwardAt id ↔ (f.node id).families[i]? = some family ∧ f.isLoop id i = false := by
  simp [forwardAt, List.mem_zipIdx_iff_getElem?]

omit [DecidableEq α] in
/-- The unfoldings of an inner node, from those of the children of its forward families. -/
theorem encard_unfoldings (hne : (f.node id).families ≠ #[]) :
    (f.unfoldings id).encard =
      ((f.forward id).map fun family => (family.children.map fun child => (f.unfoldings child).encard).prod).sum := by
  let below (x : Family × Nat) : Set Unfolding := Unfolding.node id x.2 '' {us | Unfolds f us x.1.children}
  have hbelow : f.unfoldings id = {u | ∃ x ∈ f.forwardAt id, u ∈ below x} := by
    ext u
    constructor
    · intro hu
      cases hu with
      | leaf hempty => exact absurd hempty hne
      | node hget hloop hchildren => exact ⟨(_, _), mem_forwardAt.mpr ⟨hget, hloop⟩, _, hchildren, rfl⟩
    · rintro ⟨⟨family, i⟩, hmem, us, hus, rfl⟩
      obtain ⟨hget, hloop⟩ := mem_forwardAt.mp hmem
      exact .node hget hloop hus .nil
  have hnodup : (f.forwardAt id).Nodup := (List.nodup_zipIdx_map_snd _).of_map.filter _
  have hdisjoint : ∀ x ∈ f.forwardAt id, ∀ y ∈ f.forwardAt id, ∀ u, u ∈ below x → u ∈ below y → x = y := by
    rintro ⟨family, i⟩ hx ⟨family', j⟩ hy _ ⟨us, -, rfl⟩ ⟨us', -, heq⟩
    cases heq
    cases Option.some.inj ((mem_forwardAt.mp hx).1.symm.trans (mem_forwardAt.mp hy).1)
    rfl
  have hcard : ∀ x, (below x).encard = (x.1.children.map fun child => (f.unfoldings child).encard).prod := by
    intro x
    have hinjective : Function.Injective (Unfolding.node id x.2) := fun us us' heq => by cases heq; rfl
    rw [hinjective.encard_image, Unfolds.encard_eq]
    rfl
  rw [hbelow, encard_exists_mem hnodup hdisjoint]
  simp only [hcard, forward, Survey.forwardFamilies, List.map_map]
  rfl

omit [DecidableEq α] in
theorem encard_unfoldings_of_empty (hempty : (f.node id).families = #[]) : (f.unfoldings id).encard = 1 := by
  have hleaf : f.unfoldings id = {.leaf id} := by
    ext u
    constructor
    · intro hu
      cases hu with
      | leaf => rfl
      | node hget => simp [hempty] at hget
    · rintro rfl
      exact .leaf hempty .nil
  rw [hleaf, Set.encard_singleton]

namespace Exact

/-- Without any loop, there is none over no input. -/
theorem noEmptyLoops (h : f.Exact tokens trimmed) (hfinite : f.isInfinite = false) : f.NoEmptyLoops :=
  fun _ hid _ => (h.loopless hid (h.infinite_of_isInfinite hfinite hid)).1

/-- Without loops over no input, a node has as many unfoldings as its count says. -/
theorem encard_unfoldings (h : f.Exact tokens trimmed) (hplain : f.NoEmptyLoops) (hid : id < f.size) :
    (f.unfoldings id).encard = f.count id :=
  h.eq_count (Q := fun _ => True) (fun _ _ _ _ _ _ => trivial) (fun hid _ => hplain _ hid)
    (fun _ hempty => encard_unfoldings_of_empty hempty) (fun _ _ hne => Forest.encard_unfoldings hne) hid trivial

/-- Loops over no input only add to the counts: no node has more unfoldings than its count says. -/
theorem encard_unfoldings_le (h : f.Exact tokens trimmed) (hid : id < f.size) :
    (f.unfoldings id).encard ≤ f.count id := by
  refine h.forward_induction (P := fun id => (f.unfoldings id).encard ≤ f.count id) (fun id hid ih => ?_) hid
  by_cases hempty : (f.node id).families = #[]
  · rw [encard_unfoldings_of_empty hempty, h.count_of_empty hid hempty, Nat.cast_one]
  · have hsum : ((f.forward id).map fun family => (family.children.map fun child => (f.unfoldings child).encard).prod).sum ≤
        ((f.forward id).map fun family => (family.children.map fun child => (f.count child : ℕ∞)).prod).sum :=
      List.sum_le_sum fun family hfamily => List.prod_le_prod' fun child hchild => ih family hfamily child hchild
    rw [Forest.encard_unfoldings hempty, h.count_eq hid hempty, Nat.cast_add, Nat.cast_list_sum, List.map_map]
    refine hsum.trans (le_add_right (le_of_eq ?_))
    congr 1
    refine List.map_congr_left fun family _ => ?_
    rw [Function.comp_apply, Nat.cast_list_prod, List.map_map]
    rfl

/-- A forward family whose children have positive counts makes the count positive. -/
theorem count_pos_of_forward (h : f.Exact tokens trimmed) (hid : id < f.size) (hfamily : family ∈ f.forward id)
    (hcounts : ∀ child ∈ family.children, 0 < f.count child) : 0 < f.count id := by
  rw [count, h.facts_eq hid]
  refine Survey.settle_count_pos hfamily fun child hchild => ?_
  rw [factsOf_marks]
  exact hcounts child hchild

/-- Nodes that have unfoldings have positive counts. -/
theorem count_pos_of_unfolds (h : f.Exact tokens trimmed) (hus : Unfolds f us ids) (hids : ∀ id ∈ ids, id < f.size) :
    ∀ id ∈ ids, 0 < f.count id := by
  induction hus with
  | nil => simp
  | leaf hempty _ ih =>
    obtain ⟨hid, hids⟩ := List.forall_mem_cons.mp hids
    exact List.forall_mem_cons.mpr ⟨h.count_of_empty hid hempty ▸ Nat.one_pos, ih hids⟩
  | @node id i family children us ids hget hloop _ _ ihChildren ih =>
    obtain ⟨hid, hids⟩ := List.forall_mem_cons.mp hids
    have hfamily : family ∈ f.forward id := mem_forward.mpr ⟨i, hget, by simpa [isLoop] using hloop⟩
    have hchildren : ∀ child ∈ family.children, child < f.size :=
      fun child hchild => h.child_lt hid (mem_families_of_forward hfamily) hchild
    exact List.forall_mem_cons.mpr ⟨h.count_pos_of_forward hid hfamily (ihChildren hchildren), ih hids⟩

end Exact
end Forest
end ContextFree
