-- SUMMARY: Arrays of nodes: families given by the identities of their children, and the nodes below roots.
import ContextFree.Proofs.NodeTable

/-!
# Families by identity

Forests of different origin number their nodes differently, so their families are compared by the identities of
the children. In a consistent table no information is lost that way.
-/
namespace ContextFree

/-- The families of a node, each given by the identities of its children. -/
def familyKeys (nodes : Array Node) (id : NodeId) : List (List Identity) :=
  (nodes.getD id default).families.toList.map (Order.familyKey nodes)

/-- The nodes that can be reached from the roots through families. -/
inductive Reachable (nodes : Array Node) (roots : List NodeId) : NodeId → Prop where
  | root {id : NodeId} : id ∈ roots → Reachable nodes roots id
  | child {id child : NodeId} {family : Family} :
      Reachable nodes roots id → family ∈ (nodes.getD id default).families → child ∈ family.children →
      Reachable nodes roots child

namespace Reachable

variable {nodes : Array Node} {roots : List NodeId} {a b : NodeId}

theorem refl (a : NodeId) : Reachable nodes [a] a :=
  .root (List.mem_singleton.mpr rfl)

theorem trans (h : Reachable nodes roots a) (h' : Reachable nodes [a] b) : Reachable nodes roots b := by
  induction h' with
  | root hmem => exact List.mem_singleton.mp hmem ▸ h
  | child _ hfamily hchild ih => exact .child ih hfamily hchild

end Reachable

namespace Family

theorem children_injective {family family' : Family} (h : family.children = family'.children) : family = family' := by
  cases family <;> cases family' <;> simp_all [children]

@[simp] theorem children_filter (keep : NodeId → Bool) (family : Family) :
    (family.filter keep).children = family.children.filter keep := by
  cases family with
  | nothing => rfl
  | unary child => cases h : keep child <;> simp [filter, Option.filter, children, ofPair, h]
  | binary left right =>
    cases h : keep left <;> cases h' : keep right <;> simp [filter, Option.filter, children, ofPair, h, h']

@[simp] theorem children_map (f : NodeId → NodeId) (family : Family) :
    (family.map f).children = family.children.map f := by
  cases family <;> rfl

end Family

/-! ## Consistent tables -/

namespace NodeTable.Consistent

variable {t : NodeTable} {id : Nat}

/-- In a consistent table families are told apart by the identities of their children. -/
theorem familyKey_injective (h : t.Consistent) {family family' : Family}
    (hlt : ∀ child ∈ family.children, child < t.size) (hlt' : ∀ child ∈ family'.children, child < t.size)
    (heq : Order.familyKey t.nodes family = Order.familyKey t.nodes family') : family = family' := by
  apply Family.children_injective
  rw [familyKey_eq, familyKey_eq] at heq
  generalize family.children = children at heq hlt
  generalize family'.children = children' at heq hlt'
  induction children generalizing children' with
  | nil => exact (List.map_eq_nil_iff.mp heq.symm).symm
  | cons child children ih =>
    cases children' with
    | nil => cases heq
    | cons child' children' =>
      simp only [List.map_cons, List.cons.injEq] at heq
      rw [h.identity_injective (hlt child List.mem_cons_self) (hlt' child' List.mem_cons_self) heq.1,
        ih (fun c hc => hlt c (List.mem_cons_of_mem _ hc)) children' heq.2
          (fun c hc => hlt' c (List.mem_cons_of_mem _ hc))]

theorem familyKeys_nodup (h : t.Consistent) (id : Nat) : (familyKeys t.nodes id).Nodup := by
  apply (h.nodup id).map_on
  intro family hfamily family' hfamily' heq
  rw [Array.mem_toList_iff] at hfamily hfamily'
  exact h.familyKey_injective (fun _ => h.child_lt hfamily) (fun _ => h.child_lt hfamily') heq

theorem mem_familyKeys (h : t.Consistent) (hid : id < t.size) {key : List Identity} :
    key ∈ familyKeys t.nodes id ↔ t.HasFamily (t.node id).identity key := by
  unfold familyKeys
  rw [List.mem_map]
  constructor
  · intro ⟨family, hfamily, hkey⟩
    exact ⟨id, hid, rfl, family, Array.mem_toList_iff.mp hfamily, hkey⟩
  · intro ⟨id', hid', heq, family, hfamily, hkey⟩
    obtain rfl := h.identity_injective hid' hid heq
    exact ⟨family, Array.mem_toList_iff.mpr hfamily, hkey⟩

end NodeTable.Consistent
end ContextFree
