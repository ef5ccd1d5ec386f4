-- SUMMARY: Trimming removes the pure nodes, the least set of its kind, from all families and changes nothing else.
import ContextFree.Forest.Trim
import ContextFree.Proofs.Saturation
import ContextFree.Proofs.Forest.Nodes

/-!
# Trimming removes the pure nodes

Purity is an inductive notion: the children of a pure node are pure. The rounds that look for pure nodes end with all of
them. What trimming leaves of a family are its other children, in their order.
-/
namespace ContextFree

variable {α : Type}

namespace Trim

variable {p : Prepared α} {nodes : Array Node} {id : NodeId}

/-- The nodes with an empty extent, a label that may be pruned and exactly one family, whose children are of the same
kind. -/
inductive Pure (p : Prepared α) (nodes : Array Node) : NodeId → Prop where
  | intro {id : NodeId} {family : Family} :
      (nodes.getD id default).isEmpty = true →
      isPrunable p (nodes.getD id default).label = true →
      (nodes.getD id default).families = #[family] →
      (∀ child ∈ family.children, Pure p nodes child) →
      Pure p nodes id

theorem isPure_iff {set : Std.TreeSet NodeId} {node : Node} :
    isPure p set node = true ↔ node.isEmpty = true ∧ isPrunable p node.label = true ∧
      ∃ family, node.families = #[family] ∧ ∀ child ∈ family.children, child ∈ set := by
  simp only [isPure, Bool.and_eq_true, beq_iff_eq]
  constructor
  · rintro ⟨⟨⟨hempty, hsize⟩, hprunable⟩, hall⟩
    obtain ⟨family, hfamily⟩ := Array.size_eq_one_iff.mp hsize
    rw [hfamily] at hall
    exact ⟨hempty, hprunable, family, hfamily, by simpa using hall⟩
  · rintro ⟨hempty, hprunable, family, hfamily, hall⟩
    exact ⟨⟨⟨hempty, by simp [hfamily]⟩, hprunable⟩, by simpa [hfamily] using hall⟩

theorem isPure_mono {set set' : Std.TreeSet NodeId} (hsub : Sub set set') {node : Node} (h : isPure p set node = true) :
    isPure p set' node = true := by
  obtain ⟨hempty, hprunable, family, hfamily, hall⟩ := isPure_iff.mp h
  exact isPure_iff.mpr ⟨hempty, hprunable, family, hfamily, fun child hchild => hsub child (hall child hchild)⟩

theorem pure_of_pureRound {set : Std.TreeSet NodeId} (hset : ∀ id ∈ set, Pure p nodes id) :
    ∀ id ∈ pureRound p nodes set, Pure p nodes id := by
  unfold pureRound
  generalize List.range nodes.size = ids
  induction ids generalizing set with
  | nil => exact hset
  | cons id ids ih =>
    apply ih
    intro id' hid'
    cases mem_insertIf hid' with
    | inl hold => exact hset id' hold
    | inr hnew =>
      obtain ⟨hpure, rfl⟩ := hnew
      obtain ⟨hempty, hprunable, family, hfamily, hall⟩ := isPure_iff.mp hpure
      exact .intro hempty hprunable hfamily fun child hchild => hset child (hall child hchild)

theorem growing_pureRound (p : Prepared α) (nodes : Array Node) : Growing (pureRound p nodes) :=
  Growing.foldl (fun _ => Growing.insertIf (fun _ _ hsub h => isPure_mono hsub h) _) _

theorem pureRound_closed (p : Prepared α) (nodes : Array Node) :
    Sub (pureRound p nodes (pureNodes p nodes)) (pureNodes p nodes) := by
  have hspace : ∀ set, ∀ id ∈ pureRound p nodes set, id ∈ set ∨ id ∈ Finset.range nodes.size := by
    intro set
    refine foldl_within (fun id' hid' s id hid => ?_) set
    exact (mem_insertIf hid).imp_right fun hnew => by simpa [hnew.2] using hid'
  exact saturate_closed (growing_pureRound p nodes) hspace _ (fun id hid => absurd hid Std.TreeSet.not_mem_emptyc)
    (by simp)

/-- Saturation finds all pure nodes and no others. -/
@[simp] theorem mem_pureNodes : id ∈ pureNodes p nodes ↔ Pure p nodes id := by
  constructor
  · refine saturate_induction (P := fun set => ∀ id ∈ set, Pure p nodes id) (fun _ => pure_of_pureRound) _ ?_ id
    exact fun id hid => absurd hid Std.TreeSet.not_mem_emptyc
  · intro hpure
    induction hpure with
    | @intro id family hempty hprunable hfamily hall ih =>
      have hlt : id < nodes.size := by
        by_contra hge
        rw [families_getD_of_le (Nat.not_lt.mp hge)] at hfamily
        simp at hfamily
      have hvisit : id ∈ if isPure p (pureNodes p nodes) (nodes.getD id default) then
          (pureNodes p nodes).insert id else pureNodes p nodes := by
        rw [if_pos (isPure_iff.mpr ⟨hempty, hprunable, family, hfamily, ih⟩)]
        exact mem_insert_iff.mpr (.inl rfl)
      apply pureRound_closed p nodes id
      exact Growing.sub_foldl (fun _ => Growing.insertIf (fun _ _ hsub h => isPure_mono hsub h) _)
        (List.mem_range.mpr hlt) _ id hvisit

/-! ## Trimmed nodes -/

theorem node_trim (p : Prepared α) (nodes : Array Node) (id : NodeId) :
    (trim p nodes).getD id default =
      ⟨(nodes.getD id default).identity, (nodes.getD id default).families.map
        (·.filter fun child => !(pureNodes p nodes).contains child)⟩ := by
  by_cases hlt : id < nodes.size
  · simp [trim, Array.getD_eq_getD_getElem?, hlt]
  · rw [families_getD_of_le (Nat.not_lt.mp hlt)]
    simp [trim, Array.getD_eq_getD_getElem?, hlt]
    rfl

@[simp] theorem size_trim (p : Prepared α) (nodes : Array Node) : (trim p nodes).size = nodes.size :=
  Array.size_map

theorem identity_trim (p : Prepared α) (nodes : Array Node) (id : NodeId) :
    ((trim p nodes).getD id default).identity = (nodes.getD id default).identity := by
  rw [node_trim]

theorem mem_families_trim {family : Family} (h : family ∈ ((trim p nodes).getD id default).families) :
    ∃ family' ∈ (nodes.getD id default).families, ∀ child ∈ family.children, child ∈ family'.children := by
  rw [node_trim] at h
  obtain ⟨family', hfamily', rfl⟩ := Array.mem_map.mp h
  refine ⟨family', hfamily', fun child hchild => ?_⟩
  rw [Family.children_filter] at hchild
  exact List.mem_of_mem_filter hchild

/-- What is left of the families of a node, by identity, when `pure` are the identities of the pure ones among their
children. -/
theorem familyKeys_trim {pure : Identity → Bool}
    (hpure : ∀ family ∈ (nodes.getD id default).families, ∀ child ∈ family.children,
      pure (nodes.getD child default).identity = true ↔ Pure p nodes child) :
    familyKeys (trim p nodes) id = (familyKeys nodes id).map (·.filter (!pure ·)) := by
  simp only [familyKeys, node_trim, Array.toList_map, List.map_map]
  apply List.map_congr_left
  intro family hfamily
  simp only [Function.comp, Order.familyKey, Family.children_filter, identity_trim, List.filter_map]
  congr 1
  apply List.filter_congr
  intro child hchild
  have hchildPure := hpure family (Array.mem_toList_iff.mp hfamily) child hchild
  rw [← mem_pureNodes, ← Std.TreeSet.contains_iff_mem] at hchildPure
  rw [Bool.eq_iff_iff.mpr hchildPure.symm]
  rfl

end Trim
end ContextFree
