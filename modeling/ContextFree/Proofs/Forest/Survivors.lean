-- SUMMARY: Which nodes a finished forest keeps, and what is left of their families.
import ContextFree.Proofs.Forest.Tables

/-!
# Survivors of finishing

Trimming takes the pure nodes out of all families, and what no family leads to any more is dropped. A node above one that is
not pure is not pure itself, so no way down to such a node is cut. Hence the nodes that stay are the roots and the nodes
below them that are not pure. Each keeps all its families, and these lose their pure children.
-/
namespace ContextFree

variable {α : Type} {p : Prepared α} {t : NodeTable} {roots : List NodeId} {id a b : NodeId} {family : Family}

namespace Trim

variable {nodes : Array Node}

instance : DecidablePred (Pure p nodes) :=
  fun _ => decidable_of_iff _ mem_pureNodes

theorem Pure.child (h : Pure p nodes a) (hfamily : family ∈ (nodes.getD a default).families)
    (hchild : b ∈ family.children) : Pure p nodes b := by
  cases h with
  | intro _ _ hsingle hall =>
    rw [hsingle, Array.mem_singleton] at hfamily
    exact hall b (hfamily ▸ hchild)

theorem Pure.isPrunable (h : Pure p nodes id) : isPrunable p (nodes.getD id default).label = true := by
  cases h with
  | intro _ hprunable => exact hprunable

/-- Nothing above a node that is not pure is pure. -/
theorem not_pure_of_reachable (h : Reachable nodes [a] b) (hb : ¬ Pure p nodes b) : ¬ Pure p nodes a := by
  induction h with
  | root hmem => exact List.mem_singleton.mp hmem ▸ hb
  | child _ hfamily hchild ih => exact ih fun hpure => hb (hpure.child hfamily hchild)

/-- The children that trimming leaves to a family. -/
def remaining (p : Prepared α) (nodes : Array Node) (family : Family) : List NodeId :=
  family.children.filter fun child => ¬ Pure p nodes child

theorem mem_remaining : a ∈ remaining p nodes family ↔ a ∈ family.children ∧ ¬ Pure p nodes a := by
  simp [remaining]

theorem children_filter_pureNodes (family : Family) :
    (family.filter fun child => !(pureNodes p nodes).contains child).children = remaining p nodes family := by
  rw [Family.children_filter, remaining]
  refine List.filter_congr fun child _ => ?_
  rw [Bool.eq_iff_iff, decide_eq_true_iff, Bool.not_eq_true', ← Bool.not_eq_true, Std.TreeSet.contains_iff_mem, mem_pureNodes]

end Trim

namespace Forest

/-! ## Ordered families -/

/-- Trimming and sorting leave each family what is not pure of it. -/
theorem perm_children_ordered (p : Prepared α) (t : NodeTable) (id : NodeId) :
    (((ordered p t).getD id default).families.toList.map Family.children).Perm
      ((t.node id).families.toList.map (Trim.remaining p t.nodes)) := by
  rw [ordered, Order.node_orderFamilies, Trim.node_trim]
  refine ((Order.perm_sortByKey _ _).map _).trans (List.Perm.of_eq ?_)
  rw [Array.toList_map, List.map_map]
  exact List.map_congr_left fun family _ => Trim.children_filter_pureNodes family

/-- The children of a node that trimming leaves are those of its families that are not pure. -/
theorem exists_ordered_child_iff :
    (∃ family ∈ ((ordered p t).getD a default).families, b ∈ family.children) ↔
      (∃ family ∈ (t.node a).families, b ∈ family.children) ∧ ¬ Trim.Pure p t.nodes b := by
  have hmem : (∃ children ∈ ((ordered p t).getD a default).families.toList.map Family.children, b ∈ children) ↔
      ∃ children ∈ (t.node a).families.toList.map (Trim.remaining p t.nodes), b ∈ children :=
    exists_congr fun children => and_congr_left' (perm_children_ordered p t a).mem_iff
  simpa [Trim.mem_remaining, ← and_assoc, exists_and_right] using hmem

/-! ## Survivors -/

/-- The roots, and the nodes below them that are not pure. -/
def Survives (p : Prepared α) (t : NodeTable) (roots : List NodeId) (id : NodeId) : Prop :=
  id ∈ roots ∨ Reachable t.nodes roots id ∧ ¬ Trim.Pure p t.nodes id

/-- What can be reached after trimming are the survivors. -/
theorem kept_iff_survives : Kept p t roots id ↔ Survives p t roots id := by
  constructor
  · intro h
    cases h with
    | root hmem => exact .inl (Order.mem_orderRoots.mp hmem)
    | child hparent hfamily hchild =>
      exact .inr ⟨(Kept.reachable (.child hparent hfamily hchild)), (exists_ordered_child_iff.mp ⟨_, hfamily, hchild⟩).2⟩
  · rintro (hmem | ⟨hreach, hpure⟩)
    · exact .root (Order.mem_orderRoots.mpr hmem)
    · -- down from a root: no node above `id` is pure, so no reference on the way is cut
      induction hreach with
      | root hmem => exact .root (Order.mem_orderRoots.mpr hmem)
      | child _ hfamily hchild ih =>
        obtain ⟨family', hfamily', hchild'⟩ := exists_ordered_child_iff.mpr ⟨⟨_, hfamily, hchild⟩, hpure⟩
        exact .child (ih fun hparent => hpure (hparent.child hfamily hchild)) hfamily' hchild'

variable {tokens : Array α} {offset : Nat}

/-- Finishing numbers the survivors, one by one. -/
theorem bijOn_finishedId (ht : t.Rooted roots) :
    Set.BijOn (finishedId p t roots) {id | Survives p t roots id} (Set.Iio (finish p t roots tokens offset).size) := by
  refine ⟨fun id hid => finishedId_lt ht (kept_iff_survives.mpr hid), fun a ha b hb heq => ?_, fun n hn => ?_⟩
  · have ha := kept_iff_survives.mpr ha
    have hb := kept_iff_survives.mpr hb
    have hidentity : (t.node a).identity = (t.node b).identity := by
      rw [← @identity_finish _ p t roots a tokens offset ht ha, heq, identity_finish ht hb]
    exact ht.consistent.identity_injective (reachable_lt ht ha.reachable) (reachable_lt ht hb.reachable) hidentity
  · obtain ⟨id, hid, heq⟩ := exists_kept ht hn
    exact ⟨id, kept_iff_survives.mp hid, heq⟩

/-- A survivor keeps its families, by the new numbers of the children that are left. -/
theorem perm_children_finish (ht : t.Rooted roots) (hid : Survives p t roots id) :
    (((finish p t roots tokens offset).node (finishedId p t roots id)).families.toList.map Family.children).Perm
      ((t.node id).families.toList.map fun family => (Trim.remaining p t.nodes family).map (finishedId p t roots)) := by
  have hkept := kept_iff_survives.mpr hid
  have hperm := (perm_children_ordered p t id).map (List.map (finishedId p t roots))
  rw [List.map_map, List.map_map] at hperm
  refine (List.Perm.of_eq ?_).trans hperm
  rw [node_finish ht hkept, Compact.renumbered, Array.toList_map, List.map_map]
  refine List.map_congr_left fun family hfamily => ?_
  rw [Function.comp, Function.comp, Family.children_map]
  refine List.map_congr_left fun child hchild => ?_
  obtain ⟨_, hdone⟩ := (done_iff_kept ht).mpr (.child hkept (Array.mem_toList_iff.mp hfamily) hchild)
  exact Compact.getD_renumbering hdone

/-- Finishing any table keeps the roots and the nodes below them that are not pure, and no others. Each survivor keeps its
identity and its families, as many as before, in which the children that are not pure stand in their order. So a node
whose symbol may not be pruned is never lost, and neither is a node above it. -/
theorem finish_survivors (p : Prepared α) (ht : t.Built) (hroots : ∀ root ∈ roots, root < t.size) (tokens : Array α)
    (offset : Nat) :
    let f := finish p t roots tokens offset
    ∃ number : NodeId → NodeId,
      Set.BijOn number {id | id ∈ roots ∨ Reachable t.nodes roots id ∧ ¬ Trim.Pure p t.nodes id} (Set.Iio f.size) ∧
      f.roots.Perm (roots.map number) ∧
      (∀ id, id ∈ roots ∨ Reachable t.nodes roots id ∧ ¬ Trim.Pure p t.nodes id →
        (f.node (number id)).identity = (t.node id).identity ∧
        ((f.node (number id)).families.toList.map Family.children).Perm ((t.node id).families.toList.map fun family =>
          (family.children.filter fun child => ¬ Trim.Pure p t.nodes child).map number)) ∧
      ∀ above id symbol, Reachable t.nodes roots above → Reachable t.nodes [above] id →
        (t.node id).label = .symbol symbol → (p.attributesOf symbol).isPrunable = false →
        number above < f.size ∧ (f.node (number above)).identity = (t.node above).identity := by
  intro f
  have hrooted : t.Rooted roots := ⟨ht.consistent, hroots⟩
  have hbij : Set.BijOn (finishedId p t roots) {id | Survives p t roots id} (Set.Iio f.size) := bijOn_finishedId hrooted
  have hidentity : ∀ id, Survives p t roots id → (f.node (finishedId p t roots id)).identity = (t.node id).identity :=
    fun id hid => identity_finish hrooted (kept_iff_survives.mpr hid)
  refine ⟨finishedId p t roots, hbij, ?_, fun id hid => ⟨hidentity id hid, perm_children_finish hrooted hid⟩, ?_⟩
  · rw [roots_finish hrooted]
    exact (Order.perm_sortByKey _ roots).map _
  · intro above id symbol habove hbelow hlabel hforbidden
    have hid : ¬ Trim.Pure p t.nodes id := fun hpure => by
      have hprunable := hpure.isPrunable
      rw [show (t.nodes.getD id default).label = .symbol symbol from hlabel] at hprunable
      exact absurd (hprunable.symm.trans hforbidden) Bool.noConfusion
    have hsurvives : Survives p t roots above := .inr ⟨habove, Trim.not_pure_of_reachable hbelow hid⟩
    exact ⟨hbij.mapsTo hsurvives, hidentity above hsurvives⟩

end Forest

namespace Sample

/-- The knot, in which `E` may not be pruned. -/
def guardedKnot : Prepared Char :=
  match knot.grammar.setAttribute (.nonterminal 3) "prunable" "false" with
  | .ok grammar => { knot with grammar }
  | .error _    => knot

/-- `S` and `'a'` over a letter, `A`, `B` and `E` over nothing, and a node out of reach. -/
def trimmable : NodeTable :=
  table [upTo 1 (.nonterminal 0), upTo 0 (.nonterminal 1), upTo 1 (.terminal 0), upTo 0 (.nonterminal 2),
      upTo 2 (.terminal 0), upTo 0 (.nonterminal 3)]
    [(0, .binary 1 2), (0, .unary 2), (0, .binary 3 2), (1, .nothing), (3, .binary 1 5), (5, .nothing)]

end Sample

namespace Forest

/-- `A` is pure, but a root. It is gone from the families of `S` and `B`, of which `S` has the same one twice now, and `B` stays
since it is above `E`. -/
theorem finish_survivors_trimmable :
    let f := finish Sample.guardedKnot Sample.trimmable [1, 0] #['a'] 0
    Sample.trimmable.Built ∧ f.size = 5 ∧ f.roots = [0, 1] ∧
    (List.range f.size).map (fun id => ((f.node id).identity, (f.node id).families)) =
      [(Sample.upTo 1 (.nonterminal 0), #[.unary 2, .unary 2, .binary 3 2]), (Sample.upTo 0 (.nonterminal 1), #[.nothing]),
        (Sample.upTo 1 (.terminal 0), #[]), (Sample.upTo 0 (.nonterminal 2), #[.unary 4]),
        (Sample.upTo 0 (.nonterminal 3), #[.nothing])] ∧
    ∃ number : NodeId → NodeId, Set.BijOn number
      {id | id ∈ [1, 0] ∨ Reachable Sample.trimmable.nodes [1, 0] id ∧ ¬ Trim.Pure Sample.guardedKnot Sample.trimmable.nodes id}
        (Set.Iio f.size) ∧
      number 3 < f.size ∧ (f.node (number 3)).identity = Sample.upTo 0 (.nonterminal 2) := by
  intro f
  have hbuilt : Sample.trimmable.Built := Sample.built_table (by decide +kernel)
  have hroots : ∀ root ∈ [1, 0], root < Sample.trimmable.size := by decide +kernel
  obtain ⟨number, hbij, -, -, hkept⟩ := finish_survivors Sample.guardedKnot hbuilt hroots #['a'] 0
  have hS : Reachable Sample.trimmable.nodes [1, 0] 0 := .root (by decide)
  have hB : Reachable Sample.trimmable.nodes [1, 0] 3 :=
    .child hS (show Family.binary 3 2 ∈ _ by decide +kernel) (by decide)
  have hE : Reachable Sample.trimmable.nodes [3] 5 :=
    .child (.refl 3) (show Family.binary 1 5 ∈ _ by decide +kernel) (by decide)
  refine ⟨hbuilt, by decide +kernel, by decide +kernel, by decide +kernel, number, hbij, ?_⟩
  exact hkept 3 5 (.nonterminal 3) hB hE (by decide +kernel) (by decide +kernel)

end Forest
end ContextFree
