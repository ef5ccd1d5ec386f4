-- SUMMARY: Forests that differ only in the numbers of their nodes; the forests of two runs over the same input are such.
import ContextFree.Proofs.Outcomes
import ContextFree.Proofs.Forest.Exactness
import Mathlib.Data.Set.Card

/-!
# Renumbered forests

A renumbering takes the nodes of one forest to those of another, one to one, and everything else along with them. Forests
of the same content are renumberings of each other: the identity of a node says where it goes. As both methods accept the
same part of an input, the forests that they return are renumberings of each other.
-/
namespace ContextFree

variable {α : Type}

namespace Forest

/-- Roots and children are nodes of the forest, and there is one record of facts for every node. -/
structure WellFormed (f : Forest α) : Prop where
  root_lt : ∀ root ∈ f.roots, root < f.size
  child_lt : ∀ {id}, id < f.size → ∀ family ∈ (f.node id).families, ∀ child ∈ family.children, child < f.size
  facts_size : f.facts.size = f.size

/-- The nodes of `f` become those of `f'` under new numbers, with their labels and extents, their families in the same order,
their loop families and their counts. The roots, the flags and all that does not name nodes stay the same. -/
structure Renumbers (ρ : NodeId → NodeId) (f f' : Forest α) : Prop where
  grammar : f'.grammar = f.grammar
  tokens : f'.tokens = f.tokens
  offset : f'.offset = f.offset
  bijOn : Set.BijOn ρ {id | id < f.size} {id | id < f'.size}
  identity : ∀ {id}, id < f.size → (f'.node (ρ id)).identity = (f.node id).identity
  families : ∀ {id}, id < f.size → (f'.node (ρ id)).families = (f.node id).families.map (·.map ρ)
  loops : ∀ {id}, id < f.size → (f'.factsOf (ρ id)).loops = (f.factsOf id).loops
  count : ∀ {id}, id < f.size → f'.count (ρ id) = f.count id
  roots : f'.roots = f.roots.map ρ
  ambiguous : f'.isAmbiguous = f.isAmbiguous
  infinite : f'.isInfinite = f.isInfinite

variable {f f' : Forest α} {ρ : NodeId → NodeId} {id : NodeId}

theorem Renumbers.size_eq (h : f.Renumbers ρ f') : f'.size = f.size := by
  have hcard : ∀ n : Nat, {id | id < n}.ncard = n := fun n => by
    rw [Set.ncard_eq_toFinset_card' {id | id < n}]
    simp
  rw [← hcard f.size, h.bijOn.ncard_eq, hcard]

/-! ## Finished forests -/

section

variable {p : Prepared α} {t : NodeTable} {roots : List NodeId} {tokens : Array α} {offset : Nat}

theorem facts_size_finish (ht : t.Rooted roots) :
    (finish p t roots tokens offset).facts.size = (finish p t roots tokens offset).size := by
  rw [← Array.length_toList, facts_finish, List.length_map, size_finish ht]

/-- Finishing makes well-formed forests. -/
theorem wellFormed_finish (ht : t.Rooted roots) : (finish p t roots tokens offset).WellFormed where
  root_lt _ hroot := (downward_finish ht).lt (.root hroot)
  child_lt hid _ hfamily _ hchild := (downward_finish ht).lt (.child (reachable_finish ht hid) hfamily hchild)
  facts_size := facts_size_finish ht

end

/-! ## All numbers -/

/-- A renumbering of all numbers, those included that no node has. It says the same about all of them, so that a walk
can be followed without asking whether a number is that of a node. -/
structure RenumbersAll (ρ : NodeId → NodeId) (f f' : Forest α) : Prop where
  grammar : f'.grammar = f.grammar
  tokens : f'.tokens = f.tokens
  offset : f'.offset = f.offset
  size : f'.size = f.size
  injective : Function.Injective ρ
  identity : ∀ id, (f'.node (ρ id)).identity = (f.node id).identity
  families : ∀ id, (f'.node (ρ id)).families = (f.node id).families.map (·.map ρ)
  loops : ∀ id, (f'.factsOf (ρ id)).loops = (f.factsOf id).loops
  count : ∀ id, f'.count (ρ id) = f.count id
  roots : f'.roots = f.roots.map ρ
  ambiguous : f'.isAmbiguous = f.isAmbiguous
  infinite : f'.isInfinite = f.isInfinite

/-- Number the nodes anew and leave all other numbers as they are. -/
def onNodes (f : Forest α) (ρ : NodeId → NodeId) (id : NodeId) : NodeId :=
  if id < f.size then ρ id else id

theorem onNodes_of_lt (hid : id < f.size) : f.onNodes ρ id = ρ id :=
  if_pos hid

theorem onNodes_of_ge (hid : ¬ id < f.size) : f.onNodes ρ id = id :=
  if_neg hid

theorem node_of_ge (hid : ¬ id < f.size) : f.node id = default := by
  have hnone : f.table.nodes[id]? = none := Array.getElem?_eq_none (Nat.not_lt.mp hid)
  rw [node, NodeTable.node, Array.getD_eq_getD_getElem?, hnone]
  rfl

theorem WellFormed.factsOf_of_ge (hf : f.WellFormed) (hid : ¬ id < f.size) : f.factsOf id = {} := by
  have hnone : f.facts[id]? = none := Array.getElem?_eq_none (hf.facts_size ▸ Nat.not_lt.mp hid)
  rw [factsOf, Array.getD_eq_getD_getElem?, hnone]
  rfl

theorem Renumbers.injective_onNodes (h : f.Renumbers ρ f') : Function.Injective (f.onNodes ρ) := by
  have hlt : ∀ {a}, a < f.size → ρ a < f.size := fun ha => h.size_eq ▸ h.bijOn.mapsTo ha
  intro a b hab
  by_cases ha : a < f.size <;> by_cases hb : b < f.size
  · rw [onNodes_of_lt ha, onNodes_of_lt hb] at hab
    exact h.bijOn.injOn ha hb hab
  · rw [onNodes_of_lt ha, onNodes_of_ge hb] at hab
    exact absurd (hab ▸ hlt ha) hb
  · rw [onNodes_of_ge ha, onNodes_of_lt hb] at hab
    exact absurd (hab ▸ hlt hb) ha
  · rwa [onNodes_of_ge ha, onNodes_of_ge hb] at hab

theorem map_onNodes {family : Family} (hlt : ∀ child ∈ family.children, child < f.size) :
    family.map (f.onNodes ρ) = family.map ρ := by
  apply Family.children_injective
  rw [Family.children_map, Family.children_map]
  exact List.map_congr_left fun child hchild => onNodes_of_lt (hlt child hchild)

theorem Renumbers.onNodes (h : f.Renumbers ρ f') (hf : f.WellFormed) (hf' : f'.WellFormed) :
    f.RenumbersAll (f.onNodes ρ) f' where
  grammar := h.grammar
  tokens := h.tokens
  offset := h.offset
  size := h.size_eq
  injective := h.injective_onNodes
  identity id := by
    by_cases hid : id < f.size
    · rw [onNodes_of_lt hid, h.identity hid]
    · rw [onNodes_of_ge hid, node_of_ge hid, node_of_ge (h.size_eq ▸ hid)]
  families id := by
    by_cases hid : id < f.size
    · rw [onNodes_of_lt hid, h.families hid]
      refine Array.map_congr_left fun family hfamily => ?_
      exact (map_onNodes (hf.child_lt hid family hfamily)).symm
    · rw [onNodes_of_ge hid, node_of_ge hid, node_of_ge (h.size_eq ▸ hid)]
      exact Array.map_empty.symm
  loops id := by
    by_cases hid : id < f.size
    · rw [onNodes_of_lt hid, h.loops hid]
    · rw [onNodes_of_ge hid, hf.factsOf_of_ge hid, hf'.factsOf_of_ge (h.size_eq ▸ hid)]
  count id := by
    by_cases hid : id < f.size
    · rw [onNodes_of_lt hid, h.count hid]
    · rw [onNodes_of_ge hid, Forest.count, Forest.count, hf.factsOf_of_ge hid, hf'.factsOf_of_ge (h.size_eq ▸ hid)]
  roots := by
    rw [h.roots]
    exact List.map_congr_left fun root hroot => (onNodes_of_lt (hf.root_lt root hroot)).symm
  ambiguous := h.ambiguous
  infinite := h.infinite

/-! ## What a renumbering preserves -/

namespace RenumbersAll

variable (h : f.RenumbersAll ρ f')

include h

theorem label (id : NodeId) : (f'.node (ρ id)).label = (f.node id).label :=
  congrArg Identity.label (h.identity id)

theorem span (id : NodeId) : f'.span (ρ id) = f.span id := by
  simp only [Forest.span, Node.left, Node.right, h.identity, h.offset]

theorem attributesOf (id : NodeId) : f'.attributesOf (ρ id) = f.attributesOf id := by
  simp only [Forest.attributesOf, h.label, h.grammar]

theorem isLoop (id : NodeId) (i : Nat) : f'.isLoop (ρ id) i = f.isLoop id i := by
  rw [Forest.isLoop, Forest.isLoop, h.loops]

theorem families_size (id : NodeId) : (f'.node (ρ id)).families.size = (f.node id).families.size := by
  rw [h.families, Array.size_map]

theorem children (id : NodeId) (i : Nat) : ((f'.node (ρ id)).families.getD i .nothing).children =
    ((f.node id).families.getD i .nothing).children.map ρ := by
  rw [h.families, Array.getD_eq_getD_getElem?, Array.getD_eq_getD_getElem?, Array.getElem?_map]
  cases (f.node id).families[i]? with
  | none => rfl
  | some family => exact Family.children_map ρ family

theorem total_eq : f'.total = f.total := by
  simp only [total, h.roots, List.foldl_map, h.count]

end RenumbersAll

/-! ## Forests of the same content -/

/-- A list of nodes is determined by their identities. -/
theorem SameContent.eq_map (h : f.SameContent f')
    (hρ : ∀ {id}, id < f.size → ρ id < f'.size ∧ (f'.node (ρ id)).identity = (f.node id).identity) {ids ids' : List NodeId}
    (hlt : ∀ id ∈ ids, id < f.size) (hlt' : ∀ id ∈ ids', id < f'.size)
    (heq : ids.map (fun id => (f.node id).identity) = ids'.map fun id => (f'.node id).identity) : ids' = ids.map ρ := by
  symm
  rw [← List.forall₂_eq_eq_eq, List.forall₂_map_left_iff]
  apply forall₂_of_map_eq heq
  intro id hid id' hid' hidentity
  obtain ⟨hnode, hidentity'⟩ := hρ (hlt id hid)
  exact h.distinct' hnode (hlt' id' hid') (hidentity'.trans hidentity)

/-- Forests of the same content are renumberings of each other. -/
theorem SameContent.exists_renumbers (h : f.SameContent f') (hgrammar : f'.grammar = f.grammar) (hf : f.WellFormed)
    (hf' : f'.WellFormed) : ∃ ρ, f.Renumbers ρ f' := by
  have hexists : ∀ id, ∃ id', id < f.size → id' < f'.size ∧ (f'.node id').identity = (f.node id).identity := by
    intro id
    by_cases hid : id < f.size
    · obtain ⟨id', hid', heq⟩ := (h.identities _).mp ⟨id, hid, rfl⟩
      exact ⟨id', fun _ => ⟨hid', heq⟩⟩
    · exact ⟨id, fun hlt => absurd hlt hid⟩
  choose ρ hρ using hexists
  have hlt : ∀ {id}, id < f.size → ρ id < f'.size := fun hid => (hρ _ hid).1
  have hidentity : ∀ {id}, id < f.size → (f'.node (ρ id)).identity = (f.node id).identity := fun hid => (hρ _ hid).2
  refine ⟨ρ, hgrammar, h.tokens.symm, h.offset.symm, ⟨fun id hid => hlt hid, ?_, ?_⟩, hidentity, ?_, ?_, ?_, ?_,
    h.ambiguous.symm, h.infinite.symm⟩
  · intro a ha b hb hab
    refine h.distinct ha hb ?_
    rw [← hidentity ha, hab, hidentity hb]
  · intro id' hid'
    obtain ⟨id, hid, heq⟩ := (h.identities _).mpr ⟨id', hid', rfl⟩
    exact ⟨id, hid, h.distinct' (hlt hid) hid' ((hidentity hid).trans heq)⟩
  · intro id hid
    symm
    rw [← Array.toList_inj, Array.toList_map, ← List.forall₂_eq_eq_eq, List.forall₂_map_left_iff]
    apply forall₂_of_map_eq (h.families hid (hlt hid) (hidentity hid).symm)
    intro family hfamily family' hfamily' hkey
    rw [Array.mem_toList_iff] at hfamily hfamily'
    apply Family.children_injective
    rw [Family.children_map]
    exact (h.eq_map (hρ _) (hf.child_lt hid family hfamily) (hf'.child_lt (hlt hid) family' hfamily') hkey).symm
  · intro id hid
    rw [h.facts hid (hlt hid) (hidentity hid).symm]
  · intro id hid
    rw [Forest.count, Forest.count, h.facts hid (hlt hid) (hidentity hid).symm]
  · exact h.eq_map (hρ _) hf.root_lt hf'.root_lt h.roots

/-- Tables with the same content below their roots become renumberings of each other. -/
theorem exists_renumbers_finish {p : Prepared α} {t t' : NodeTable} {roots roots' : List NodeId} {tokens : Array α}
    {offset : Nat} (h : t.SameBelow t' roots roots') :
    ∃ ρ, (finish p t roots tokens offset).Renumbers ρ (finish p t' roots' tokens offset) :=
  (finish_sameContent h).exists_renumbers rfl (wellFormed_finish h.rooted) (wellFormed_finish h.rooted')

end Forest

/-! ## The forests of two runs -/

section

variable [DecidableEq α] {p : Prepared α} {tokens : Array α}

/-- At most one part of the tokens is accepted, and whether prefixes count does not change which. -/
theorem Prepared.AcceptedEnd.unique {counts counts' : Bool} {stop stop' : Nat} (h : p.AcceptedEnd tokens counts stop)
    (h' : p.AcceptedEnd tokens counts' stop') : stop = stop' := by
  rcases h with ⟨hwhole, rfl⟩ | ⟨hpart, -, hlongest⟩ <;> rcases h' with ⟨hwhole', rfl⟩ | ⟨hpart', -, hlongest'⟩
  · rfl
  · exact absurd hwhole hpart'
  · exact absurd hwhole' hpart
  · exact hlongest.unique hlongest'

namespace Recognizer

/-- What a run hands over to be finished covers the accepted part of the tokens. -/
theorem acceptedEnd_of_unfinished (r : Recognizer α) (hp : r.grammar.Regular) (input : Array α) (offset : Nat)
    {table : NodeTable} {root : NodeId} {stop : Nat} (h : r.unfinished? input offset = some (table, root, stop)) :
    r.grammar.AcceptedEnd (input.extract offset input.size) r.method.prefixParsing stop := by
  obtain ⟨grammar, method, monitor⟩ := r
  cases method with
  | earley config =>
    simp only [unfinished?, Option.map_eq_some_iff] at h
    obtain ⟨⟨root', stop'⟩, hroot, heq⟩ := h
    cases heq
    let job : Earley.Job α := { grammar, config, tokens := input.extract offset input.size, offset }
    have hfinished : (Earley.recognize job (monitor.map Monitor.frequency)).Finished job :=
      Earley.recognize_finished hp _
    exact (hfinished.exists_root_iff hp).mp ⟨root', hroot⟩
  | gll config =>
    simp only [unfinished?, Option.map_eq_some_iff] at h
    obtain ⟨stop', hend, heq⟩ := h
    cases heq
    let job : Gll.Job α := { grammar, config, tokens := input.extract offset input.size }
    have hfinished : (Gll.recognize job (monitor.map Monitor.frequency)).2.Finished job :=
      Gll.recognize_finished hp _
    exact (hfinished.acceptedEnd?_eq_some_iff hp).mp hend

/-- Whatever the methods, configurations and monitors of two runs over the same input, their forests are renumberings of each
other. -/
theorem exists_renumbers [Quote α] (hp : p.Regular) {method method' : Method} {monitor monitor' : Option Monitor}
    {input : Array α} {offset : Nat} {f f' : Forest α}
    (hf : (parseFrom ⟨p, method, monitor⟩ input offset).outcome.forest = some f)
    (hf' : (parseFrom ⟨p, method', monitor'⟩ input offset).outcome.forest = some f') :
    f.WellFormed ∧ f'.WellFormed ∧ ∃ ρ, f.Renumbers ρ f' := by
  rw [forest_parseFrom, Option.map_eq_some_iff] at hf hf'
  obtain ⟨⟨table, root, stop⟩, hunfinished, rfl⟩ := hf
  obtain ⟨⟨table', root', stop'⟩, hunfinished', rfl⟩ := hf'
  have hexact := unfinished?_exact _ hp input offset hunfinished
  have hexact' := unfinished?_exact _ hp input offset hunfinished'
  have haccepted := acceptedEnd_of_unfinished _ hp input offset hunfinished
  have haccepted' := acceptedEnd_of_unfinished _ hp input offset hunfinished'
  obtain rfl : stop = stop' := haccepted.unique haccepted'
  exact ⟨Forest.wellFormed_finish hexact.rooted, Forest.wellFormed_finish hexact'.rooted,
    Forest.exists_renumbers_finish (hexact.sameBelow hp hexact')⟩

end Recognizer

end
end ContextFree
