-- SUMMARY: Node tables read by identity: which nodes and which families they have, and how interning and adding change that.
import ContextFree.Forest.Table
import ContextFree.Forest.Order
import ContextFree.Proofs.Lookup

/-!
# What a node table holds

A consistent table has one node per identity, finds it, and names only nodes that exist. Read by identity, it is two
relations: the identities that have a node, and the families of each, given by the identities of their children.
Interning adds one identity, adding a family adds one family, and nothing else changes.
-/
namespace ContextFree

theorem families_getD_of_le {nodes : Array Node} {id : Nat} (h : nodes.size ≤ id) :
    (nodes.getD id default).families = #[] := by
  rw [Array.getD_eq_getD_getElem?, Array.getElem?_eq_none h]
  rfl

namespace NodeTable

variable {t t' : NodeTable} {x y : Identity} {id id' : Nat} {family : Family} {key : List Identity}

/-- The index finds exactly the nodes, children exist, and no family is listed twice. -/
structure Consistent (t : NodeTable) : Prop where
  find_iff : ∀ {x : Identity} {id : Nat}, t.find? x = some id ↔ id < t.size ∧ (t.node id).identity = x
  child_lt : ∀ {id family child : _}, family ∈ (t.node id).families → child ∈ family.children → child < t.size
  nodup : ∀ id, (t.node id).families.toList.Nodup

/-- There is a node of this identity. -/
def Has (t : NodeTable) (x : Identity) : Prop :=
  ∃ id < t.size, (t.node id).identity = x

/-- The node of an identity has a family with these children. -/
def HasFamily (t : NodeTable) (x : Identity) (key : List Identity) : Prop :=
  ∃ id < t.size, (t.node id).identity = x ∧
    ∃ family ∈ (t.node id).families, Order.familyKey t.nodes family = key

/-- Nodes keep their numbers, identities and families. -/
structure Extends (t t' : NodeTable) : Prop where
  size_le : t.size ≤ t'.size
  identity_eq : ∀ {id : Nat}, id < t.size → (t'.node id).identity = (t.node id).identity
  families_sub : ∀ {id : Nat} {family : Family},
    family ∈ (t.node id).families → family ∈ (t'.node id).families

theorem Extends.refl (t : NodeTable) : t.Extends t :=
  ⟨Nat.le_refl _, fun _ => rfl, fun h => h⟩

theorem Extends.trans {t'' : NodeTable} (h : t.Extends t') (h' : t'.Extends t'') : t.Extends t'' :=
  ⟨Nat.le_trans h.size_le h'.size_le,
    fun hid => (h'.identity_eq (Nat.lt_of_lt_of_le hid h.size_le)).trans (h.identity_eq hid),
    fun hfamily => h'.families_sub (h.families_sub hfamily)⟩

theorem Consistent.identity_injective (h : t.Consistent) (hid : id < t.size) (hid' : id' < t.size)
    (heq : (t.node id).identity = (t.node id').identity) : id = id' := by
  have hfind : t.find? (t.node id').identity = some id := h.find_iff.mpr ⟨hid, heq⟩
  have hfind' : t.find? (t.node id').identity = some id' := h.find_iff.mpr ⟨hid', rfl⟩
  exact Option.some.inj (hfind.symm.trans hfind')

theorem Consistent.isSome_find (h : t.Consistent) : (t.find? x).isSome = true ↔ t.Has x := by
  rw [Option.isSome_iff_exists]
  exact exists_congr fun id => h.find_iff

theorem families_of_size_le (h : t.size ≤ id) : (t.node id).families = #[] :=
  families_getD_of_le h

theorem consistent_empty : ({} : NodeTable).Consistent where
  find_iff := by simp [find?, size]
  child_lt hfamily := by
    rw [families_of_size_le (Nat.zero_le _)] at hfamily
    exact absurd hfamily (Array.not_mem_empty _)
  nodup id := by
    rw [families_of_size_le (Nat.zero_le _)]
    exact List.nodup_nil

theorem familyKey_eq : Order.familyKey t.nodes family =
    family.children.map fun child => (t.node child).identity := rfl

theorem HasFamily.has (h : t.HasFamily x key) : t.Has x := by
  obtain ⟨id, hid, hx, _⟩ := h
  exact ⟨id, hid, hx⟩

theorem Extends.has (h : t.Extends t') (hx : t.Has x) : t'.Has x := by
  obtain ⟨id, hid, rfl⟩ := hx
  exact ⟨id, Nat.lt_of_lt_of_le hid h.size_le, h.identity_eq hid⟩

theorem Extends.familyKey (h : t.Extends t') (hlt : ∀ child ∈ family.children, child < t.size) :
    Order.familyKey t'.nodes family = Order.familyKey t.nodes family :=
  List.map_congr_left fun child hchild => h.identity_eq (hlt child hchild)

theorem Extends.hasFamily (h : t.Extends t') (ht : t.Consistent) (hfamily : t.HasFamily x key) :
    t'.HasFamily x key := by
  obtain ⟨id, hid, rfl, family, hmem, rfl⟩ := hfamily
  refine ⟨id, Nat.lt_of_lt_of_le hid h.size_le, h.identity_eq hid, family, h.families_sub hmem, ?_⟩
  exact h.familyKey fun child hchild => ht.child_lt hmem hchild

/-- `t'` is `t` with these nodes and these families besides. -/
structure Adds (t t' : NodeTable) (nodes : Identity → Prop) (families : Identity → List Identity → Prop) : Prop where
  consistent : t'.Consistent
  extension : t.Extends t'
  has : ∀ {y}, t'.Has y ↔ t.Has y ∨ nodes y
  hasFamily : ∀ {y key}, t'.HasFamily y key ↔ t.HasFamily y key ∨ families y key

theorem Adds.trans {t'' : NodeTable} {nodes nodes' : Identity → Prop}
    {families families' : Identity → List Identity → Prop} (h : Adds t t' nodes families)
    (h' : Adds t' t'' nodes' families') :
    Adds t t'' (fun y => nodes y ∨ nodes' y) (fun y key => families y key ∨ families' y key) where
  consistent := h'.consistent
  extension := h.extension.trans h'.extension
  has {_} := by rw [h'.has, h.has, or_assoc]
  hasFamily {_ _} := by rw [h'.hasFamily, h.hasFamily, or_assoc]

/-! ## Interning -/

theorem intern_of_some {id : Nat} (h : t.find? x = some id) : t.intern x = (id, t) := by
  rw [intern, h]

theorem intern_of_none (h : t.find? x = none) :
    t.intern x = (t.size, ⟨t.nodes.push { identity := x }, t.index.insert x t.size⟩) := by
  rw [intern, h]
  rfl

/-- One node more at the end, without families. -/
structure Appended (t t' : NodeTable) (x : Identity) : Prop where
  size_eq : t'.size = t.size + 1
  node_eq : ∀ id : Nat, t'.node id = if id = t.size then { identity := x } else t.node id
  find_eq : ∀ y, t'.find? y = if x = y then some t.size else t.find? y

theorem intern_appended (h : t.find? x = none) : Appended t (t.intern x).2 x := by
  rw [intern_of_none h]
  refine ⟨by simp [size], fun id => ?_, fun y => getElem?_insert_eq t.index x y t.size⟩
  simp only [node, Array.getD_eq_getD_getElem?, Array.getElem?_push]
  split
  · rename_i heq
    simp only [size, heq, if_true]
    rfl
  · rename_i hne
    simp only [size, hne, if_false]

namespace Appended

theorem families_eq (h : Appended t t' x) (id : Nat) : (t'.node id).families = (t.node id).families := by
  rw [h.node_eq]
  split
  · rename_i heq
    rw [heq, families_of_size_le (Nat.le_refl _)]
  · rfl

theorem lt_size (h : Appended t t' x) : t.size < t'.size :=
  h.size_eq ▸ Nat.lt_succ_self t.size

theorem identity_new (h : Appended t t' x) : (t'.node t.size).identity = x := by
  rw [h.node_eq, if_pos rfl]

theorem extension (h : Appended t t' x) : t.Extends t' := by
  refine ⟨Nat.le_of_lt h.lt_size, fun hid => ?_, fun hfamily => ?_⟩
  · rw [h.node_eq, if_neg (Nat.ne_of_lt hid)]
  · rwa [h.families_eq]

theorem new_or_old (h : Appended t t' x) (hid : id < t'.size) : id = t.size ∨ id < t.size := by
  have := h.size_eq
  omega

/-- The index stays right if the identity is a new one. -/
theorem consistent (h : Appended t t' x) (ht : t.Consistent) (hnone : t.find? x = none) : t'.Consistent := by
  refine ⟨fun {y id} => ?_, fun hfamily hchild => ?_, fun id => ?_⟩
  · rw [h.find_eq]
    split
    · rename_i heq
      subst heq
      constructor
      · intro hid
        cases hid
        exact ⟨h.lt_size, h.identity_new⟩
      · intro ⟨hid, hx⟩
        cases h.new_or_old hid with
        | inl heq => rw [heq]
        | inr hlt =>
          -- an old node would have been found
          rw [h.extension.identity_eq hlt] at hx
          rw [ht.find_iff.mpr ⟨hlt, hx⟩] at hnone
          cases hnone
    · rename_i hne
      rw [ht.find_iff]
      constructor
      · intro ⟨hid, hy⟩
        exact ⟨Nat.lt_trans hid h.lt_size, (h.extension.identity_eq hid).trans hy⟩
      · intro ⟨hid, hy⟩
        cases h.new_or_old hid with
        | inl heq =>
          rw [heq, h.identity_new] at hy
          exact absurd hy hne
        | inr hlt => exact ⟨hlt, (h.extension.identity_eq hlt).symm.trans hy⟩
  · rw [h.families_eq] at hfamily
    exact Nat.lt_of_lt_of_le (ht.child_lt hfamily hchild) h.extension.size_le
  · rw [h.families_eq]
    exact ht.nodup id

theorem has_iff (h : Appended t t' x) : t'.Has y ↔ t.Has y ∨ y = x := by
  constructor
  · intro ⟨id, hid, hy⟩
    cases h.new_or_old hid with
    | inl heq => exact .inr (by rw [← hy, heq, h.identity_new])
    | inr hlt => exact .inl ⟨id, hlt, (h.extension.identity_eq hlt).symm.trans hy⟩
  · intro hy
    cases hy with
    | inl hold => exact h.extension.has hold
    | inr heq => exact ⟨t.size, h.lt_size, h.identity_new.trans heq.symm⟩

theorem hasFamily_iff (h : Appended t t' x) (ht : t.Consistent) : t'.HasFamily y key ↔ t.HasFamily y key := by
  constructor
  · intro ⟨id, hid, hy, family, hfamily, hkey⟩
    rw [h.families_eq] at hfamily
    cases h.new_or_old hid with
    | inl heq =>
      rw [heq, families_of_size_le (Nat.le_refl _)] at hfamily
      exact absurd hfamily (Array.not_mem_empty family)
    | inr hlt =>
      refine ⟨id, hlt, (h.extension.identity_eq hlt).symm.trans hy, family, hfamily, ?_⟩
      exact (h.extension.familyKey fun _ hchild => ht.child_lt hfamily hchild).symm.trans hkey
  · exact h.extension.hasFamily ht

end Appended

/-- Requesting a node adds its identity and no family. -/
theorem intern_adds (h : t.Consistent) (x : Identity) :
    Adds t (t.intern x).2 (· = x) (fun _ _ => False) := by
  cases hfind : t.find? x with
  | some id =>
    rw [intern_of_some hfind]
    obtain ⟨hid, hx⟩ := h.find_iff.mp hfind
    refine ⟨h, .refl t, ⟨.inl, fun hy => ?_⟩, (iff_of_eq (or_false _)).symm⟩
    cases hy with
    | inl hold => exact hold
    | inr heq => exact ⟨id, hid, hx.trans heq.symm⟩
  | none =>
    have happended := intern_appended hfind
    refine ⟨happended.consistent h hfind, happended.extension, happended.has_iff, ?_⟩
    simp only [or_false]
    exact happended.hasFamily_iff h

/-- The node that a request gives. -/
theorem intern_node (h : t.Consistent) (x : Identity) :
    (t.intern x).1 < (t.intern x).2.size ∧ ((t.intern x).2.node (t.intern x).1).identity = x := by
  cases hfind : t.find? x with
  | some id =>
    rw [intern_of_some hfind]
    exact h.find_iff.mp hfind
  | none =>
    have happended := intern_appended hfind
    rw [show (t.intern x).1 = t.size by rw [intern_of_none hfind]]
    exact ⟨happended.lt_size, happended.identity_new⟩

/-! ## Adding families -/

theorem node_addFamily (t : NodeTable) (id id' : Nat) (family : Family) :
    (t.addFamily id family).node id' = if id = id' ∧ id < t.size ∧ family ∉ (t.node id).families then
      { t.node id' with families := (t.node id').families.push family } else t.node id' := by
  simp only [addFamily, node, Array.getD_eq_getD_getElem?, Array.getElem?_modify]
  by_cases hid : id = id'
  · subst hid
    by_cases hlt : id < t.nodes.size
    · simp only [if_true, true_and, Array.getElem?_eq_getElem hlt, Option.map_some, Option.getD_some,
        Array.contains_iff_mem, size, hlt]
      by_cases hmem : family ∈ t.nodes[id].families
      · simp only [hmem, if_true, not_true, if_false]
      · simp only [hmem, if_false, not_false_iff, if_true]
    · simp only [Array.getElem?_eq_none (Nat.le_of_not_lt hlt), size, hlt, false_and, and_false, if_false,
        ite_self, Option.map_none]
  · simp only [hid, false_and, if_false]

@[simp] theorem identity_addFamily (t : NodeTable) (id id' : Nat) (family : Family) :
    ((t.addFamily id family).node id').identity = (t.node id').identity := by
  rw [node_addFamily]
  split <;> rfl

theorem mem_families_addFamily {id id' : Nat} {family family' : Family} (hid : id < t.size) :
    family' ∈ ((t.addFamily id family).node id').families ↔
      family' ∈ (t.node id').families ∨ (id' = id ∧ family' = family) := by
  rw [node_addFamily]
  by_cases heq : id = id'
  · subst heq
    by_cases hmem : family ∈ (t.node id).families
    · rw [if_neg fun h => h.2.2 hmem]
      exact ⟨.inl, fun h => h.elim (fun h => h) fun h => h.2 ▸ hmem⟩
    · rw [if_pos ⟨rfl, hid, hmem⟩, Array.mem_push]
      exact or_congr_right ⟨fun h => ⟨rfl, h⟩, fun h => h.2⟩
  · rw [if_neg fun h => heq h.1]
    exact ⟨.inl, fun h => h.elim (fun h => h) fun h => absurd h.1.symm heq⟩

@[simp] theorem size_addFamily (t : NodeTable) (id : Nat) (family : Family) : (t.addFamily id family).size = t.size :=
  Array.size_modify

/-- Adding a family to a node adds nothing else. -/
theorem addFamily_adds (h : t.Consistent) (hid : id < t.size) (hlt : ∀ child ∈ family.children, child < t.size) :
    Adds t (t.addFamily id family) (fun _ => False)
      (fun y key => y = (t.node id).identity ∧ key = Order.familyKey t.nodes family) := by
  have hsize := size_addFamily t id family
  have hidentity := identity_addFamily t id
  have hextends : t.Extends (t.addFamily id family) :=
    ⟨Nat.le_of_eq hsize.symm, fun _ => hidentity _ family, fun hmem => (mem_families_addFamily hid).mpr (.inl hmem)⟩
  refine ⟨⟨fun {y id'} => ?_, fun hmem hchild => ?_, fun id' => ?_⟩, hextends, ?_, ?_⟩
  · rw [hsize, hidentity]
    exact h.find_iff
  · rw [hsize]
    rcases (mem_families_addFamily hid).mp hmem with hold | ⟨rfl, rfl⟩
    · exact h.child_lt hold hchild
    · exact hlt _ hchild
  · rw [node_addFamily]
    split
    · rename_i hnew
      rw [Array.toList_push]
      apply (h.nodup id').append (List.nodup_singleton family)
      rw [List.disjoint_singleton, ← hnew.1]
      exact fun hmem => hnew.2.2 (Array.mem_toList_iff.mp hmem)
    · exact h.nodup id'
  · intro y
    simp only [Has, hsize, hidentity, or_false]
  · intro y key
    constructor
    · rintro ⟨id', hid', rfl, family', hmem, rfl⟩
      rw [hidentity]
      rcases (mem_families_addFamily hid).mp hmem with hold | ⟨rfl, rfl⟩
      · exact .inl ⟨id', hsize ▸ hid', rfl, family', hold, (hextends.familyKey fun _ => h.child_lt hold).symm⟩
      · exact .inr ⟨rfl, hextends.familyKey hlt⟩
    · rintro (hold | ⟨rfl, rfl⟩)
      · exact hextends.hasFamily h hold
      · refine ⟨id, hsize.symm ▸ hid, hidentity _ _, family, ?_, hextends.familyKey hlt⟩
        exact (mem_families_addFamily hid).mpr (.inr ⟨rfl, rfl⟩)

/-! ## Steps -/

/-- Recording a step gives the child, or the node of some label over the extent with one family more. -/
theorem recordStep_cases {α : Type} (t : NodeTable) (p : Prepared α) (state : StateId) (left right : Nat)
    (before? : Option NodeId) (child : NodeId) :
    t.recordStep p state left right before? child = (child, t) ∨
      ∃ label, t.recordStep p state left right before? child =
        ((t.intern ⟨label, left, right⟩).1,
          (t.intern ⟨label, left, right⟩).2.addFamily (t.intern ⟨label, left, right⟩).1 (.ofPair before? (some child))) := by
  simp only [recordStep]
  split
  · exact .inl rfl
  · exact .inr ⟨_, rfl⟩

end NodeTable
end ContextFree
