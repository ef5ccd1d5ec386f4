-- SUMMARY: Finishing depends on what is below the roots of a table, by identity, and on nothing else.
import ContextFree.Proofs.Forest.Alike
import ContextFree.Proofs.Forest.Finishing

/-!
# Finishing depends on content only

Take two tables with the same root identities whose reachable nodes of equal identity have the same families by identity.
Their nodes may have been made in any order, and more of them may be out of reach. Nodes of equal identity are then
pure in both or in neither, so trimming leaves the same of their families, sorting puts them in the same order, and the
surveys run in step.
-/
namespace ContextFree

variable {α : Type} {p : Prepared α} {t t' : NodeTable} {roots roots' : List NodeId} {a b : NodeId}

/-- The same roots, and the same families of the nodes below them. -/
structure NodeTable.SameBelow (t t' : NodeTable) (roots roots' : List NodeId) : Prop where
  rooted : t.Rooted roots
  rooted' : t'.Rooted roots'
  rootIdentities : (roots.map fun root => (t.node root).identity).Perm (roots'.map fun root => (t'.node root).identity)
  families : ∀ {a b}, Reachable t.nodes roots a → Reachable t'.nodes roots' b →
    (t.node a).identity = (t'.node b).identity → ∀ key, key ∈ familyKeys t.nodes a ↔ key ∈ familyKeys t'.nodes b

/-- Nodes of equal identity below the roots. -/
structure Matched (t t' : NodeTable) (roots roots' : List NodeId) (a b : NodeId) : Prop where
  left : Reachable t.nodes roots a
  right : Reachable t'.nodes roots' b
  identity : (t.node a).identity = (t'.node b).identity

theorem Matched.symm (h : Matched t t' roots roots' a b) : Matched t' t roots' roots b a :=
  ⟨h.right, h.left, h.identity.symm⟩

namespace NodeTable.SameBelow

theorem symm (h : t.SameBelow t' roots roots') : t'.SameBelow t roots' roots :=
  ⟨h.rooted', h.rooted, h.rootIdentities.symm, fun ha hb heq key => (h.families hb ha heq.symm key).symm⟩

theorem exists_matched (h : t.SameBelow t' roots roots') (ha : Reachable t.nodes roots a) :
    ∃ b, Matched t t' roots roots' a b := by
  induction ha with
  | @root a hmem =>
    have hidentity := h.rootIdentities.mem_iff.mp (List.mem_map_of_mem hmem)
    obtain ⟨b, hb, heq⟩ := List.mem_map.mp hidentity
    exact ⟨b, .root hmem, .root hb, heq.symm⟩
  | @child a child family ha hfamily hchild ih =>
    obtain ⟨b, hb⟩ := ih
    have hkey : Order.familyKey t.nodes family ∈ familyKeys t.nodes a :=
      List.mem_map_of_mem (Array.mem_toList_iff.mpr hfamily)
    obtain ⟨family', hfamily', heq⟩ := List.mem_map.mp ((h.families hb.left hb.right hb.identity _).mp hkey)
    have hidentity : (t.node child).identity ∈ Order.familyKey t'.nodes family' :=
      heq ▸ List.mem_map_of_mem hchild
    obtain ⟨child', hchild', heq'⟩ := List.mem_map.mp hidentity
    exact ⟨child', .child ha hfamily hchild, .child hb.right (Array.mem_toList_iff.mp hfamily') hchild', heq'.symm⟩

theorem unique (h : t.SameBelow t' roots roots') {c d : NodeId} (hab : Matched t t' roots roots' a b)
    (hcd : Matched t t' roots roots' c d) : a = c ↔ b = d := by
  have hlt : ∀ {c}, Reachable t.nodes roots c → c < t.size := Forest.reachable_lt h.rooted
  have hlt' : ∀ {c}, Reachable t'.nodes roots' c → c < t'.size := Forest.reachable_lt h.rooted'
  constructor
  · intro heq
    apply h.rooted'.consistent.identity_injective (hlt' hab.right) (hlt' hcd.right)
    rw [← hab.identity, heq, hcd.identity]
  · intro heq
    apply h.rooted.consistent.identity_injective (hlt hab.left) (hlt hcd.left)
    rw [hab.identity, heq, hcd.identity]

/-! ## Purity -/

/-- Matching nodes have the same families by identity, in some order. -/
theorem perm_familyKeys (h : t.SameBelow t' roots roots') (hab : Matched t t' roots roots' a b) :
    (familyKeys t.nodes a).Perm (familyKeys t'.nodes b) :=
  (List.perm_ext_iff_of_nodup (h.rooted.consistent.familyKeys_nodup a) (h.rooted'.consistent.familyKeys_nodup b)).mpr
    (h.families hab.left hab.right hab.identity)

theorem pure_of_matched (h : t.SameBelow t' roots roots') (hpure : Trim.Pure p t.nodes a)
    (hab : Matched t t' roots roots' a b) : Trim.Pure p t'.nodes b := by
  induction hpure generalizing b with
  | @intro a family hempty hprunable hfamily hchildren ih =>
    have hidentity : (t.nodes.getD a default).identity = (t'.nodes.getD b default).identity := hab.identity
    have hkeys : familyKeys t'.nodes b = [Order.familyKey t.nodes family] := by
      have hperm := h.perm_familyKeys hab
      rw [familyKeys, hfamily] at hperm
      exact List.perm_singleton.mp hperm.symm
    obtain ⟨family', hfamily', hkey⟩ := List.map_eq_singleton_iff.mp hkeys
    rw [Node.isEmpty, hidentity] at hempty
    rw [Node.label, hidentity] at hprunable
    apply Trim.Pure.intro hempty hprunable (Array.toList_inj.mp hfamily')
    intro child' hchild'
    · have hmem : (t'.node child').identity ∈ Order.familyKey t.nodes family := hkey ▸ List.mem_map_of_mem hchild'
      obtain ⟨child, hchild, heq⟩ := List.mem_map.mp hmem
      refine ih child hchild ⟨.child hab.left ?_ hchild, .child hab.right ?_ hchild', heq⟩
      · rw [hfamily]
        exact Array.mem_singleton.mpr rfl
      · rw [← Array.mem_toList_iff, hfamily']
        exact List.mem_singleton.mpr rfl

/-- The identities of the pure nodes below the roots. -/
def PureIdentity (p : Prepared α) (t : NodeTable) (roots : List NodeId) (x : Identity) : Prop :=
  ∃ id, Reachable t.nodes roots id ∧ (t.node id).identity = x ∧ Trim.Pure p t.nodes id

theorem pureIdentity_iff (ht : t.Rooted roots) (ha : Reachable t.nodes roots a) :
    PureIdentity p t roots (t.node a).identity ↔ Trim.Pure p t.nodes a := by
  constructor
  · intro ⟨id, hid, heq, hpure⟩
    have hlt : ∀ {c}, Reachable t.nodes roots c → c < t.size := Forest.reachable_lt ht
    obtain rfl := ht.consistent.identity_injective (hlt hid) (hlt ha) heq
    exact hpure
  · exact fun hpure => ⟨a, ha, rfl, hpure⟩

theorem pureIdentity_congr (h : t.SameBelow t' roots roots') {x : Identity} (hx : PureIdentity p t roots x) :
    PureIdentity p t' roots' x := by
  obtain ⟨a, ha, rfl, hpure⟩ := hx
  obtain ⟨b, hb⟩ := h.exists_matched ha
  exact ⟨b, hb.right, hb.identity.symm, h.pure_of_matched hpure hb⟩

/-! ## Ordered nodes -/

open Classical in
theorem familyKeys_trim (ht : t.Rooted roots) (ha : Reachable t.nodes roots a) :
    familyKeys (Trim.trim p t.nodes) a =
      (familyKeys t.nodes a).map (·.filter fun x => !decide (PureIdentity p t roots x)) := by
  apply Trim.familyKeys_trim
  intro family hfamily child hchild
  rw [decide_eq_true_iff]
  exact pureIdentity_iff ht (.child ha hfamily hchild)

/-- Matching nodes have the same families by identity and in the same order once they are trimmed and sorted. -/
theorem familyKeys_ordered (h : t.SameBelow t' roots roots') (hab : Matched t t' roots roots' a b) :
    familyKeys (Forest.ordered p t) a = familyKeys (Forest.ordered p t') b := by
  have hpure : PureIdentity p t roots = PureIdentity p t' roots' := by
    funext x
    exact propext ⟨h.pureIdentity_congr, h.symm.pureIdentity_congr⟩
  apply Order.familyKeys_orderFamilies_congr
  rw [familyKeys_trim h.rooted hab.left, familyKeys_trim h.rooted' hab.right, hpure]
  exact (h.perm_familyKeys hab).map _

theorem alike (h : t.SameBelow t' roots roots') :
    Survey.Alike (Matched t t' roots roots') (Forest.ordered p t) (Forest.ordered p t') where
  lt hab := by
    rw [Forest.size_ordered, Forest.size_ordered]
    exact ⟨Forest.reachable_lt h.rooted hab.left, Forest.reachable_lt h.rooted' hab.right⟩
  unique := h.unique
  identity hab := by
    rw [Forest.identity_ordered, Forest.identity_ordered]
    exact hab.identity
  families := by
    intro a b hab
    apply forall₂_of_map_eq (h.familyKeys_ordered hab)
    intro family hfamily family' hfamily' hkey
    apply forall₂_of_map_eq hkey
    intro child hchild child' hchild' heq
    obtain ⟨raw, hraw, hsub⟩ := Forest.exists_family_of_ordered (Array.mem_toList_iff.mp hfamily)
    obtain ⟨raw', hraw', hsub'⟩ := Forest.exists_family_of_ordered (Array.mem_toList_iff.mp hfamily')
    rw [Forest.identity_ordered, Forest.identity_ordered] at heq
    exact ⟨.child hab.left hraw (hsub child hchild), .child hab.right hraw' (hsub' child' hchild'), heq⟩

end NodeTable.SameBelow

/-! ## Finished forests -/

namespace Forest

/-- Forests that differ only in the numbers of their nodes. Identities tell the nodes of each apart; nodes of equal identity
have the same families in the same order, by identity, and the same facts. -/
structure SameContent (f f' : Forest α) : Prop where
  tokens : f.tokens = f'.tokens
  offset : f.offset = f'.offset
  distinct : ∀ {m n}, m < f.size → n < f.size → (f.node m).identity = (f.node n).identity → m = n
  distinct' : ∀ {m n}, m < f'.size → n < f'.size → (f'.node m).identity = (f'.node n).identity → m = n
  identities : ∀ x, (∃ id < f.size, (f.node id).identity = x) ↔ ∃ id < f'.size, (f'.node id).identity = x
  families : ∀ {id id'}, id < f.size → id' < f'.size → (f.node id).identity = (f'.node id').identity →
    familyKeys f.table.nodes id = familyKeys f'.table.nodes id'
  facts : ∀ {id id'}, id < f.size → id' < f'.size → (f.node id).identity = (f'.node id').identity →
    f.factsOf id = f'.factsOf id'
  roots : f.roots.map (fun root => (f.node root).identity) = f'.roots.map fun root => (f'.node root).identity
  ambiguous : f.isAmbiguous = f'.isAmbiguous
  infinite : f.isInfinite = f'.isInfinite
  total : f.total = f'.total

variable {tokens : Array α} {offset : Nat}

theorem finish_distinct (ht : t.Rooted roots) {m n : NodeId} (hm : m < (finish p t roots tokens offset).size)
    (hn : n < (finish p t roots tokens offset).size)
    (heq : ((finish p t roots tokens offset).node m).identity = ((finish p t roots tokens offset).node n).identity) :
    m = n := by
  obtain ⟨a, ha, rfl⟩ := exists_kept ht hm
  obtain ⟨b, hb, rfl⟩ := exists_kept ht hn
  rw [identity_finish ht ha, identity_finish ht hb] at heq
  rw [ht.consistent.identity_injective (reachable_lt ht ha.reachable) (reachable_lt ht hb.reachable) heq]

section

variable (h : t.SameBelow t' roots roots')

include h

theorem roots_matched :
    List.Forall₂ (fun a b => Kept p t roots a ∧ Kept p t' roots' b ∧ Matched t t' roots roots' a b)
      (Order.orderRoots (ordered p t) roots) (Order.orderRoots (ordered p t') roots') := by
  have hperm : (roots.map fun id => ((ordered p t).getD id default).identity).Perm
      (roots'.map fun id => ((ordered p t').getD id default).identity) := by
    simp only [identity_ordered]
    exact h.rootIdentities
  apply forall₂_of_map_eq (Order.identities_orderRoots_congr hperm)
  intro root hroot root' hroot' heq
  rw [identity_ordered, identity_ordered] at heq
  have hkept : Kept p t roots root := .root hroot
  have hkept' : Kept p t' roots' root' := .root hroot'
  exact ⟨hkept, hkept', hkept.reachable, hkept'.reachable, heq⟩

theorem marks_matched (hab : Matched t t' roots roots' a b) :
    (surveyed p t roots).getD a .unseen = (surveyed p t' roots').getD b .unseen :=
  Survey.run_alike h.alike ((roots_matched h).imp fun _ _ hroot => hroot.2.2) hab

theorem facts_matched (hab : Matched t t' roots roots' a b) :
    Survey.factsOf (surveyed p t roots) a = Survey.factsOf (surveyed p t' roots') b := by
  rw [Survey.factsOf, Survey.factsOf, marks_matched h hab]

/-- A node that is kept matches one that is. -/
theorem exists_kept_matched (ha : Kept p t roots a) : ∃ b, Kept p t' roots' b ∧ Matched t t' roots roots' a b := by
  obtain ⟨b, hab⟩ := h.exists_matched ha.reachable
  obtain ⟨facts, hdone⟩ := (done_iff_kept h.rooted).mpr ha
  exact ⟨b, (done_iff_kept h.rooted').mp ⟨facts, (marks_matched h hab).symm.trans hdone⟩, hab⟩

theorem finish_identity_imp {x : Identity}
    (hx : ∃ id < (finish p t roots tokens offset).size, ((finish p t roots tokens offset).node id).identity = x) :
    ∃ id < (finish p t' roots' tokens offset).size, ((finish p t' roots' tokens offset).node id).identity = x := by
  obtain ⟨n, hn, rfl⟩ := hx
  obtain ⟨a, ha, rfl⟩ := exists_kept h.rooted hn
  obtain ⟨b, hb, hab⟩ := exists_kept_matched h ha
  refine ⟨finishedId p t' roots' b, finishedId_lt h.rooted' hb, ?_⟩
  rw [identity_finish h.rooted' hb, identity_finish h.rooted ha, hab.identity]

theorem finish_any_imp {test : Facts → Bool} (hany : (finish p t roots tokens offset).facts.any test = true) :
    (finish p t' roots' tokens offset).facts.any test = true := by
  obtain ⟨a, ha, htest⟩ := (any_facts_finish h.rooted).mp hany
  obtain ⟨b, hb, hab⟩ := exists_kept_matched h ha
  refine (any_facts_finish h.rooted').mpr ⟨b, hb, ?_⟩
  rwa [← facts_matched h hab]

theorem finish_roots : List.Forall₂
    (fun root root' =>
      ((finish p t roots tokens offset).node root).identity = ((finish p t' roots' tokens offset).node root').identity ∧
        (finish p t roots tokens offset).factsOf root = (finish p t' roots' tokens offset).factsOf root')
    (finish p t roots tokens offset).roots (finish p t' roots' tokens offset).roots := by
  rw [roots_finish h.rooted, roots_finish h.rooted', List.forall₂_map_left_iff, List.forall₂_map_right_iff]
  refine (roots_matched h).imp fun a b ⟨ha, hb, hab⟩ => ⟨?_, ?_⟩
  · rw [identity_finish h.rooted ha, identity_finish h.rooted' hb, hab.identity]
  · rw [factsOf_finish h.rooted ha, factsOf_finish h.rooted' hb, facts_matched h hab]

/-- Nodes of equal identity in the finished forests come from matching nodes. -/
theorem exists_matched_of_finished {n n' : NodeId} (hn : n < (finish p t roots tokens offset).size)
    (hn' : n' < (finish p t' roots' tokens offset).size)
    (heq : ((finish p t roots tokens offset).node n).identity =
      ((finish p t' roots' tokens offset).node n').identity) :
    ∃ a b, Kept p t roots a ∧ Kept p t' roots' b ∧ Matched t t' roots roots' a b ∧
      finishedId p t roots a = n ∧ finishedId p t' roots' b = n' := by
  obtain ⟨a, ha, rfl⟩ := exists_kept h.rooted hn
  obtain ⟨b, hb, rfl⟩ := exists_kept h.rooted' hn'
  rw [identity_finish h.rooted ha, identity_finish h.rooted' hb] at heq
  exact ⟨a, b, ha, hb, ⟨ha.reachable, hb.reachable, heq⟩, rfl, rfl⟩

end

/-- Tables with the same content below their roots become forests with the same content. -/
theorem finish_sameContent (h : t.SameBelow t' roots roots') :
    (finish p t roots tokens offset).SameContent (finish p t' roots' tokens offset) where
  tokens := rfl
  offset := rfl
  distinct := finish_distinct h.rooted
  distinct' := finish_distinct h.rooted'
  identities x := ⟨finish_identity_imp h, finish_identity_imp h.symm⟩
  families := by
    intro n n' hn hn' heq
    obtain ⟨a, b, ha, hb, hab, rfl, rfl⟩ := exists_matched_of_finished h hn hn' heq
    rw [familyKeys_finish h.rooted ha, familyKeys_finish h.rooted' hb, h.familyKeys_ordered hab]
  facts := by
    intro n n' hn hn' heq
    obtain ⟨a, b, ha, hb, hab, rfl, rfl⟩ := exists_matched_of_finished h hn hn' heq
    rw [factsOf_finish h.rooted ha, factsOf_finish h.rooted' hb, facts_matched h hab]
  roots := map_eq_of_forall₂ (finish_roots h) fun _ _ hroot => hroot.1
  ambiguous := by
    have hany : ∀ test, (finish p t roots tokens offset).facts.any test =
        (finish p t' roots' tokens offset).facts.any test :=
      fun test => Bool.eq_iff_iff.mpr ⟨finish_any_imp h, finish_any_imp h.symm⟩
    simp only [isAmbiguous, (finish_roots h).length_eq, hany]
  infinite := Bool.eq_iff_iff.mpr ⟨finish_any_imp h, finish_any_imp h.symm⟩
  total := by
    refine foldl_eq_of_forall₂ (finish_roots h) (fun sum root root' hroot => ?_) 0
    simp only [count, hroot.2]

end Forest
end ContextFree
