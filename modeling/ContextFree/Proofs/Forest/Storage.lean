-- SUMMARY: Storage of nodes under any sequence of requests: lookup, numbers and facts, before and after finishing.
import ContextFree.Proofs.Forest.Renumbering
import ContextFree.Proofs.Forest.Tables

/-!
# Storage of nodes

Requests give out the numbers of nodes, and later requests use numbers given out before. Whatever their sequence, the
numbers given out are those of the nodes, lookup and nodes say the same, and families name nodes. Finishing drops nodes
and numbers the others anew. Lookup and nodes still say the same, and each fact stands with the node that it was found
out for.
-/
namespace ContextFree

variable {α : Type} {p : Prepared α} {t : NodeTable}

theorem Family.mem_children_ofPair {before? : Option NodeId} {child node : NodeId} :
    node ∈ (Family.ofPair before? (some child)).children ↔ node ∈ before? ∨ node = child := by
  cases before? <;> simp [ofPair, children, eq_comm]

namespace NodeTable

/-! ## Sequences of requests -/

/-- The tables that requests lead to, and the numbers that were given out on the way. A request may use any of these. -/
inductive Issued (p : Prepared α) : NodeTable → List NodeId → Prop where
  | empty : Issued p {} []
  | intern {t : NodeTable} {issued : List NodeId} (x : Identity) :
      Issued p t issued → Issued p (t.intern x).2 ((t.intern x).1 :: issued)
  | addFamily {t : NodeTable} {issued : List NodeId} {id : NodeId} {family : Family} :
      Issued p t issued → id ∈ issued → (∀ child ∈ family.children, child ∈ issued) →
      Issued p (t.addFamily id family) issued
  | recordStep {t : NodeTable} {issued : List NodeId} {before? : Option NodeId} {child : NodeId} (state : StateId)
      (left right : Nat) : Issued p t issued → (∀ before ∈ before?, before ∈ issued) → child ∈ issued →
      Issued p (t.recordStep p state left right before? child).2
        ((t.recordStep p state left right before? child).1 :: issued)

theorem lt_size_intern_iff (ht : t.Consistent) (x : Identity) (id : NodeId) :
    id < (t.intern x).2.size ↔ id = (t.intern x).1 ∨ id < t.size := by
  cases hfind : t.find? x with
  | some found =>
    rw [intern_of_some hfind]
    exact ⟨.inr, fun h => h.elim (fun heq => heq ▸ (ht.find_iff.mp hfind).1) fun hlt => hlt⟩
  | none =>
    rw [(intern_appended hfind).size_eq, intern_of_none hfind, Nat.lt_succ_iff_lt_or_eq, or_comm]

/-- The numbers given out are those of the nodes, whatever the requests. -/
theorem Issued.spec {issued : List NodeId} (h : t.Issued p issued) : t.Built ∧ ∀ {id}, id ∈ issued ↔ id < t.size := by
  induction h with
  | empty => exact ⟨.empty, by simp [size]⟩
  | intern x _ ih =>
    obtain ⟨hbuilt, hissued⟩ := ih
    refine ⟨.intern x hbuilt, fun {id} => ?_⟩
    rw [List.mem_cons, hissued, lt_size_intern_iff hbuilt.consistent]
  | addFamily _ hid hchildren ih =>
    obtain ⟨hbuilt, hissued⟩ := ih
    refine ⟨.addFamily hbuilt (hissued.mp hid) fun child hchild => hissued.mp (hchildren child hchild), fun {id} => ?_⟩
    rw [size_addFamily, hissued]
  | @recordStep t issued before? child state left right _ hbefore hchild ih =>
    obtain ⟨hbuilt, hissued⟩ := ih
    rcases t.recordStep_cases p state left right before? child with heq | ⟨label, heq⟩
    · rw [heq]
      refine ⟨hbuilt, fun {id} => ?_⟩
      rw [List.mem_cons, hissued]
      exact or_iff_right_of_imp fun h => h ▸ hissued.mp hchild
    · rw [heq]
      have hnew := lt_size_intern_iff hbuilt.consistent ⟨label, left, right⟩
      have hchildren : ∀ node ∈ (Family.ofPair before? (some child)).children,
          node < (t.intern ⟨label, left, right⟩).2.size := by
        intro node hnode
        refine (hnew node).mpr (.inr (hissued.mp ?_))
        rcases Family.mem_children_ofPair.mp hnode with hbefore' | rfl
        · exact hbefore node hbefore'
        · exact hchild
      refine ⟨.addFamily (.intern _ hbuilt) ((hnew _).mpr (.inl rfl)) hchildren, fun {id} => ?_⟩
      rw [List.mem_cons, hissued, size_addFamily, hnew]

theorem Built.issued (p : Prepared α) (h : t.Built) : ∃ issued, t.Issued p issued := by
  induction h with
  | empty => exact ⟨[], .empty⟩
  | intern x _ ih =>
    obtain ⟨issued, hissued⟩ := ih
    exact ⟨_, .intern x hissued⟩
  | addFamily _ hid hchildren ih =>
    obtain ⟨issued, hissued⟩ := ih
    have hmem : ∀ {id}, id ∈ issued ↔ id < _ := hissued.spec.2
    exact ⟨issued, .addFamily hissued (hmem.mpr hid) fun child hchild => hmem.mpr (hchildren child hchild)⟩

/-! ## Lookup -/

/-- Lookup finds exactly the nodes, no two nodes share an identity, and the children of families are nodes. -/
structure Coherent (t : NodeTable) : Prop where
  find_iff : ∀ x id, t.find? x = some id ↔ id < t.size ∧ (t.node id).identity = x
  distinct : ∀ a < t.size, ∀ b < t.size, (t.node a).identity = (t.node b).identity → a = b
  child_lt : ∀ id < t.size, ∀ family ∈ (t.node id).families, ∀ child ∈ family.children, child < t.size

theorem Consistent.coherent (h : t.Consistent) : t.Coherent where
  find_iff _ _ := h.find_iff
  distinct _ ha _ hb heq := h.identity_injective ha hb heq
  child_lt _ _ _ hfamily _ hchild := h.child_lt hfamily hchild

/-- An index made of nodes finds them if their identities tell them apart. -/
theorem find_ofNodes {nodes : Array Node}
    (hdistinct : ∀ a < nodes.size, ∀ b < nodes.size,
      (nodes.getD a default).identity = (nodes.getD b default).identity → a = b) (x : Identity) (id : NodeId) :
    (ofNodes nodes).find? x = some id ↔ id < nodes.size ∧ (nodes.getD id default).identity = x := by
  -- The index of the first `n` nodes, by induction on `n`: a node added last is found first.
  suffices hupTo : ∀ n ≤ nodes.size, ((List.range n).foldl
      (fun index id => index.insert (nodes.getD id default).identity id) (∅ : Std.TreeMap Identity NodeId))[x]? = some id ↔
        id < n ∧ (nodes.getD id default).identity = x from hupTo nodes.size (Nat.le_refl _)
  intro n hn
  induction n with
  | zero => simp
  | succ n ih =>
    rw [List.range_succ, List.foldl_append, List.foldl_cons, List.foldl_nil, getElem?_insert_eq]
    split
    · rename_i heq
      constructor
      · intro hid
        obtain rfl := Option.some.inj hid
        exact ⟨Nat.lt_succ_self _, heq⟩
      · rintro ⟨hid, hx⟩
        rw [hdistinct id (Nat.lt_of_lt_of_le hid hn) n hn (hx.trans heq.symm)]
    · rename_i hne
      rw [ih (Nat.le_of_succ_le hn), Nat.lt_succ_iff_lt_or_eq]
      constructor
      · exact fun ⟨hid, hx⟩ => ⟨.inl hid, hx⟩
      · rintro ⟨hid | rfl, hx⟩
        · exact ⟨hid, hx⟩
        · exact absurd hx hne

end NodeTable

namespace Forest

variable {roots : List NodeId} {tokens : Array α} {offset : Nat}

theorem coherent_finish (ht : t.Rooted roots) : (finish p t roots tokens offset).table.Coherent := by
  have hdistinct : ∀ a < (finish p t roots tokens offset).size, ∀ b < (finish p t roots tokens offset).size,
      ((finish p t roots tokens offset).node a).identity = ((finish p t roots tokens offset).node b).identity → a = b :=
    fun _ ha _ hb heq => finish_distinct ht ha hb heq
  exact ⟨NodeTable.find_ofNodes hdistinct, hdistinct, fun _ hid => (wellFormed_finish ht).child_lt hid⟩

/-! ## Facts -/

/-- What the survey found out about a node of the table stands with the node of the same identity. -/
theorem exists_surveyed (ht : t.Rooted roots) {n : NodeId} (hn : n < (finish p t roots tokens offset).size) :
    ∃ id < t.size, (t.node id).identity = ((finish p t roots tokens offset).node n).identity ∧
      (surveyed p t roots).getD id .unseen = .done ((finish p t roots tokens offset).factsOf n) ∧
      familyKeys (ordered p t) id = familyKeys (finish p t roots tokens offset).table.nodes n := by
  obtain ⟨id, hid, rfl⟩ := exists_kept ht hn
  obtain ⟨facts, hdone⟩ := (done_iff_kept ht).mpr hid
  refine ⟨id, reachable_lt ht hid.reachable, (identity_finish ht hid).symm, ?_, (familyKeys_finish ht hid).symm⟩
  rw [factsOf_finish ht hid, Survey.factsOf, hdone]
  rfl

theorem exists_finished (ht : t.Rooted roots) {id : NodeId} {facts : Facts}
    (hdone : (surveyed p t roots).getD id .unseen = .done facts) :
    ∃ n < (finish p t roots tokens offset).size, ((finish p t roots tokens offset).node n).identity = (t.node id).identity ∧
      (finish p t roots tokens offset).factsOf n = facts := by
  have hid : Kept p t roots id := (done_iff_kept ht).mp ⟨facts, hdone⟩
  refine ⟨finishedId p t roots id, finishedId_lt ht hid, identity_finish ht hid, ?_⟩
  rw [factsOf_finish ht hid, Survey.factsOf, hdone]
  rfl

/-- Storage is coherent after any requests, and no node lists a family twice. It is coherent again after finishing with any
roots. Then every node is below a root, the roots are those given, and there is one record of facts for every node: the one
that the survey made for the node of that identity, when its families stood in the same order. No record of the survey is
lost, and each loop that a record names by position is a family of the node. -/
theorem storage_coherent {issued : List NodeId} (h : t.Issued p issued) (hroots : ∀ root ∈ roots, root ∈ issued)
    (tokens : Array α) (offset : Nat) :
    let f := finish p t roots tokens offset
    t.Coherent ∧ (∀ id, (t.node id).families.toList.Nodup) ∧
    f.table.Coherent ∧
    (∀ n < f.size, Reachable f.table.nodes f.roots n) ∧
    (∀ root ∈ f.roots, root < f.size) ∧
    (f.roots.map fun root => (f.node root).identity).Perm (roots.map fun root => (t.node root).identity) ∧
    f.facts.size = f.size ∧
    (∀ n < f.size, ∃ id < t.size, (t.node id).identity = (f.node n).identity ∧
      (surveyed p t roots).getD id .unseen = .done (f.factsOf n) ∧
      familyKeys (ordered p t) id = familyKeys f.table.nodes n) ∧
    (∀ id facts, (surveyed p t roots).getD id .unseen = .done facts →
      ∃ n < f.size, (f.node n).identity = (t.node id).identity ∧ f.factsOf n = facts) ∧
    (∀ n < f.size, ∀ i ∈ (f.factsOf n).loops, i < (f.node n).families.size) := by
  intro f
  obtain ⟨hbuilt, hissued⟩ := h.spec
  have ht : t.Rooted roots := ⟨hbuilt.consistent, fun root hroot => hissued.mp (hroots root hroot)⟩
  refine ⟨hbuilt.consistent.coherent, hbuilt.consistent.nodup, coherent_finish ht, fun n hn => reachable_finish ht hn,
    (wellFormed_finish ht).root_lt, perm_roots_finish ht tokens offset, facts_size_finish ht,
    fun n hn => exists_surveyed ht hn, fun id facts hdone => exists_finished ht hdone, fun n hn i hi => ?_⟩
  obtain ⟨family, hfamily, -⟩ := (settled_finish ht tokens offset).exists_loop hn hi
  exact (Array.getElem?_eq_some_iff.mp hfamily).1

end Forest

namespace Sample

/-- The reversed table of the knot after one more step: `A` over two letters, which nothing reaches. -/
def knotTableStepped : NodeTable :=
  (knotTableReversed.recordStep knot (knot.states.completed 3 1) 0 2 none 2).2

theorem issued_knotTableStepped : ∃ issued, knotTableStepped.Issued knot issued := by
  obtain ⟨issued, h⟩ := built_knotTableReversed.issued knot
  have hchild : 2 ∈ issued := h.spec.2.mpr (by decide +kernel)
  exact ⟨_, .recordStep _ 0 2 h (by simp) hchild⟩

end Sample

namespace Forest

/-- Two of seven nodes are dropped, so that three of the others get new numbers. `B` has the number of a node that is
gone; its only family is a loop. -/
theorem storage_coherent_stepped :
    let t := Sample.knotTableStepped
    let f := finish Sample.knot t [5, 3, 5] #['a'] 0
    (∃ issued, t.Issued Sample.knot issued ∧ ∀ root ∈ [5, 3, 5], root ∈ issued) ∧
    t.size = 7 ∧ t.find? (Sample.upTo 2 (.nonterminal 1)) = some 6 ∧
    (f.size, f.roots) = (5, [4, 4, 2]) ∧ (f.node 2).identity = Sample.upTo 1 (.nonterminal 2) ∧
    (f.factsOf 2).loops = [0] ∧ f.find? (Sample.upTo 2 (.nonterminal 1)) = none ∧
    (∀ x id, f.find? x = some id ↔ id < f.size ∧ (f.node id).identity = x) ∧
    (∃ id < t.size, (t.node id).identity = Sample.upTo 1 (.nonterminal 2) ∧
      (surveyed Sample.knot t [5, 3, 5]).getD id .unseen = .done (f.factsOf 2)) := by
  intro t f
  obtain ⟨issued, h⟩ := Sample.issued_knotTableStepped
  have hroots : ∀ root ∈ [5, 3, 5], root ∈ issued := fun root hroot =>
    h.spec.2.mpr ((show ∀ root ∈ [5, 3, 5], root < Sample.knotTableStepped.size by decide +kernel) root hroot)
  have hidentity : (f.node 2).identity = Sample.upTo 1 (.nonterminal 2) := by decide +kernel
  obtain ⟨-, -, hcoherent, -, -, -, -, hfacts, -⟩ := storage_coherent h hroots #['a'] 0
  obtain ⟨id, hid, heq, hdone, -⟩ := hfacts 2 (by decide +kernel)
  exact ⟨⟨issued, h, hroots⟩, by decide +kernel, by decide +kernel, by decide +kernel, hidentity, by decide +kernel,
    by decide +kernel, hcoherent.find_iff, id, hid, heq.trans hidentity, hdone⟩

end Forest
end ContextFree
