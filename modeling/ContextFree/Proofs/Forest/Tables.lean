-- SUMMARY: Finishing any table that was built node by node: only its content matters, loops cut all cycles, counts add up.
import ContextFree.Proofs.Forest.Content
import ContextFree.Proofs.Forest.Settled
import ContextFree.Proofs.Recognition

/-!
# Finishing built tables

A table is built if it comes from the empty one by requests for nodes and new families. It need not be the table of any run:
its families may form any graph, spans need not add up, and nodes may be out of reach. Finishing still depends on
nothing but the content below the roots, and what it says about loops and counts fits the forest that it leaves.
-/
namespace ContextFree

variable {α : Type} {p : Prepared α} {t t' : NodeTable} {roots roots' : List NodeId}

/-- The tables that the operations lead to. Families are given to nodes of the table and name nodes of the table. -/
inductive NodeTable.Built : NodeTable → Prop where
  | empty : Built {}
  | intern {t : NodeTable} (identity : Identity) : Built t → Built (t.intern identity).2
  | addFamily {t : NodeTable} {id : NodeId} {family : Family} :
      Built t → id < t.size → (∀ child ∈ family.children, child < t.size) → Built (t.addFamily id family)

/-- Every built table is consistent. -/
theorem NodeTable.Built.consistent (h : t.Built) : t.Consistent := by
  induction h with
  | empty => exact consistent_empty
  | intern identity _ ih => exact (intern_adds ih identity).consistent
  | addFamily _ hid hlt ih => exact (addFamily_adds ih hid hlt).consistent

namespace Sample

/-- Nodes of these identities with these families. -/
def table (identities : List Identity) (families : List (NodeId × Family)) : NodeTable :=
  families.foldl (fun t (id, family) => t.addFamily id family) (identities.foldl (fun t x => (t.intern x).2) {})

theorem built_table {identities : List Identity} {families : List (NodeId × Family)}
    (h : ∀ x ∈ families, x.1 < (table identities []).size ∧ ∀ child ∈ x.2.children, child < (table identities []).size) :
    (table identities families).Built := by
  have hnodes : (table identities []).Built :=
    List.foldlRecOn (motive := NodeTable.Built) identities _ .empty fun t ht x _ => .intern x ht
  -- New families leave the number of nodes as it is.
  refine (List.foldlRecOn (motive := fun t : NodeTable => t.Built ∧ t.size = (table identities []).size) families _
    ⟨hnodes, rfl⟩ fun t ⟨ht, hsize⟩ x hx => ?_).1
  obtain ⟨hid, hchildren⟩ := h x hx
  rw [← hsize] at hid hchildren
  exact ⟨.addFamily ht hid hchildren, (NodeTable.size_addFamily t x.1 x.2).trans hsize⟩

/-- `S → A | B | E 'a'`, `A → 'a' | B`, `B → A` and `E → E | ε`. -/
def knot : Prepared Char :=
  prepare [(0, [.nonterminal 1]), (0, [.nonterminal 2]), (0, [.nonterminal 3, .terminal 0]), (1, [.terminal 0]),
    (1, [.nonterminal 2]), (2, [.nonterminal 1]), (3, [.nonterminal 3]), (3, [])]

/-- The identity of a symbol over the first tokens. -/
def upTo (stop : Nat) (symbol : Symbol) : Identity := ⟨.symbol symbol, 0, stop⟩

/-- `S`, `A`, `B` and `'a'` over a letter, and `E` over nothing. -/
def knotTable : NodeTable :=
  table [upTo 1 (.nonterminal 0), upTo 1 (.nonterminal 1), upTo 1 (.nonterminal 2), upTo 1 (.terminal 0),
      upTo 0 (.nonterminal 3)]
    [(0, .unary 2), (0, .unary 1), (0, .binary 4 3), (1, .unary 2), (1, .unary 3), (2, .unary 1), (4, .unary 4),
      (4, .nothing)]

/-- The same nodes and families in the opposite order, with one more node out of reach. -/
def knotTableReversed : NodeTable :=
  table [upTo 0 (.nonterminal 3), upTo 1 (.terminal 0), upTo 2 (.terminal 0), upTo 1 (.nonterminal 2),
      upTo 1 (.nonterminal 1), upTo 1 (.nonterminal 0)]
    [(0, .nothing), (0, .unary 0), (3, .unary 4), (4, .unary 1), (4, .unary 3), (5, .binary 0 1), (5, .unary 4),
      (5, .unary 3), (2, .binary 5 5)]

theorem built_knotTable : knotTable.Built :=
  built_table (by decide +kernel)

theorem built_knotTableReversed : knotTableReversed.Built :=
  built_table (by decide +kernel)

end Sample

namespace Forest

/-! ## Content -/

/-- Finishing depends on content only. Take two tables with the same root identities, where nodes of equal identity below
the roots have the same families by identity. Apart from the tokens and the offset that they are given, their forests
differ in the numbers of the nodes at most. -/
theorem finish_content_only (ht : t.Built) (ht' : t'.Built) (hroots : ∀ root ∈ roots, root < t.size)
    (hroots' : ∀ root ∈ roots', root < t'.size)
    (hidentities : (roots.map fun root => (t.node root).identity).Perm (roots'.map fun root => (t'.node root).identity))
    (hfamilies : ∀ a b, Reachable t.nodes roots a → Reachable t'.nodes roots' b →
      (t.node a).identity = (t'.node b).identity → ∀ key, key ∈ familyKeys t.nodes a ↔ key ∈ familyKeys t'.nodes b)
    (tokens tokens' : Array α) (offset offset' : Nat) :
    (finish p t roots tokens offset).SameContent { finish p t' roots' tokens' offset' with tokens, offset } := by
  have hbelow : t.SameBelow t' roots roots' :=
    ⟨⟨ht.consistent, hroots⟩, ⟨ht'.consistent, hroots'⟩, hidentities, hfamilies _ _⟩
  exact finish_sameContent hbelow

/-- The two tables of the knot become one forest of three trees, numbered in two ways. -/
theorem finish_content_only_knot :
    let f := finish Sample.knot Sample.knotTable [0] #['a'] 0
    let f' := finish Sample.knot Sample.knotTableReversed [5] #['b', 'c'] 5
    Sample.knotTable.Built ∧ Sample.knotTableReversed.Built ∧ (f.total, f.roots, f'.roots) = (3, [0], [4]) ∧
    f.SameContent { f' with tokens := #['a'], offset := 0 } := by
  have hroots : ∀ root ∈ [0], root < Sample.knotTable.size := by decide +kernel
  have hroots' : ∀ root ∈ [5], root < Sample.knotTableReversed.size := by decide +kernel
  have hrooted : Sample.knotTable.Rooted [0] := ⟨Sample.built_knotTable.consistent, hroots⟩
  have hrooted' : Sample.knotTableReversed.Rooted [5] := ⟨Sample.built_knotTableReversed.consistent, hroots'⟩
  have hkeys : ∀ a < Sample.knotTable.size, ∀ b < Sample.knotTableReversed.size,
      (Sample.knotTable.node a).identity = (Sample.knotTableReversed.node b).identity →
        (familyKeys Sample.knotTable.nodes a).Perm (familyKeys Sample.knotTableReversed.nodes b) := by decide +kernel
  refine ⟨Sample.built_knotTable, Sample.built_knotTableReversed, by decide +kernel, ?_⟩
  exact finish_content_only Sample.built_knotTable Sample.built_knotTableReversed hroots hroots' (by decide +kernel)
    (fun a b ha hb heq key => (hkeys a (reachable_lt hrooted ha) b (reachable_lt hrooted' hb) heq).mem_iff) _ _ _ _

/-! ## Loops and counts -/

/-- The roots keep their identities. -/
theorem perm_roots_finish (ht : t.Rooted roots) (tokens : Array α) (offset : Nat) :
    ((finish p t roots tokens offset).roots.map fun root => ((finish p t roots tokens offset).node root).identity).Perm
      (roots.map fun root => (t.node root).identity) := by
  rw [roots_finish ht, List.map_map]
  have hidentities : (Order.orderRoots (ordered p t) roots).map
      ((fun root => ((finish p t roots tokens offset).node root).identity) ∘ finishedId p t roots) =
      (Order.orderRoots (ordered p t) roots).map fun root => (t.node root).identity :=
    List.map_congr_left fun root hroot => identity_finish ht (.root hroot)
  rw [hidentities]
  exact (Order.perm_sortByKey _ roots).map _

theorem total_eq_sum (f : Forest α) : f.total = (f.roots.map f.count).sum := by
  rw [total, List.sum_eq_foldl, List.foldl_map]

/-- Loops cut every cycle of a finished forest, and no family is a loop for nothing. The count of a node without families is
one, and the other counts follow from those of the children of the families that are no loops, where a node over no
input counts one more for its loops. The total is the sum over the roots, which are those that were given. -/
theorem finish_counts (ht : t.Built) (hroots : ∀ root ∈ roots, root < t.size) (tokens : Array α) (offset : Nat) :
    let f := finish p t roots tokens offset
    (∀ id < f.size, ¬ Relation.TransGen f.Leads id id) ∧
    (∀ id < f.size, ∀ i, f.isLoop id i = true → ∃ family, (f.node id).families[i]? = some family ∧
      ∃ child ∈ family.children, Reachable f.table.nodes [child] id) ∧
    (∀ id < f.size, f.count id =
      if (f.node id).families = #[] then 1
      else ((f.forward id).map fun family => (family.children.map f.count).prod).sum +
        if (f.factsOf id).loops ≠ [] ∧ (f.node id).isEmpty = true then 1 else 0) ∧
    f.total = (f.roots.map f.count).sum ∧
    (f.roots.map fun root => (f.node root).identity).Perm (roots.map fun root => (t.node root).identity) := by
  intro f
  have hrooted : t.Rooted roots := ⟨ht.consistent, hroots⟩
  have hsettled : f.Settled := settled_finish hrooted tokens offset
  refine ⟨fun id hid => hsettled.leads_irrefl hid, fun id hid i hloop => ?_, fun id hid => ?_, f.total_eq_sum,
    perm_roots_finish hrooted tokens offset⟩
  · exact hsettled.exists_loop hid (List.contains_iff_mem.mp hloop)
  · split
    · rename_i hempty
      exact hsettled.count_of_empty hid hempty
    · rename_i hne
      exact hsettled.count_eq hid hne

/-- `B` is met on the way from `A`, so its family is a loop and nothing is left to count. `E` has no input, and its loop counts
next to its empty family. That leaves three derivations of `S`: one through `A`, none through `B`, two through `E`. -/
theorem finish_counts_knot :
    let f := finish Sample.knot Sample.knotTable [2, 0] #['a'] 0
    Sample.knotTable.Built ∧ f.roots = [0, 2] ∧ (List.range f.size).map f.count = [3, 1, 0, 1, 2] ∧ f.isLoop 2 0 = true ∧
    (∃ family, (f.node 2).families[0]? = some family ∧ ∃ child ∈ family.children, Reachable f.table.nodes [child] 2) ∧
    ¬ Relation.TransGen f.Leads 2 2 ∧ f.total = (f.roots.map f.count).sum := by
  intro f
  have hroots : ∀ root ∈ [2, 0], root < Sample.knotTable.size := by decide +kernel
  have hlt : 2 < f.size := by decide +kernel
  have hloop : f.isLoop 2 0 = true := by decide +kernel
  obtain ⟨hacyclic, hback, -, htotal, -⟩ := finish_counts Sample.built_knotTable hroots #['a'] 0
  exact ⟨Sample.built_knotTable, by decide +kernel, by decide +kernel, hloop, hback 2 hlt 0 hloop, hacyclic 2 hlt, htotal⟩

end Forest
end ContextFree
