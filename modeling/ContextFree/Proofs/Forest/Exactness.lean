-- SUMMARY: The finished forest of a run: it is settled, and its families are the ways to derive its nodes.
import ContextFree.Proofs.Divisions
import ContextFree.Proofs.Forest.Agreement
import ContextFree.Proofs.Forest.Settled

/-!
# Exact forests

If a table was exact, the families of a node of the finished forest are the ways to derive it, less the children that
were trimmed, and each of these has one derivation and covers no input. `Forest.Exact` says this of a settled forest
without mention of the table that it came from.
-/
namespace ContextFree

variable {α : Type}

/-! ## Tables with all ways -/

variable [DecidableEq α] {p : Prepared α} {tokens : Array α} {t : NodeTable} {id root : NodeId} {stop : Nat}

namespace NodeTable

/-- The number of derivations of a node, from the numbers for its children. -/
theorem ExactAt.encard_treesOf (hp : p.Regular) (h : t.ExactAt p tokens id)
    (hinner : (t.node id).label.isTerminal = false) :
    (p.treesOf tokens (t.node id).identity).encard =
      ((familyKeys t.nodes id).map fun key => (key.map fun y => (p.treesOf tokens y).encard).prod).sum := by
  cases hidentity : (t.node id).identity with
  | mk label i j =>
    rw [Node.label, hidentity] at hinner
    cases label with
    | symbol s =>
      cases s with
      | terminal a => simp [Label.isTerminal, Symbol.isTerminal] at hinner
      | nonterminal A =>
        obtain ⟨ways, hnodup, hways, hkeys⟩ := h.nonterminal hidentity
        rw [Prepared.encard_treesOf_nonterminal hp hnodup hways, hkeys, List.map_map]
        rfl
    | state slot =>
      obtain ⟨rule, before, after, hdot, -, -, pivots, hnodup, hpivots, hkeys⟩ := h.state hidentity
      rw [Prepared.encard_treesOf_state hp hdot hnodup hpivots, hkeys, List.map_map]
      rfl

/-- A node without extent is no terminal. -/
theorem ExactAt.inner_of_isEmpty (h : t.ExactAt p tokens id) (hempty : (t.node id).isEmpty = true) :
    (t.node id).label.isTerminal = false := by
  cases hidentity : (t.node id).identity with
  | mk label i j =>
    match label with
    | .symbol (.terminal a) =>
      have hlt := (h.terminal hidentity).2.1
      rw [Node.isEmpty, hidentity, Identity.isEmpty, beq_iff_eq] at hempty
      exact absurd hempty (Nat.ne_of_lt hlt)
    | .symbol (.nonterminal A) => rw [Node.label, hidentity]; rfl
    | .state slot => rw [Node.label, hidentity]; rfl

/-- A pure node has exactly one derivation. -/
theorem Exact.encard_of_pure (hp : p.Regular) (h : t.Exact p tokens stop root) (hpure : Trim.Pure p t.nodes id)
    (hreach : Reachable t.nodes [root] id) : (p.treesOf tokens (t.node id).identity).encard = 1 := by
  induction hpure with
  | @intro id family hempty hprunable hfamily hchildren ih =>
    have hexact := h.exactAt hp hreach
    have hmem : family ∈ (t.nodes.getD id default).families := by
      rw [hfamily]
      exact Array.mem_singleton.mpr rfl
    have hones : ∀ child ∈ family.children, (p.treesOf tokens (t.node child).identity).encard = 1 :=
      fun child hchild => ih child hchild (.child hreach hmem hchild)
    rw [hexact.encard_treesOf hp (hexact.inner_of_isEmpty hempty), familyKeys, hfamily]
    simp only [List.map_cons, List.map_nil, List.sum_cons, List.sum_nil, add_zero, familyKey_eq, List.map_map]
    exact List.prod_eq_one fun n hn => by
      obtain ⟨child, hchild, rfl⟩ := List.mem_map.mp hn
      exact hones child hchild

end NodeTable

/-! ## Exact forests -/

open Classical in
/-- The forest is settled and has the start symbol over all its tokens at the root. The families of a node are the ways to
derive it over `tokens`, without the trimmed children; these cover no input and have one derivation. -/
structure Forest.Exact (f : Forest α) (tokens : Array α) (trimmed : Identity → Prop) : Prop extends f.Settled where
  regular : f.grammar.Regular
  root : ∃ root, f.roots = [root] ∧ root < f.size ∧
    (f.node root).identity = ⟨.symbol (.nonterminal f.grammar.start), 0, f.tokens.size⟩
  tokens_eq : f.tokens = tokens.extract 0 f.tokens.size
  derived : ∀ {id}, id < f.size → Derived f.grammar tokens (f.node id).identity
  ways : ∀ {id}, id < f.size → ∃ keys : List (List Identity),
    (∀ key, key ∈ keys ↔ Way f.grammar tokens (f.node id).identity key) ∧
    ((f.node id).label.isTerminal = false → (f.grammar.treesOf tokens (f.node id).identity).encard =
      (keys.map fun key => (key.map fun y => (f.grammar.treesOf tokens y).encard).prod).sum) ∧
    (familyKeys f.table.nodes id).Perm (keys.map (·.filter fun y => !decide (trimmed y)))
  trimmed_empty : ∀ {y}, trimmed y → y.left = y.right
  trimmed_single : ∀ {y}, trimmed y → (f.grammar.treesOf tokens y).encard = 1

open NodeTable.SameBelow (PureIdentity)

/-- An exact table becomes an exact forest. -/
theorem NodeTable.Exact.finish (hp : p.Regular) (h : t.Exact p tokens stop root) (hstop : stop ≤ tokens.size) (offset : Nat) :
    (Forest.finish p t [root] (tokens.extract 0 stop) offset).Exact tokens (PureIdentity p t [root]) where
  regular := hp
  root := by
    have hmem : root ∈ Order.orderRoots (Forest.ordered p t) [root] :=
      Order.mem_orderRoots.mpr (List.mem_singleton.mpr rfl)
    refine ⟨Forest.finishedId p t [root] root, ?_, Forest.finishedId_lt h.rooted (.root hmem), ?_⟩
    · rw [Forest.roots_finish h.rooted]
      rfl
    · rw [Forest.identity_finish h.rooted (.root hmem), h.root_identity.2]
      simp [Forest.finish, hstop]
  tokens_eq := by simp [Forest.finish, hstop]
  toSettled := Forest.settled_finish h.rooted _ offset
  derived {n} hn := by
    obtain ⟨a, ha, rfl⟩ := Forest.exists_kept h.rooted hn
    rw [Forest.identity_finish h.rooted ha]
    exact (h.exactAt hp ha.reachable).derived
  ways {n} hn := by
    obtain ⟨a, ha, rfl⟩ := Forest.exists_kept h.rooted hn
    have hexact := h.exactAt hp ha.reachable
    obtain ⟨hlt, hrel⟩ := h.relevant hp ha.reachable
    refine ⟨familyKeys t.nodes a, ?_, ?_, ?_⟩
    · intro key
      rw [Forest.identity_finish h.rooted ha]
      exact h.hasFamily_iff hlt hrel
    · intro hinner
      rw [Node.label, Forest.identity_finish h.rooted ha] at hinner
      rw [Forest.identity_finish h.rooted ha]
      exact hexact.encard_treesOf hp hinner
    · rw [Forest.familyKeys_finish h.rooted ha, ← NodeTable.SameBelow.familyKeys_trim h.rooted ha.reachable]
      simp only [familyKeys, Forest.ordered, Order.familyKey_orderFamilies, Order.node_orderFamilies]
      exact (Order.perm_sortByKey _ _).map _
  trimmed_empty {y} hy := by
    obtain ⟨a, -, rfl, hpure⟩ := hy
    cases hpure with
    | intro hempty => exact beq_iff_eq.mp hempty
  trimmed_single {y} hy := by
    obtain ⟨a, hreach, rfl, hpure⟩ := hy
    exact h.encard_of_pure hp hpure hreach

/-! ## Families of an exact forest -/

namespace Forest

/-- The derivations of a node over the given tokens. -/
def treesAt (f : Forest α) (tokens : Array α) (id : NodeId) : Set (List DerivationTree) :=
  f.grammar.treesOf tokens (f.node id).identity

namespace Exact

variable {f : Forest α} {trimmed : Identity → Prop} {family : Family} {child : NodeId} {trees : List DerivationTree}

open Classical in
/-- Every family comes from a way to derive its node. -/
theorem exists_way (h : f.Exact tokens trimmed) (hid : id < f.size) (hfamily : family ∈ (f.node id).families) :
    ∃ key, Way f.grammar tokens (f.node id).identity key ∧
      Order.familyKey f.table.nodes family = key.filter fun y => !decide (trimmed y) := by
  obtain ⟨keys, hways, -, hperm⟩ := h.ways hid
  have hmem : Order.familyKey f.table.nodes family ∈ familyKeys f.table.nodes id :=
    List.mem_map_of_mem (Array.mem_toList_iff.mpr hfamily)
  obtain ⟨key, hkey, heq⟩ := List.mem_map.mp (hperm.mem_iff.mp hmem)
  exact ⟨key, (hways key).mp hkey, heq.symm⟩

open Classical in
/-- Every way to derive a node is one of its families. -/
theorem exists_family (h : f.Exact tokens trimmed) (hid : id < f.size) {key : List Identity}
    (hway : Way f.grammar tokens (f.node id).identity key) :
    ∃ family ∈ (f.node id).families, Order.familyKey f.table.nodes family = key.filter fun y => !decide (trimmed y) := by
  obtain ⟨keys, hways, -, hperm⟩ := h.ways hid
  have hmem := hperm.mem_iff.mpr (List.mem_map_of_mem ((hways key).mpr hway))
  obtain ⟨family, hfamily, heq⟩ := List.mem_map.mp hmem
  exact ⟨family, Array.mem_toList_iff.mp hfamily, heq⟩

open Classical in
/-- The children of a family, and those that were trimmed from it, divide what the label of the node is derived by. -/
theorem exists_division (h : f.Exact tokens trimmed) (hid : id < f.size) (hfamily : family ∈ (f.node id).families) :
    ∃ key symbols, f.grammar.Expands (f.node id).label symbols ∧
      f.grammar.Divides tokens key symbols (f.node id).left (f.node id).right ∧
      Order.familyKey f.table.nodes family = key.filter fun y => !decide (trimmed y) := by
  obtain ⟨key, hway, hkey⟩ := h.exists_way hid hfamily
  obtain ⟨symbols, hexpands, hdivides⟩ := hway.exists_division h.regular
  exact ⟨key, symbols, hexpands, hdivides, hkey⟩

/-- The children of a family stand one after the other over the extent of the node. -/
theorem abut (h : f.Exact tokens trimmed) (hid : id < f.size) (hfamily : family ∈ (f.node id).families) :
    Abut (Order.familyKey f.table.nodes family) (f.node id).left (f.node id).right := by
  classical
  obtain ⟨key, symbols, -, hdivides, hkey⟩ := h.exists_division hid hfamily
  rw [hkey]
  refine hdivides.abut.filter fun {y} _ hdropped => h.trimmed_empty ?_
  simpa using hdropped

/-- No family leaves a gap between its children. -/
theorem isGapped_eq_false (h : f.Exact tokens trimmed) (hid : id < f.size) (hfamily : family ∈ (f.node id).families) :
    Survey.isGapped f.table.nodes family = false := by
  have habut := h.abut hid hfamily
  cases family with
  | nothing => rfl
  | unary child => rfl
  | binary left right =>
    generalize (f.node id).left = i at habut
    cases habut with
    | cons _ hrest =>
      have hmeet : (f.table.nodes.getD left default).right = (f.table.nodes.getD right default).left := by
        generalize hstart : (f.table.nodes.getD left default).identity.right = k at hrest
        cases hrest
        exact hstart
      simp only [Survey.isGapped, hmeet, bne_self_eq_false, Bool.false_and]

/-- A child is one of the children by which its node can be derived. -/
theorem exists_way_of_child (h : f.Exact tokens trimmed) (hid : id < f.size) (hfamily : family ∈ (f.node id).families)
    (hchild : child ∈ family.children) :
    ∃ key, Way f.grammar tokens (f.node id).identity key ∧ (f.node child).identity ∈ key := by
  obtain ⟨key, hway, heq⟩ := h.exists_way hid hfamily
  have hmem : (f.node child).identity ∈ Order.familyKey f.table.nodes family := List.mem_map_of_mem hchild
  rw [heq] at hmem
  exact ⟨key, hway, List.mem_of_mem_filter hmem⟩

theorem nonempty_treesAt (h : f.Exact tokens trimmed) (hid : id < f.size) : (f.treesAt tokens id).Nonempty :=
  Prepared.nonempty_treesOf h.regular (h.derived hid)

/-- A terminal has no family. -/
theorem families_of_terminal (h : f.Exact tokens trimmed) (hid : id < f.size)
    (hterminal : (f.node id).label.isTerminal = true) : (f.node id).families = #[] := by
  refine Array.eq_empty_iff_forall_not_mem.mpr fun family hfamily => ?_
  obtain ⟨key, hway, -⟩ := h.exists_way hid hfamily
  rw [Node.label] at hterminal
  generalize (f.node id).identity = x at hway hterminal
  cases hway <;> simp [Label.isTerminal, Symbol.isTerminal] at hterminal

theorem encard_of_terminal (h : f.Exact tokens trimmed) (hid : id < f.size)
    (hterminal : (f.node id).label.isTerminal = true) : (f.treesAt tokens id).encard = 1 := by
  have hderived := h.derived hid
  rw [Node.label] at hterminal
  unfold treesAt
  generalize (f.node id).identity = x at hderived hterminal
  obtain ⟨label, i, j⟩ := x
  cases label with
  | symbol s =>
    cases s with
    | terminal a => rw [Prepared.treesOf_terminal hderived, Set.encard_singleton]
    | nonterminal A => simp [Label.isTerminal, Symbol.isTerminal] at hterminal
  | state slot => simp [Label.isTerminal] at hterminal

/-- A derivation of a node that is no terminal is made of smaller derivations of the children of one of its families. -/
theorem exists_smaller (h : f.Exact tokens trimmed) (hid : id < f.size) (hinner : (f.node id).label.isTerminal = false)
    (htrees : trees ∈ f.treesAt tokens id) :
    ∃ family ∈ (f.node id).families, ∀ child ∈ family.children, ∃ part ∈ f.treesAt tokens child,
      sizeOf part < sizeOf trees := by
  obtain ⟨key, hway, hparts⟩ := Prepared.exists_smaller h.regular (h.derived hid) hinner htrees
  obtain ⟨family, hfamily, heq⟩ := h.exists_family hid hway
  refine ⟨family, hfamily, fun child hchild => hparts _ ?_⟩
  have hmem : (f.node child).identity ∈ Order.familyKey f.table.nodes family := List.mem_map_of_mem hchild
  rw [heq] at hmem
  exact List.mem_of_mem_filter hmem

/-- A node that is no terminal has a family. -/
theorem families_ne_empty (h : f.Exact tokens trimmed) (hid : id < f.size)
    (hinner : (f.node id).label.isTerminal = false) : (f.node id).families ≠ #[] := by
  obtain ⟨trees, htrees⟩ := h.nonempty_treesAt hid
  obtain ⟨family, hfamily, -⟩ := h.exists_smaller hid hinner htrees
  exact Array.ne_empty_of_mem hfamily

theorem isTerminal_iff (h : f.Exact tokens trimmed) (hid : id < f.size) :
    (f.node id).label.isTerminal = true ↔ (f.node id).families = #[] := by
  refine ⟨h.families_of_terminal hid, fun hempty => ?_⟩
  by_contra hinner
  exact h.families_ne_empty hid (Bool.not_eq_true _ ▸ hinner) hempty

/-- Every derivation of a child is part of a larger derivation of its node. -/
theorem exists_larger (h : f.Exact tokens trimmed) (hid : id < f.size) (hfamily : family ∈ (f.node id).families)
    (hchild : child ∈ family.children) (htrees : trees ∈ f.treesAt tokens child) :
    ∃ larger ∈ f.treesAt tokens id, sizeOf trees < sizeOf larger := by
  obtain ⟨key, hway, hmem⟩ := h.exists_way_of_child hid hfamily hchild
  exact hway.exists_larger h.regular hmem htrees

/-- The number of derivations of a node is the sum over its families of the products over their children. -/
theorem encard_treesAt (h : f.Exact tokens trimmed) (hid : id < f.size)
    (hinner : (f.node id).label.isTerminal = false) :
    (f.treesAt tokens id).encard =
      ((f.node id).families.toList.map fun family =>
        (family.children.map fun child => (f.treesAt tokens child).encard).prod).sum := by
  classical
  obtain ⟨keys, -, hsum, hperm⟩ := h.ways hid
  have hfilter : ∀ key : List Identity,
      ((key.filter fun y => !decide (trimmed y)).map fun y => (f.grammar.treesOf tokens y).encard).prod =
        (key.map fun y => (f.grammar.treesOf tokens y).encard).prod := by
    intro key
    induction key with
    | nil => rfl
    | cons y key ih =>
      by_cases hy : trimmed y
      · simp [hy, ih, h.trimmed_single hy]
      · simp [hy, ih]
  have hkeys := (hperm.map fun key => (key.map fun y => (f.grammar.treesOf tokens y).encard).prod).sum_eq
  rw [List.map_map, Function.comp_def] at hkeys
  simp only [hfilter] at hkeys
  rw [treesAt, hsum hinner, ← hkeys, familyKeys, List.map_map]
  simp only [Function.comp_def, Order.familyKey, List.map_map]
  rfl

end Exact
end Forest

/-! ## Forests of runs -/

/-- The root of an exact table ends within the tokens. -/
theorem NodeTable.Exact.stop_le (hp : p.Regular) (h : t.Exact p tokens stop root) : stop ≤ tokens.size := by
  have hderived := (h.exactAt hp (.root (List.mem_singleton.mpr rfl))).derived
  rw [h.root_identity.2] at hderived
  exact Prepared.DerivesSpan.stop_le hderived (Nat.zero_le _)

/-- The forest of a run is exact over the input from the offset on, whatever the method and its configuration. -/
theorem Recognizer.exists_exact [Quote α] (r : Recognizer α) (hp : r.grammar.Built) (input : Array α) (offset : Nat)
    {f : Forest α} (hf : (r.parseFrom input offset).outcome.forest = some f) :
    f.grammar = r.grammar ∧ f.offset = offset ∧ ∃ trimmed, f.Exact (input.extract offset input.size) trimmed := by
  rw [forest_parseFrom, Option.map_eq_some_iff] at hf
  obtain ⟨⟨table, root, stop⟩, hunfinished, rfl⟩ := hf
  have hexact := r.unfinished?_exact hp.regular input offset hunfinished
  exact ⟨rfl, rfl, _, hexact.finish hp.regular (hexact.stop_le hp.regular) offset⟩

/-- Identities tell the nodes of a run's forest apart. -/
theorem Recognizer.forest_distinct [Quote α] (r : Recognizer α) (hp : r.grammar.Built) (input : Array α) (offset : Nat)
    {f : Forest α} (hf : (r.parseFrom input offset).outcome.forest = some f) {m n : NodeId} (hm : m < f.size)
    (hn : n < f.size) (heq : (f.node m).identity = (f.node n).identity) : m = n := by
  rw [forest_parseFrom, Option.map_eq_some_iff] at hf
  obtain ⟨⟨table, root, stop⟩, hunfinished, rfl⟩ := hf
  exact Forest.finish_distinct (r.unfinished?_exact hp.regular input offset hunfinished).rooted hm hn heq

end ContextFree
