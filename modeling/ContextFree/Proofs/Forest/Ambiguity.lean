-- SUMMARY: The flags of a forest: ambiguous means several derivations, infinite means infinitely many.
import ContextFree.Proofs.Forest.Counting
import Mathlib.Algebra.Order.BigOperators.Group.List
import Mathlib.Data.Set.Finite.Lemmas

/-!
# Ambiguity

A loop family leads from its node back to it, and every turn through it makes a derivation larger. So the derivations of a
node from which a loop can be reached have no bound. Without a loop the count is their number. A node with two families has
two derivations, and so has everything above it. If no node has two families, the smallest derivation of a node is the
only one: its parts are the only derivations of the children of the only family.
-/
namespace ContextFree

variable {α : Type} [DecidableEq α] {tokens : Array α} {id child a b : NodeId} {family : Family}

namespace Forest

namespace Exact

variable {f : Forest α} {trimmed : Identity → Prop}

/-! ## Loops and size -/

/-- A derivation of a node is part of a derivation of every node above it. -/
theorem exists_above (h : f.Exact tokens trimmed) (ha : a < f.size) (hreach : Reachable f.table.nodes [a] b)
    {trees : List DerivationTree} (htrees : trees ∈ f.treesAt tokens b) :
    ∃ larger ∈ f.treesAt tokens a, sizeOf trees ≤ sizeOf larger := by
  induction hreach generalizing trees with
  | root hmem => exact ⟨trees, List.mem_singleton.mp hmem ▸ htrees, Nat.le_refl _⟩
  | child hreach hfamily hchild ih =>
    obtain ⟨larger, hlarger, hlt⟩ := h.exists_larger (h.lt_of_reachable ha hreach) hfamily hchild htrees
    obtain ⟨largest, hlargest, hle⟩ := ih hlarger
    exact ⟨largest, hlargest, Nat.le_trans (Nat.le_of_lt hlt) hle⟩

/-- The derivations of a node with a loop have no bound. -/
theorem unbounded_of_loop (h : f.Exact tokens trimmed) (hid : id < f.size) (hloops : (f.factsOf id).loops ≠ []) (n : Nat) :
    ∃ trees ∈ f.treesAt tokens id, n ≤ sizeOf trees := by
  obtain ⟨i, hi⟩ := List.exists_mem_of_ne_nil _ hloops
  obtain ⟨family, hget, child, hchild, hback⟩ := h.exists_loop hid hi
  have hfamily := Array.mem_of_getElem? hget
  induction n with
  | zero =>
    obtain ⟨trees, htrees⟩ := h.nonempty_treesAt hid
    exact ⟨trees, htrees, Nat.zero_le _⟩
  | succ n ih =>
    -- once around: down to the node again, and up through the loop family
    obtain ⟨trees, htrees, hle⟩ := ih
    obtain ⟨around, haround, hsize⟩ := h.exists_above (h.child_lt hid hfamily hchild) hback htrees
    obtain ⟨larger, hlarger, hlt⟩ := h.exists_larger hid hfamily hchild haround
    exact ⟨larger, hlarger, Nat.lt_of_le_of_lt (Nat.le_trans hle hsize) hlt⟩

theorem infinite_of_unbounded (hunbounded : ∀ n, ∃ trees ∈ f.treesAt tokens id, n ≤ sizeOf trees) :
    (f.treesAt tokens id).Infinite := by
  intro hfinite
  obtain ⟨some, hsome, -⟩ := hunbounded 0
  obtain ⟨largest, -, hlargest⟩ := Set.exists_max_image _ sizeOf hfinite ⟨some, hsome⟩
  obtain ⟨trees, htrees, hlt⟩ := hunbounded (sizeOf largest + 1)
  exact absurd (hlargest trees htrees) (Nat.not_le.mpr hlt)

/-- From a node that is flagged infinite, a loop can be reached. -/
theorem exists_loop_below (h : f.Exact tokens trimmed) (hid : id < f.size) (hinfinite : (f.factsOf id).infinite = true) :
    ∃ b, Reachable f.table.nodes [id] b ∧ (f.factsOf b).loops ≠ [] := by
  revert hinfinite
  refine h.forward_induction
    (P := fun id => (f.factsOf id).infinite = true → ∃ b, Reachable f.table.nodes [id] b ∧ (f.factsOf b).loops ≠ [])
    (fun id hid ih hinfinite => ?_) hid
  rcases (h.infinite_iff hid).mp hinfinite with hloops | ⟨family, hfamily, child, hchild, hbelow⟩
  · exact ⟨id, .root (List.mem_singleton.mpr rfl), hloops⟩
  · obtain ⟨b, hreach, hloops⟩ := ih family hfamily child hchild hbelow
    have hstep : Reachable f.table.nodes [id] child :=
      .child (.root (List.mem_singleton.mpr rfl)) (mem_families_of_forward hfamily) hchild
    exact ⟨b, hstep.trans hreach, hloops⟩

/-- If a loop can be reached from a node, the node has infinitely many derivations. -/
theorem infinite_of_loop_below (h : f.Exact tokens trimmed) (ha : a < f.size) (hreach : Reachable f.table.nodes [a] b)
    (hloops : (f.factsOf b).loops ≠ []) : (f.treesAt tokens a).Infinite := by
  refine infinite_of_unbounded fun n => ?_
  obtain ⟨trees, htrees, hle⟩ := h.unbounded_of_loop (h.lt_of_reachable ha hreach) hloops n
  obtain ⟨larger, hlarger, hle'⟩ := h.exists_above ha hreach htrees
  exact ⟨larger, hlarger, Nat.le_trans hle hle'⟩

/-- A node is flagged infinite exactly if it has infinitely many derivations. -/
theorem infinite_iff_infinite (h : f.Exact tokens trimmed) (hid : id < f.size) :
    (f.factsOf id).infinite = true ↔ (f.treesAt tokens id).Infinite := by
  constructor
  · intro hinfinite
    obtain ⟨b, hreach, hloops⟩ := h.exists_loop_below hid hinfinite
    exact h.infinite_of_loop_below hid hreach hloops
  · intro hinfinite
    by_contra hflag
    rw [Bool.not_eq_true] at hflag
    refine hinfinite (Set.encard_lt_top_iff.mp ?_)
    rw [h.encard_eq_count hid hflag]
    exact ENat.natCast_lt_top _

/-- A forest is flagged infinite exactly if its root has infinitely many derivations. -/
theorem isInfinite_iff (h : f.Exact tokens trimmed) {root : NodeId} (hroots : f.roots = [root]) (hroot : root < f.size) :
    f.isInfinite = true ↔ (f.treesAt tokens root).Infinite := by
  constructor
  · intro hinfinite
    obtain ⟨i, hi, hloops⟩ := Array.any_eq_true.mp hinfinite
    have hfacts : f.factsOf i = f.facts[i] := by simp [factsOf, Array.getD_eq_getD_getElem?, hi]
    have hreach := h.reachable (h.facts_size ▸ hi)
    rw [hroots] at hreach
    refine h.infinite_of_loop_below hroot hreach ?_
    rw [hfacts]
    simpa using hloops
  · intro hinfinite
    by_contra hflag
    rw [Bool.not_eq_true] at hflag
    have hnone := h.infinite_of_isInfinite hflag hroot
    rw [(h.infinite_iff_infinite hroot).mpr hinfinite] at hnone
    cases hnone

/-! ## Several derivations -/

theorem one_le_encard (h : f.Exact tokens trimmed) (hid : id < f.size) : 1 ≤ (f.treesAt tokens id).encard :=
  Set.one_le_encard_iff_nonempty.mpr (h.nonempty_treesAt hid)

/-- A node is flagged ambiguous exactly if it has several families. -/
theorem ambiguous_iff (h : f.Exact tokens trimmed) (hid : id < f.size) :
    (f.factsOf id).ambiguous = true ↔ 1 < (f.node id).families.size := by
  have hgapless : (f.node id).families.any (Survey.isGapped f.table.nodes) = false := by
    rw [Array.any_eq_false']
    intro family hfamily
    rw [h.isGapped_eq_false hid hfamily]
    exact Bool.false_ne_true
  have hsettled : (f.factsOf id).ambiguous =
      (Survey.settle f.table.nodes f.marks (f.node id) (f.factsOf id).loops).ambiguous :=
    congrArg Facts.ambiguous (h.facts_eq hid)
  rw [hsettled, Survey.settle_ambiguous, hgapless, Bool.or_false, decide_eq_true_iff]

/-- There are at least as many derivations through a family as there are of a child, and there is one. -/
theorem le_encard_family (h : f.Exact tokens trimmed) (hid : id < f.size) (hfamily : family ∈ (f.node id).families) :
    1 ≤ (family.children.map fun child => (f.treesAt tokens child).encard).prod ∧ ∀ child ∈ family.children,
      (f.treesAt tokens child).encard ≤ (family.children.map fun child => (f.treesAt tokens child).encard).prod := by
  have : IsOrderedMonoid ℕ∞ := CanonicallyOrderedAdd.toIsOrderedMonoid
  have hone : ∀ n ∈ family.children.map fun child => (f.treesAt tokens child).encard, 1 ≤ n := by
    intro n hn
    obtain ⟨child, hchild, rfl⟩ := List.mem_map.mp hn
    exact h.one_le_encard (h.child_lt hid hfamily hchild)
  exact ⟨List.one_le_prod_of_one_le hone, fun child hchild => List.single_le_prod hone _ (List.mem_map_of_mem hchild)⟩

/-- A node has at least as many derivations as it has families, and as a child has. -/
theorem le_encard (h : f.Exact tokens trimmed) (hid : id < f.size) :
    ((f.node id).families.size : ℕ∞) ≤ (f.treesAt tokens id).encard ∧ ∀ family ∈ (f.node id).families,
      ∀ child ∈ family.children, (f.treesAt tokens child).encard ≤ (f.treesAt tokens id).encard := by
  by_cases hempty : (f.node id).families = #[]
  · simp [hempty]
  · have hinner : (f.node id).label.isTerminal = false := by
      rw [← Bool.not_eq_true, h.isTerminal_iff hid]
      exact hempty
    rw [h.encard_treesAt hid hinner]
    constructor
    · have hsum := List.card_nsmul_le_sum ((f.node id).families.toList.map fun family =>
        (family.children.map fun child => (f.treesAt tokens child).encard).prod) 1 fun n hn => by
          obtain ⟨family, hfamily, rfl⟩ := List.mem_map.mp hn
          exact (h.le_encard_family hid (Array.mem_toList_iff.mp hfamily)).1
      simpa using hsum
    · intro family hfamily child hchild
      refine le_trans ((h.le_encard_family hid hfamily).2 child hchild) ?_
      exact List.single_le_sum (fun _ _ => zero_le) _ (List.mem_map_of_mem (Array.mem_toList_iff.mpr hfamily))

theorem encard_le_of_reachable (h : f.Exact tokens trimmed) (ha : a < f.size) (hreach : Reachable f.table.nodes [a] b) :
    (f.treesAt tokens b).encard ≤ (f.treesAt tokens a).encard := by
  induction hreach with
  | root hmem => rw [List.mem_singleton.mp hmem]
  | child hreach hfamily hchild ih =>
    exact le_trans ((h.le_encard (h.lt_of_reachable ha hreach)).2 _ hfamily _ hchild) ih

/-- If no node has two families, none has two derivations. -/
theorem encard_of_unambiguous (h : f.Exact tokens trimmed) (hsingle : ∀ id < f.size, (f.node id).families.size ≤ 1)
    (hid : id < f.size) : (f.treesAt tokens id).encard = 1 := by
  obtain ⟨trees, htrees⟩ := h.nonempty_treesAt hid
  -- by induction on the size of a derivation, over all nodes that have it
  induction hsize : sizeOf trees using Nat.strong_induction_on generalizing id trees with
  | _ n ih =>
    cases hterminal : (f.node id).label.isTerminal with
    | true => exact h.encard_of_terminal hid hterminal
    | false =>
      obtain ⟨family, hfamily, hparts⟩ := h.exists_smaller hid hterminal htrees
      have hones : ∀ child ∈ family.children, (f.treesAt tokens child).encard = 1 := by
        intro child hchild
        obtain ⟨part, hpart, hlt⟩ := hparts child hchild
        exact ih _ (hsize ▸ hlt) (h.child_lt hid hfamily hchild) part hpart rfl
      have hmem := Array.mem_toList_iff.mpr hfamily
      obtain ⟨only, honly⟩ := List.length_eq_one_iff.mp (le_antisymm (hsingle id hid) (List.length_pos_of_mem hmem))
      obtain rfl : family = only := by
        rw [honly] at hmem
        exact List.mem_singleton.mp hmem
      rw [h.encard_treesAt hid hterminal, honly, List.map_singleton, List.sum_singleton]
      refine List.prod_eq_one fun n hn => ?_
      obtain ⟨child, hchild, rfl⟩ := List.mem_map.mp hn
      exact hones child hchild

/-- A forest is flagged ambiguous exactly if its root has several derivations. -/
theorem isAmbiguous_iff (h : f.Exact tokens trimmed) {root : NodeId} (hroots : f.roots = [root]) (hroot : root < f.size) :
    f.isAmbiguous = true ↔ (f.treesAt tokens root).Nontrivial := by
  have hflag : f.isAmbiguous = true ↔ ∃ id < f.size, 1 < (f.node id).families.size := by
    simp only [isAmbiguous, hroots, List.length_singleton, gt_iff_lt, Nat.lt_irrefl, decide_false, Bool.false_or,
      Array.any_eq_true]
    constructor
    · rintro ⟨i, hi, hambiguous⟩
      have hfacts : f.factsOf i = f.facts[i] := by simp [factsOf, Array.getD_eq_getD_getElem?, hi]
      have hlt : i < f.size := h.facts_size ▸ hi
      exact ⟨i, hlt, (h.ambiguous_iff hlt).mp (hfacts ▸ hambiguous)⟩
    · rintro ⟨i, hi, hfamilies⟩
      have hlt : i < f.facts.size := h.facts_size ▸ hi
      have hfacts : f.factsOf i = f.facts[i] := by simp [factsOf, Array.getD_eq_getD_getElem?, hlt]
      exact ⟨i, hlt, hfacts ▸ (h.ambiguous_iff hi).mpr hfamilies⟩
  rw [← Set.one_lt_encard_iff_nontrivial, hflag]
  constructor
  · rintro ⟨id, hid, hfamilies⟩
    have hreach := h.reachable hid
    rw [hroots] at hreach
    calc (1 : ℕ∞) < (f.node id).families.size := by exact_mod_cast hfamilies
      _ ≤ (f.treesAt tokens id).encard := (h.le_encard hid).1
      _ ≤ (f.treesAt tokens root).encard := h.encard_le_of_reachable hroot hreach
  · intro hlt
    by_contra hnone
    push Not at hnone
    rw [h.encard_of_unambiguous hnone hroot] at hlt
    exact lt_irrefl _ hlt

end Exact
end Forest

namespace Recognizer

variable [Quote α]

/-- The flags of the forest of a run are exact: it is ambiguous if the start symbol has several derivations over the tokens
consumed, infinite if it has infinitely many, and a node is infinite if it has infinitely many. No family leaves a gap
between its children or lets them overlap. -/
theorem ambiguity_flags_iff (r : Recognizer α) (hp : r.grammar.Built) (input : Array α) (offset : Nat) {f : Forest α}
    (hf : (r.parseFrom input offset).outcome.forest = some f) :
    (f.isAmbiguous = true ↔ (r.grammar.treesOf (input.extract offset input.size)
      ⟨.symbol (.nonterminal r.grammar.start), 0, f.tokens.size⟩).Nontrivial) ∧
    (f.isInfinite = true ↔ (r.grammar.treesOf (input.extract offset input.size)
      ⟨.symbol (.nonterminal r.grammar.start), 0, f.tokens.size⟩).Infinite) ∧
    (∀ id < f.size, (f.factsOf id).infinite = true ↔
      (r.grammar.treesOf (input.extract offset input.size) (f.node id).identity).Infinite) ∧
    ∀ id < f.size, ∀ family ∈ (f.node id).families, Survey.isGapped f.table.nodes family = false := by
  obtain ⟨hgrammar, -, trimmed, h⟩ := r.exists_exact hp input offset hf
  obtain ⟨root, hroots, hroot, hidentity⟩ := h.root
  have htrees : f.treesAt (input.extract offset input.size) root = f.grammar.treesOf (input.extract offset input.size)
      ⟨.symbol (.nonterminal f.grammar.start), 0, f.tokens.size⟩ := by
    rw [Forest.treesAt, hidentity]
  rw [← hgrammar, ← htrees]
  exact ⟨h.isAmbiguous_iff hroots hroot, h.isInfinite_iff hroots hroot, fun id hid => h.infinite_iff_infinite hid,
    fun id hid family hfamily => h.isGapped_eq_false hid hfamily⟩

/-- The sample derives a letter in infinitely many ways, and the sums of three letters are two. -/
theorem ambiguity_flags_iff_sample : Sample.prepared.Built ∧ Sample.sums.Built ∧
    (Sample.prepared.treesOf #['a'] ⟨.symbol (.nonterminal Sample.prepared.start), 0, 1⟩).Infinite ∧
    (Sample.sums.treesOf #['a', 'a', 'a'] ⟨.symbol (.nonterminal Sample.sums.start), 0, 3⟩).Nontrivial ∧
    ¬ (Sample.sums.treesOf #['a', 'a', 'a'] ⟨.symbol (.nonterminal Sample.sums.start), 0, 3⟩).Infinite := by
  have hread : (parseFrom ⟨Sample.prepared, .earley {}, none⟩ #['a'] 0).outcome.forest.map
      (fun f => (f.isInfinite, f.tokens.size)) = some (true, 1) := by decide +kernel
  have hread' : (parseFrom ⟨Sample.sums, .gll {}, none⟩ #['a', 'a', 'a'] 0).outcome.forest.map
      (fun f => (f.isAmbiguous, f.isInfinite, f.tokens.size)) = some (true, false, 3) := by decide +kernel
  obtain ⟨f, hf, hfacts⟩ := Option.map_eq_some_iff.mp hread
  obtain ⟨f', hf', hfacts'⟩ := Option.map_eq_some_iff.mp hread'
  simp only [Prod.mk.injEq] at hfacts hfacts'
  have hflags := ambiguity_flags_iff ⟨Sample.prepared, .earley {}, none⟩ Sample.prepared_built #['a'] 0 hf
  have hflags' := ambiguity_flags_iff ⟨Sample.sums, .gll {}, none⟩ (Sample.built_prepare _) #['a', 'a', 'a'] 0 hf'
  rw [hfacts.1, hfacts.2, Array.extract_size] at hflags
  rw [hfacts'.1, hfacts'.2.1, hfacts'.2.2, Array.extract_size] at hflags'
  exact ⟨Sample.prepared_built, Sample.built_prepare _, hflags.2.1.mp rfl, hflags'.1.mp rfl,
    fun hinfinite => Bool.false_ne_true (hflags'.2.1.mpr hinfinite)⟩

end Recognizer
end ContextFree
