-- SUMMARY: The counts of a forest are the numbers of derivations wherever these are finite.
import ContextFree.Proofs.Forest.Exactness
import Mathlib.Algebra.BigOperators.Ring.Finset

/-!
# Counting derivations

The facts about a node of an exact forest follow from those of the children of its forward families. A number that is one at
terminals and a sum over forward families of products over children elsewhere is therefore the count, except where a loop
over no input adds one. If no loop can be reached from a node, all families below it are forward, and the number of its
derivations is such a number.
-/
namespace ContextFree

variable {α : Type} [DecidableEq α] {tokens : Array α} {id child : NodeId} {family : Family}

namespace Forest

namespace Exact

variable {f : Forest α} {trimmed : Identity → Prop}

/-! ## Numbers that are counts -/

/-- A number that is one where there is no family, and the sum over forward families of products over children elsewhere,
is the count, as long as no loop over no input adds to it. -/
theorem eq_count (h : f.Exact tokens trimmed) {N : NodeId → ℕ∞} {Q : NodeId → Prop}
    (hdown : ∀ {id}, id < f.size → Q id → ∀ family ∈ f.forward id, ∀ child ∈ family.children, Q child)
    (hplain : ∀ {id}, id < f.size → Q id → (f.node id).isEmpty = true → (f.factsOf id).loops = [])
    (hleaf : ∀ {id}, id < f.size → (f.node id).families = #[] → N id = 1)
    (hsum : ∀ {id}, id < f.size → Q id → (f.node id).families ≠ #[] →
      N id = ((f.forward id).map fun family => (family.children.map N).prod).sum)
    (hid : id < f.size) (hQ : Q id) : N id = f.count id := by
  revert hQ
  refine h.forward_induction (P := fun id => Q id → N id = f.count id) (fun id hid ih hQ => ?_) hid
  by_cases hempty : (f.node id).families = #[]
  · rw [hleaf hid hempty, h.count_of_empty hid hempty, Nat.cast_one]
  · have hno : ¬ ((f.factsOf id).loops ≠ [] ∧ (f.node id).isEmpty = true) :=
      fun hloop => hloop.1 (hplain hid hQ hloop.2)
    rw [hsum hid hQ hempty, h.count_eq hid hempty, if_neg hno, Nat.add_zero, Nat.cast_list_sum, List.map_map]
    congr 1
    refine List.map_congr_left fun family hfamily => ?_
    rw [Function.comp_apply, Nat.cast_list_prod, List.map_map]
    congr 1
    exact List.map_congr_left fun child hchild => ih family hfamily child hchild (hdown hid hQ family hfamily child hchild)

/-- Where no loop can be reached, the count of a node is the number of its derivations. -/
theorem encard_eq_count (h : f.Exact tokens trimmed) (hid : id < f.size) (hfinite : (f.factsOf id).infinite = false) :
    (f.treesAt tokens id).encard = f.count id := by
  refine h.eq_count (N := fun id => (f.treesAt tokens id).encard) (Q := fun id => (f.factsOf id).infinite = false)
    (fun hid hfinite family hfamily => ?_) (fun hid hfinite _ => (h.loopless hid hfinite).1) (fun hid hempty => ?_)
    (fun {id} hid hfinite hne => ?_) hid hfinite
  · exact (h.loopless hid hfinite).2 family (mem_families_of_forward hfamily)
  · exact h.encard_of_terminal hid ((h.isTerminal_iff hid).mpr hempty)
  · have hinner : (f.node id).label.isTerminal = false := by
      rw [← Bool.not_eq_true, h.isTerminal_iff hid]
      exact hne
    rw [h.encard_treesAt hid hinner, forward_of_loops (h.loopless hid hfinite).1]

end Exact
end Forest

/-! ## Forests of runs -/

namespace Sample

/-- `S → S E S | 'a'` and `E → ε`: ambiguous over three letters, without loops, and with nodes to trim. -/
def sums : Prepared Char :=
  prepare [(0, [.nonterminal 0, .nonterminal 1, .nonterminal 0]), (0, [.terminal 0]), (1, [])]

end Sample

namespace Recognizer

variable [Quote α]

/-- The counts of the forest of a run are the numbers of derivations, at every node from which no loop can be reached. If
there is no loop at all, the total is the number of derivations of the start symbol over the tokens consumed. -/
theorem encard_trees_eq_count (r : Recognizer α) (hp : r.grammar.Built) (input : Array α) (offset : Nat) {f : Forest α}
    (hf : (r.parseFrom input offset).outcome.forest = some f) :
    (∀ id < f.size, (f.factsOf id).infinite = false →
      (r.grammar.treesOf (input.extract offset input.size) (f.node id).identity).encard = f.count id) ∧
    (f.isInfinite = false →
      (r.grammar.treesOf (input.extract offset input.size)
        ⟨.symbol (.nonterminal r.grammar.start), 0, f.tokens.size⟩).encard = f.total) := by
  obtain ⟨hgrammar, -, trimmed, h⟩ := r.exists_exact hp input offset hf
  rw [← hgrammar]
  refine ⟨fun id hid hfinite => h.encard_eq_count hid hfinite, fun hfinite => ?_⟩
  obtain ⟨root, hroots, hroot, hidentity⟩ := h.root
  have htotal : f.total = f.count root := by simp [Forest.total, hroots]
  rw [htotal, ← h.encard_eq_count hroot (h.infinite_of_isInfinite hfinite hroot), Forest.treesAt, hidentity]

/-- The five sums of four letters. -/
theorem encard_trees_eq_count_sums : ∃ f : Forest Char,
    (parseFrom ⟨Sample.sums, .gll {}, none⟩ #['a', 'a', 'a', 'a'] 0).outcome.forest = some f ∧ f.isInfinite = false ∧
    (Sample.sums.treesOf #['a', 'a', 'a', 'a'] ⟨.symbol (.nonterminal Sample.sums.start), 0, 4⟩).encard = 5 := by
  have hread : (parseFrom ⟨Sample.sums, .gll {}, none⟩ #['a', 'a', 'a', 'a'] 0).outcome.forest.map
      (fun f => (f.isInfinite, f.tokens.size, f.total)) = some (false, 4, 5) := by decide +kernel
  obtain ⟨f, hf, hfacts⟩ := Option.map_eq_some_iff.mp hread
  simp only [Prod.mk.injEq] at hfacts
  obtain ⟨hfinite, hsize, htotal⟩ := hfacts
  have hcount := (encard_trees_eq_count ⟨Sample.sums, .gll {}, none⟩ (Sample.built_prepare _) #['a', 'a', 'a', 'a'] 0
    hf).2 hfinite
  refine ⟨f, hf, hfinite, ?_⟩
  rw [htotal, hsize, Array.extract_size] at hcount
  exact_mod_cast hcount

end Recognizer
end ContextFree
