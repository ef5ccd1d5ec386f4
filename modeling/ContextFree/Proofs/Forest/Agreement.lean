-- SUMMARY: The finished forest of an accepted input is the same for both methods and under every configuration.
import ContextFree.Proofs.Forest.Content
import ContextFree.Proofs.Forest.Derivations

/-!
# Forests agree

Tables that are exact below roots for the same stretch of input have the same families of the nodes below: all ways to
derive them. So what they become differs in the numbers of the nodes only, whichever method made them.
-/
namespace ContextFree

variable {α : Type} [DecidableEq α] {p : Prepared α} {tokens : Array α} {stop : Nat} {t t' : NodeTable}
  {root root' : NodeId}

namespace NodeTable.Exact

theorem root_identity (h : t.Exact p tokens stop root) :
    root < t.size ∧ (t.node root).identity = ⟨.symbol (.nonterminal p.start), 0, stop⟩ :=
  h.faithful.consistent.find_iff.mp h.root

theorem rooted (h : t.Exact p tokens stop root) : t.Rooted [root] where
  consistent := h.faithful.consistent
  root_lt _ hid := List.mem_singleton.mp hid ▸ h.root_identity.1

/-- Exact tables for the same input have the same content below their roots. -/
theorem sameBelow (hp : p.Regular) (h : t.Exact p tokens stop root) (h' : t'.Exact p tokens stop root') :
    t.SameBelow t' [root] [root'] where
  rooted := h.rooted
  rooted' := h'.rooted
  rootIdentities := by simp [h.root_identity.2, h'.root_identity.2]
  families := by
    intro a b ha hb heq key
    obtain ⟨hlt, hrel⟩ := h.relevant hp ha
    obtain ⟨hlt', hrel'⟩ := h'.relevant hp hb
    rw [h.hasFamily_iff hlt hrel, h'.hasFamily_iff hlt' hrel', heq]

/-- The root of the finished forest ends where the input does. -/
theorem exists_root (h : t.Exact p tokens stop root) (consumed : Array α) (offset : Nat) :
    ∃ id ∈ (Forest.finish p t [root] consumed offset).roots,
      ((Forest.finish p t [root] consumed offset).node id).right = stop := by
  have hmem : root ∈ Order.orderRoots (Forest.ordered p t) [root] := Order.mem_orderRoots.mpr (List.mem_singleton.mpr rfl)
  refine ⟨Forest.finishedId p t [root] root, ?_, ?_⟩
  · rw [Forest.roots_finish h.rooted]
    exact List.mem_map_of_mem hmem
  · rw [Node.right, Forest.identity_finish h.rooted (.root hmem), h.root_identity.2]

end NodeTable.Exact

namespace Recognizer

variable [Quote α]

/-- Forests of the same input that end at the same position have the same content, whatever methods, configurations and
monitors the runs had. -/
theorem forests_agree (hp : p.Built) (method method' : Method) (monitor monitor' : Option Monitor) (input : Array α)
    (offset : Nat) {f f' : Forest α} (hf : (parseFrom ⟨p, method, monitor⟩ input offset).outcome.forest = some f)
    (hf' : (parseFrom ⟨p, method', monitor'⟩ input offset).outcome.forest = some f')
    (hend : ∀ root ∈ f.roots, ∀ root' ∈ f'.roots, (f.node root).right = (f'.node root').right) : f.SameContent f' := by
  rw [forest_parseFrom, Option.map_eq_some_iff] at hf hf'
  obtain ⟨⟨table, root, stop⟩, hunfinished, rfl⟩ := hf
  obtain ⟨⟨table', root', stop'⟩, hunfinished', rfl⟩ := hf'
  have hexact := unfinished?_exact _ hp.regular input offset hunfinished
  have hexact' := unfinished?_exact _ hp.regular input offset hunfinished'
  obtain ⟨id, hid, hright⟩ := hexact.exists_root ((input.extract offset input.size).extract 0 stop) offset
  obtain ⟨id', hid', hright'⟩ := hexact'.exists_root ((input.extract offset input.size).extract 0 stop') offset
  obtain rfl : stop = stop' := hright.symm.trans ((hend id hid id' hid').trans hright')
  exact Forest.finish_sameContent (hexact.sameBelow hp.regular hexact')

/-- Over a prefix of two letters both methods number the nodes of the sample differently, and agree otherwise. -/
theorem forests_agree_sample : ∃ f f' : Forest Char,
    (parseFrom ⟨Sample.prepared, .earley { prefixParsing := true }, none⟩ #['a', 'a', 'b'] 0).outcome.forest = some f ∧
    (parseFrom ⟨Sample.prepared, .gll { prefixParsing := true }, none⟩ #['a', 'a', 'b'] 0).outcome.forest = some f' ∧
    (f.node 0).identity ≠ (f'.node 0).identity ∧ f.SameContent f' := by
  let r : Recognizer Char := ⟨Sample.prepared, .earley { prefixParsing := true }, none⟩
  let r' : Recognizer Char := ⟨Sample.prepared, .gll { prefixParsing := true }, none⟩
  have hread : (r.parseFrom #['a', 'a', 'b'] 0).outcome.forest.map
      (fun f => (f.roots.map fun root => (f.node root).right, (f.node 0).right)) = some ([2], 0) := by decide +kernel
  have hread' : (r'.parseFrom #['a', 'a', 'b'] 0).outcome.forest.map
      (fun f => (f.roots.map fun root => (f.node root).right, (f.node 0).right)) = some ([2], 2) := by decide +kernel
  obtain ⟨f, hf, hstops⟩ := Option.map_eq_some_iff.mp hread
  obtain ⟨f', hf', hstops'⟩ := Option.map_eq_some_iff.mp hread'
  rw [Prod.mk.injEq] at hstops hstops'
  have hright : ∀ root ∈ f.roots, (f.node root).right = 2 := by
    intro root hroot
    simpa [hstops.1] using List.mem_map_of_mem (f := fun root => (f.node root).right) hroot
  have hright' : ∀ root ∈ f'.roots, (f'.node root).right = 2 := by
    intro root hroot
    simpa [hstops'.1] using List.mem_map_of_mem (f := fun root => (f'.node root).right) hroot
  refine ⟨f, f', hf, hf', fun heq => ?_, ?_⟩
  · have hzero : (f.node 0).right = (f'.node 0).right := congrArg Identity.right heq
    rw [hstops.2, hstops'.2] at hzero
    cases hzero
  · refine forests_agree Sample.prepared_built _ _ none none #['a', 'a', 'b'] 0 hf hf' fun root hroot root' hroot' => ?_
    rw [hright root hroot, hright' root' hroot']

end Recognizer
end ContextFree
