-- SUMMARY: Derivation trees and the spans they cover.
import ContextFree.Derivation.Spans

/-!
# Derivation trees

A derivation tree names the rule used at each inner node. Where a leaf ends is determined by where it begins, so a tree and
a position determine all split points. The forests count these trees.
-/
namespace ContextFree

inductive DerivationTree where
  | leaf (terminal : TerminalId)
  | node (rule : RuleId) (children : List DerivationTree)

/-- `Covers lengths rules trees symbols i j`: the trees derive the symbols, one each, from `i` to `j`. -/
inductive Covers (lengths : TerminalId → Nat → Nat) (rules : RuleId → Option Rule) :
    List DerivationTree → List Symbol → Nat → Nat → Prop where
  | nil (i : Nat) : Covers lengths rules [] [] i i
  | leaf {t : TerminalId} {trees : List DerivationTree} {rest : List Symbol} {i j : Nat} :
      0 < lengths t i →
      Covers lengths rules trees rest (i + lengths t i) j →
      Covers lengths rules (.leaf t :: trees) (.terminal t :: rest) i j
  | node {id : RuleId} {A : Nonterminal} {body rest : List Symbol} {children trees : List DerivationTree}
      {i k j : Nat} :
      rules id = some ⟨A, body⟩ →
      Covers lengths rules children body i k →
      Covers lengths rules trees rest k j →
      Covers lengths rules (.node id children :: trees) (.nonterminal A :: rest) i j

/-- What trees cover is derived. -/
theorem Covers.derives {lengths : TerminalId → Nat → Nat} {rules : RuleId → Option Rule}
    {trees : List DerivationTree} {symbols : List Symbol} {i j : Nat}
    (h : Covers lengths rules trees symbols i j) :
    Derives lengths (fun rule => ∃ id, rules id = some rule) symbols i j := by
  induction h with
  | nil i => exact .nil i
  | leaf hpos _ ih => exact .terminal hpos ih
  | node hrule _ _ ihChildren ihTrees => exact .nonterminal ⟨_, hrule⟩ ihChildren ihTrees

/-- What is derived is covered by trees. -/
theorem Derives.covers {lengths : TerminalId → Nat → Nat} {rules : RuleId → Option Rule}
    {symbols : List Symbol} {i j : Nat}
    (h : Derives lengths (fun rule => ∃ id, rules id = some rule) symbols i j) :
    ∃ trees, Covers lengths rules trees symbols i j := by
  induction h with
  | nil i => exact ⟨[], .nil i⟩
  | terminal hpos _ ih =>
    obtain ⟨trees, htrees⟩ := ih
    exact ⟨_, .leaf hpos htrees⟩
  | nonterminal hrule _ _ ihBody ihRest =>
    obtain ⟨id, hid⟩ := hrule
    obtain ⟨children, hchildren⟩ := ihBody
    obtain ⟨trees, htrees⟩ := ihRest
    exact ⟨_, .node hid hchildren htrees⟩

end ContextFree
