-- SUMMARY: Derivation over spans: what a list of symbols derives between two positions of an input.
import ContextFree.Grammar.Prepared

/-!
# Derivation over spans

`Derives lengths rules symbols i j` says that the symbols derive the input from `i` to `j`, one after the other, by
finitely many uses of the rules. A terminal derives as much as it takes at its position, and never nothing. The relation
knows neither dotted states nor lookahead; the recognizers are compared with it.
-/
namespace ContextFree

variable {α : Type}

inductive Derives (lengths : TerminalId → Nat → Nat) (rules : Rule → Prop) :
    List Symbol → Nat → Nat → Prop where
  | nil (i : Nat) : Derives lengths rules [] i i
  | terminal {t : TerminalId} {rest : List Symbol} {i j : Nat} :
      0 < lengths t i →
      Derives lengths rules rest (i + lengths t i) j →
      Derives lengths rules (.terminal t :: rest) i j
  | nonterminal {A : Nonterminal} {body rest : List Symbol} {i k j : Nat} :
      rules ⟨A, body⟩ →
      Derives lengths rules body i k →
      Derives lengths rules rest k j →
      Derives lengths rules (.nonterminal A :: rest) i j

namespace Derives

variable {lengths : TerminalId → Nat → Nat} {rules : Rule → Prop}

theorem le {symbols : List Symbol} {i j : Nat} (h : Derives lengths rules symbols i j) : i ≤ j := by
  induction h with
  | nil i => exact Nat.le_refl i
  | terminal _ _ ih => omega
  | nonterminal _ _ _ ihBody ihRest => omega

theorem append {left right : List Symbol} {i k j : Nat} (h : Derives lengths rules left i k)
    (h' : Derives lengths rules right k j) : Derives lengths rules (left ++ right) i j := by
  induction h with
  | nil i => exact h'
  | terminal hpos _ ih => exact .terminal hpos (ih h')
  | nonterminal hrule hbody _ _ ih => exact .nonterminal hrule hbody (ih h')

theorem of_append {left right : List Symbol} {i j : Nat}
    (h : Derives lengths rules (left ++ right) i j) :
    ∃ k, Derives lengths rules left i k ∧ Derives lengths rules right k j := by
  induction left generalizing i with
  | nil => exact ⟨i, .nil i, h⟩
  | cons symbol left ih =>
    cases h with
    | terminal hpos hrest =>
      obtain ⟨k, hleft, hright⟩ := ih hrest
      exact ⟨k, .terminal hpos hleft, hright⟩
    | nonterminal hrule hbody hrest =>
      obtain ⟨k, hleft, hright⟩ := ih hrest
      exact ⟨k, .nonterminal hrule hbody hleft, hright⟩

/-- More rules derive more. -/
theorem mono {rules' : Rule → Prop} (hsub : ∀ rule, rules rule → rules' rule) {symbols : List Symbol}
    {i j : Nat} (h : Derives lengths rules symbols i j) : Derives lengths rules' symbols i j := by
  induction h with
  | nil i => exact .nil i
  | terminal hpos _ ih => exact .terminal hpos ih
  | nonterminal hrule _ _ ihBody ihRest => exact .nonterminal (hsub _ hrule) ihBody ihRest

end Derives

/-! ## The rules of a grammar -/

/-- The closed rules. -/
def Grammar.HasRule (g : Grammar α) (rule : Rule) : Prop :=
  rule ∈ g.rules

/-- The useful rules. -/
def Prepared.IsUseful (p : Prepared α) (rule : Rule) : Prop :=
  ∃ id, id < p.grammar.rules.size ∧ p.useful.getD id false = true ∧ p.rule id = rule

/-- One way to read declared items: each is kept, or left out if it is optional. -/
inductive Reads : List RuleItem → List Symbol → Prop where
  | nil : Reads [] []
  | keep {item : RuleItem} {items : List RuleItem} {symbols : List Symbol} :
      Reads items symbols → Reads (item :: items) (item.symbol :: symbols)
  | skip {item : RuleItem} {items : List RuleItem} {symbols : List Symbol} :
      item.optional = true → Reads items symbols → Reads (item :: items) symbols

/-- The rules that the declarations stand for. -/
def Grammar.Declares (g : Grammar α) (rule : Rule) : Prop :=
  ∃ d ∈ g.declared, d.lhs = rule.lhs ∧ Reads d.items rule.rhs

/-- What `symbols` derive from `i` to `j` in the given tokens, by the closed rules. -/
def Prepared.DerivesSpan [DecidableEq α] (p : Prepared α) (tokens : Array α) (symbols : List Symbol)
    (i j : Nat) : Prop :=
  Derives (fun t position => p.matchLength t tokens position) p.grammar.HasRule symbols i j

/-! ## Calls -/

/-- The nonterminals that recognition from `start` asks for, with the positions. A rule takes part at a position only if
`admits` allows it there. -/
inductive Called (lengths : TerminalId → Nat → Nat) (rules : Rule → Prop) (admits : Rule → Nat → Prop)
    (start : Nonterminal) : Nonterminal → Nat → Prop where
  | start : Called lengths rules admits start start 0
  | body {A B : Nonterminal} {before after : List Symbol} {i k : Nat} :
      Called lengths rules admits start A i →
      rules ⟨A, before ++ .nonterminal B :: after⟩ →
      admits ⟨A, before ++ .nonterminal B :: after⟩ i →
      Derives lengths rules before i k →
      Called lengths rules admits start B k

end ContextFree
