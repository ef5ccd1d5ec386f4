-- SUMMARY: Terminals and nonterminals by number, rules over them, and declarations with optional items.
import ContextFree.KeyOrder

/-!
# Symbols and rules

A grammar numbers its terminals and its nonterminals in the order of their first use. A `Rule` lets a nonterminal stand
for a list of symbols. A `Declaration` is a rule as it is first written down: each of its items may be optional.
-/
namespace ContextFree

abbrev TerminalId := Nat
abbrev Nonterminal := Nat
abbrev RuleId := Nat

inductive Symbol where
  | terminal (id : TerminalId)
  | nonterminal (id : Nonterminal)
deriving DecidableEq, Inhabited

namespace Symbol

def isTerminal : Symbol → Bool
  | terminal _    => true
  | nonterminal _ => false

def nonterminal? : Symbol → Option Nonterminal
  | terminal _    => none
  | nonterminal A => some A

def terminal? : Symbol → Option TerminalId
  | terminal t    => some t
  | nonterminal _ => none

theorem eq_nonterminal_of_nonterminal? {symbol : Symbol} {A : Nonterminal}
    (h : symbol.nonterminal? = some A) :
    symbol = nonterminal A := by
  cases symbol with
  | terminal t    => cases h
  | nonterminal B => cases h; rfl

/-- Terminals come before nonterminals; within a kind the number decides. -/
def rank : Symbol → Nat × Nat
  | terminal t    => (0, t)
  | nonterminal A => (1, A)

end Symbol

instance : Ord Symbol := ⟨compareOn Symbol.rank⟩

instance : Std.TransOrd Symbol := inferInstanceAs (Std.TransCmp (compareOn Symbol.rank))

instance : Std.LawfulEqOrd Symbol := lawfulEqCmp_compareOn fun s t h => by
  cases s <;> cases t <;> simp_all [Symbol.rank]

/-- A symbol in a declared body; an optional item may also match nothing. -/
structure RuleItem where
  symbol : Symbol
  optional : Bool := false
deriving DecidableEq

/-- A rule as declared. -/
structure Declaration where
  lhs : Nonterminal
  items : List RuleItem
deriving DecidableEq

/-- A rule without optional items. -/
structure Rule where
  lhs : Nonterminal
  rhs : List Symbol
deriving DecidableEq, Inhabited

/-- A rule read as a declaration in which nothing is optional. -/
def Rule.toDeclaration (rule : Rule) : Declaration where
  lhs := rule.lhs
  items := rule.rhs.map fun symbol => { symbol }

/-- The nonterminals of a body, in order. -/
def Rule.bodyNonterminals (rule : Rule) : List Nonterminal :=
  rule.rhs.filterMap Symbol.nonterminal?

/-- The terminals of a body, in order. -/
def Rule.bodyTerminals (rule : Rule) : List TerminalId :=
  rule.rhs.filterMap Symbol.terminal?

end ContextFree
