-- SUMMARY: Grammars under construction: interning, declaring rules, setting attributes, and the closed rules.
import ContextFree.Vocabulary.Symbol
import ContextFree.Vocabulary.Terminal
import ContextFree.Vocabulary.Attributes
import ContextFree.Error

/-!
# Grammars

A grammar is open at first: rules are declared, with optional items if wanted. Closing it (see `Grammar.Closing`) turns
the declarations into plain rules and ends the declaring. Attributes may be set at any time.

Nonterminals are numbered in the order in which their names are first used, terminals in the order in which they are
registered.
-/
namespace ContextFree

variable {α : Type}

structure Grammar (α : Type) where
  /-- Names of the nonterminals, by number. -/
  names : Array String := #[]
  /-- Registered terminals, by number. -/
  terminals : Array (Terminal α) := #[]
  declared : Array Declaration := #[]
  /-- The rules of a closed grammar; an open one has none. -/
  rules : Array Rule := #[]
  /-- The rules of each nonterminal, in increasing order. -/
  byLhs : Std.TreeMap Nonterminal (Array RuleId) := ∅
  attributes : Std.TreeMap Symbol Attributes := ∅
  closed : Bool := false

namespace Grammar

def empty : Grammar α := {}

-- ---------------------------------------------------------------------------
-- Names
-- ---------------------------------------------------------------------------

/-- The nonterminal of a name, if the name is in use. -/
def find? (g : Grammar α) (name : String) : Option Nonterminal :=
  g.names.findIdx? (· == name)

/-- The nonterminal of a name, which gets the next number if it is new. -/
def nonterminal (g : Grammar α) (name : String) : Nonterminal × Grammar α :=
  match g.find? name with
  | some A => (A, g)
  | none   => (g.names.size, { g with names := g.names.push name })

def nonterminalName (g : Grammar α) (A : Nonterminal) : String :=
  g.names.getD A ""

def terminalName (g : Grammar α) (t : TerminalId) : String :=
  ((g.terminals[t]?).map Terminal.name).getD ""

/-- The display name of a symbol. -/
def nameOf (g : Grammar α) : Symbol → String
  | .terminal t    => g.terminalName t
  | .nonterminal A => g.nonterminalName A

-- ---------------------------------------------------------------------------
-- Terminals
-- ---------------------------------------------------------------------------

/-- Register a terminal. One with the same definition is shared. -/
def terminal [DecidableEq α] (g : Grammar α) (t : Terminal α) : TerminalId × Grammar α :=
  match g.terminals.findIdx? (·.sameDefinition t) with
  | some id => (id, g)
  | none    => (g.terminals.size, { g with terminals := g.terminals.push t })

/-- Register the terminal of one atom. -/
def token [DecidableEq α] [Quote α] (g : Grammar α) (atom : α) : TerminalId × Grammar α :=
  g.terminal (Terminal.token atom)

-- ---------------------------------------------------------------------------
-- Rules
-- ---------------------------------------------------------------------------

/-- Declare a rule of an open grammar. Declaring it again changes nothing. -/
def declare (g : Grammar α) (lhs : Nonterminal) (items : List RuleItem) : Except Error (Grammar α) :=
  if g.closed then .error (.closedGrammar (g.nonterminalName lhs))
  else if g.declared.contains ⟨lhs, items⟩ then .ok g
  else .ok { g with declared := g.declared.push ⟨lhs, items⟩ }

/-- The closed rules of a nonterminal. -/
def rulesFor (g : Grammar α) (A : Nonterminal) : Array RuleId :=
  g.byLhs.getD A #[]

def rule (g : Grammar α) (id : RuleId) : Rule :=
  g.rules.getD id default

/-- Whether any rule, declared or closed, has `A` on its left. -/
def defines (g : Grammar α) (A : Nonterminal) : Bool :=
  if g.closed then !(g.rulesFor A).isEmpty
  else g.declared.any (·.lhs == A)

/-- Nonterminals that occur in a declared body but have no rule, in the order of their first use. -/
def undefinedNonterminals (g : Grammar α) : List Nonterminal :=
  let used := g.declared.toList.flatMap fun d => d.items.filterMap (·.symbol.nonterminal?)
  (used.filter fun A => !g.declared.any (·.lhs == A)).eraseDups

-- ---------------------------------------------------------------------------
-- Attributes
-- ---------------------------------------------------------------------------

def attributesOf (g : Grammar α) (symbol : Symbol) : Attributes :=
  g.attributes.getD symbol .empty

/-- Give an attribute of a symbol its value. -/
def setAttribute (g : Grammar α) (symbol : Symbol) (name value : String) : Except Error (Grammar α) :=
  match (g.attributesOf symbol).set name value with
  | .ok attributes  => .ok { g with attributes := g.attributes.insert symbol attributes }
  | .error existing => .error (.attributeConflict (g.nameOf symbol) name existing value)

-- ---------------------------------------------------------------------------
-- Text
-- ---------------------------------------------------------------------------

/-- The sizes of a grammar on one line. -/
def summary (g : Grammar α) : String :=
  s!"Grammar \x7b terminals: {g.terminals.size}, declared: {g.declared.size}, " ++
    s!"rules: {g.rules.size}, closed: {g.closed} \x7d"

end Grammar
end ContextFree
