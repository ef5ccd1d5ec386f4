-- SUMMARY: Dotted states: how far the recognition of a rule has come, numbered rule by rule.
import ContextFree.Vocabulary.Symbol
import ContextFree.Error

/-!
# Dotted states

A state is a rule with a dot somewhere in its body. The states of one rule have consecutive numbers, from the dot at the
start to the dot at the end, and the rules follow one another. Moving the dot is therefore adding or subtracting
one, as long as the state at hand is not the last, or the first, of its rule.
-/
namespace ContextFree

abbrev StateId := Nat

structure Dotted where
  rule : RuleId
  lhs : Nonterminal
  dot : Nat
  /-- The symbol after the dot. -/
  next : Option Symbol
  /-- The symbol before the dot. -/
  previous : Option Symbol
deriving DecidableEq, Inhabited

/-- Whether the dot is at the end. -/
def Dotted.isComplete (s : Dotted) : Bool :=
  s.next.isNone

structure StateTable where
  /-- The number of each rule's first state. -/
  base : Array StateId := #[]
  states : Array Dotted := #[]

namespace StateTable

/-- The states of one rule, dot by dot. -/
def statesOf (id : RuleId) (rule : Rule) : List Dotted :=
  (List.range (rule.rhs.length + 1)).map fun dot =>
    { rule := id, lhs := rule.lhs, dot
      next := rule.rhs[dot]?
      previous := if dot = 0 then none else rule.rhs[dot - 1]? }

/-- Lay out the states of one more rule. -/
def pushRule (t : StateTable) (rule : Rule) : StateTable where
  base := t.base.push t.states.size
  states := t.states ++ statesOf t.base.size rule

def ofRules (rules : Array Rule) : StateTable :=
  rules.foldl pushRule {}

def size (t : StateTable) : Nat := t.states.size

def get (t : StateTable) (id : StateId) : Dotted :=
  t.states.getD id default

/-- The state of a rule with the dot at the start. -/
def initial (t : StateTable) (rule : RuleId) : StateId :=
  t.base.getD rule 0

/-- The state of a rule of the given length with the dot at the end. -/
def completed (t : StateTable) (rule : RuleId) (length : Nat) : StateId :=
  t.initial rule + length

/-- Move the dot over the next symbol. -/
def advance (t : StateTable) (id : StateId) : Except Error StateId :=
  if (t.get id).isComplete then .error .completedState else .ok (id + 1)

/-- Move the dot back over the previous symbol. -/
def retreat (t : StateTable) (id : StateId) : Option StateId :=
  if (t.get id).dot = 0 then none else some (id - 1)

end StateTable
end ContextFree
