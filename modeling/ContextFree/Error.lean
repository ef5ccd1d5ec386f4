-- SUMMARY: Everything that can go wrong, with its message, its code and a hint.

/-!
# Errors

Input that does not match is no error: a recognizer reports it in its outcome. Errors arise when a grammar cannot be
built or prepared, and when an operation is asked for that makes no sense at that point.
-/
namespace ContextFree

inductive Error where
  /-- The start symbol has no rule. -/
  | undefinedStart (name : String)
  /-- A rule is added to a closed grammar. -/
  | closedGrammar (lhs : String)
  /-- An attribute that has a value is given a different one. -/
  | attributeConflict (symbol name existing attempted : String)
  /-- The dot of a complete state cannot move on. -/
  | completedState
  /-- Only a parse that accepted a proper part of its input can be continued. -/
  | noPrefix
  /-- There is no tree to repeat yet. -/
  | noTreeSelected
  /-- Every tree has been produced. -/
  | noMoreTrees
deriving DecidableEq

namespace Error

def message : Error → String
  | undefinedStart name => s!"start symbol `{name}` is not defined by any rule"
  | closedGrammar lhs   => s!"cannot add a rule for `{lhs}`: the grammar is closed"
  | attributeConflict symbol name existing attempted =>
    s!"attribute `{name}` of `{symbol}` is already `{existing}`, cannot change it to `{attempted}`"
  | completedState => "cannot advance a completed state"
  | noPrefix       => "cannot continue: the parse did not succeed on a prefix of the input"
  | noTreeSelected => "no tree has been selected yet"
  | noMoreTrees    => "no more trees are available"

/-- A stable name of the kind of error. -/
def code : Error → String
  | undefinedStart _          => "grammar::undefined_start"
  | closedGrammar _           => "grammar::closed"
  | attributeConflict _ _ _ _ => "grammar::attribute_conflict"
  | completedState            => "usage::completed_state"
  | noPrefix                  => "usage::no_prefix"
  | noTreeSelected            => "usage::no_tree_selected"
  | noMoreTrees               => "usage::no_more_trees"

/-- What to do about it, where there is something to say. -/
def help : Error → Option String
  | undefinedStart _ => some "add at least one rule for the start symbol"
  | noTreeSelected   => some "call `next_tree` first"
  | noMoreTrees      => some "check `has_more_trees` or call `reset`"
  | _                => none

end Error
end ContextFree
