-- SUMMARY: The events by which a walk reports a tree, and their one-line form.
import ContextFree.Forest.Node
import ContextFree.Vocabulary.Attributes
import ContextFree.Text.Quote

/-!
# Tree events

A tree is reported as a sequence of events. The whole is bracketed by `startTree` and `endTree`; a nonterminal is opened
before its children and closed after them; a terminal is one `token` event with the atoms it took. Spans are positions in
the complete input.
-/
namespace ContextFree

variable {α : Type}

inductive Event (α : Type) where
  | startTree (ambiguous infinite : Bool)
  | endTree (madeChoice : Bool)
  | opening (name : String) (attributes : Attributes) (span : Span)
  | closing (name : String) (attributes : Attributes) (span : Span)
  | token (tokens : List α) (attributes : Attributes) (span : Span)
deriving DecidableEq

/-- An event on one line. -/
def Event.line [Quote α] : Event α → String
  | startTree ambiguous infinite => s!"start tree ambiguous={ambiguous} infinite={infinite}"
  | endTree madeChoice           => s!"end tree choice={madeChoice}"
  | opening name _ span          => "start " ++ name ++ " " ++ span.text
  | closing name _ span          => "end " ++ name ++ " " ++ span.text
  | token tokens _ span          => "token " ++ quoteList tokens ++ " " ++ span.text

end ContextFree
