-- SUMMARY: What the library has to say about its own work, as data with a level and a text.
import ContextFree.Recognition.Report

/-!
# Notes

Operations return notes about what they did next to their result. A note is a fact; its level and its wording are
functions of it.
-/
namespace ContextFree

/-- How important a note is; a smaller rank is more important. -/
inductive Level where
  | warn
  | info
  | debug
  | trace
deriving DecidableEq

namespace Level

def name : Level → String
  | warn  => "WARN"
  | info  => "INFO"
  | debug => "DEBUG"
  | trace => "TRACE"

def rank : Level → Nat
  | warn  => 1
  | info  => 2
  | debug => 3
  | trace => 4

end Level

inductive Note where
  | grammarClosed (declared rules terminals : Nat)
  | undefinedNonterminals (names : List String)
  | progress (report : Report)
  | checkpoint (position : Nat)
  | itemsAccepted (tokens offset items nodes : Nat)
  | itemsFailed (tokens offset : Nat) (lastToken : String)
  | descriptorsProcessed (offset : Nat) (accepted : Bool) (descriptors clusters splits : Nat)
  | forestFinished (reachable created roots : Nat) (ambiguous infinite : Bool) (parses : Nat)
  | unusableCandidate (index count : Nat)
deriving DecidableEq

namespace Note

def level : Note → Level
  | undefinedNonterminals _ | unusableCandidate _ _ => .warn
  | progress _   => .info
  | checkpoint _ => .trace
  | _            => .debug

def message : Note → String
  | grammarClosed declared rules terminals =>
    s!"closed grammar: {declared} declared rules, {rules} rules after expansion, {terminals} terminals"
  | undefinedNonterminals names =>
    "grammar uses undefined nonterminals; rules depending on them are ignored: " ++
      ", ".intercalate names
  | progress report => report.sentence
  | checkpoint position => s!"prefix checkpoint at {position}"
  | itemsAccepted tokens offset items nodes =>
    s!"Earley parse accepted {tokens} tokens at offset {offset}: {items} items, {nodes} nodes"
  | itemsFailed tokens offset lastToken =>
    s!"Earley parse failed after {tokens} tokens at offset {offset} on {lastToken}"
  | descriptorsProcessed offset accepted descriptors clusters splits =>
    let verdict := if accepted then "accepted" else "failed"
    s!"GLL parse at offset {offset} {verdict}: {descriptors} descriptors, {clusters} clusters, " ++
      s!"{splits} BSR elements"
  | forestFinished reachable created roots ambiguous infinite parses =>
    s!"finished forest: {reachable} of {created} nodes reachable, {roots} roots, " ++
      s!"ambiguous={ambiguous}, infinitely ambiguous={infinite}, {parses} parses"
  | unusableCandidate index count =>
    s!"tree selector returned unusable candidate {index} of {count}; taking the first untried family"

/-- A note as a line of a log. -/
def text (note : Note) : String :=
  note.level.name ++ " " ++ note.message

end Note
end ContextFree
