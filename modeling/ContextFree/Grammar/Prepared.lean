-- SUMMARY: A closed grammar made ready for recognition from one start symbol.
import ContextFree.Grammar.Support
import ContextFree.Grammar.Lookahead
import ContextFree.Grammar.Dotted

/-!
# Prepared grammars

Preparing a grammar closes a copy of it, keeps the useful rules, numbers the dotted states and computes the lookahead
sets. It fails only if the start symbol has no rule at all.
-/
namespace ContextFree

variable {α : Type}

structure Prepared (α : Type) where
  grammar : Grammar α
  start : Nonterminal
  useful : Array Bool
  /-- The useful rules of each nonterminal, in increasing order. -/
  usefulByLhs : Std.TreeMap Nonterminal (Array RuleId)
  states : StateTable
  analysis : Analysis
  /-- Nonterminals that are used but have no rule. -/
  undefined : List Nonterminal

namespace Prepared

/-- The useful rules by left-hand side. -/
def indexUseful (g : Grammar α) (useful : Array Bool) : Std.TreeMap Nonterminal (Array RuleId) :=
  (List.range g.rules.size).foldl
    (fun index id =>
      if useful.getD id false then
        index.alter (g.rule id).lhs fun ids => some ((ids.getD #[]).push id)
      else index)
    ∅

def ofGrammar (g : Grammar α) (start : Nonterminal) : Except Error (Prepared α) :=
  let grammar := g.close
  if (grammar.rulesFor start).isEmpty then .error (.undefinedStart (grammar.nonterminalName start))
  else
    let useful := grammar.usefulRules
    .ok
      { grammar, start, useful
        usefulByLhs := indexUseful grammar useful
        states := StateTable.ofRules grammar.rules
        analysis := Analysis.compute grammar useful start
        undefined := grammar.undefinedNonterminals }

/-- What there is to say when `g` is prepared for `start`. -/
def preparingNotes (g : Grammar α) (start : Nonterminal) : List Note :=
  let grammar := g.close
  let undefined := grammar.undefinedNonterminals
  g.closingNotes ++
    if (grammar.rulesFor start).isEmpty || undefined.isEmpty then []
    else [.undefinedNonterminals (undefined.map grammar.nonterminalName)]

/-- The useful rules of a nonterminal. -/
def rulesFor (p : Prepared α) (A : Nonterminal) : Array RuleId :=
  p.usefulByLhs.getD A #[]

def rule (p : Prepared α) (id : RuleId) : Rule :=
  p.grammar.rule id

def state (p : Prepared α) (id : StateId) : Dotted :=
  p.states.get id

def nameOf (p : Prepared α) (symbol : Symbol) : String :=
  p.grammar.nameOf symbol

def attributesOf (p : Prepared α) (symbol : Symbol) : Attributes :=
  p.grammar.attributesOf symbol

/-- A state as `lhs → α · β`. -/
def stateText (p : Prepared α) (id : StateId) : String :=
  let s := p.state id
  let symbols := (p.rule s.rule).rhs.map fun symbol => " " ++ p.nameOf symbol
  p.grammar.nonterminalName s.lhs ++ " →" ++ String.join (symbols.take s.dot) ++ " ·" ++
    String.join (symbols.drop s.dot)

-- ---------------------------------------------------------------------------
-- Matching against the input
-- ---------------------------------------------------------------------------

variable [DecidableEq α]

/-- Number of atoms that a terminal takes at `position`. -/
def matchLength (p : Prepared α) (t : TerminalId) (input : Array α) (position : Nat) : Nat :=
  match p.grammar.terminals[t]? with
  | some terminal => terminal.matchLength input position
  | none          => 0

/-- Whether a terminal accepts an atom. -/
def accepts (p : Prepared α) (t : TerminalId) (atom : α) : Bool :=
  (p.grammar.terminals[t]?).any (·.accepts atom)

/-- Whether the atom at `position` can begin the body of a rule. -/
def firstAllows (p : Prepared α) (rule : RuleId) (input : Array α) (position : Nat) : Bool :=
  match input[position]? with
  | some atom => (p.analysis.ruleFirst.getD rule []).any (p.accepts · atom)
  | none      => false

/-- Whether a rule can start at `position`: its body derives nothing, or the atom there can begin it. -/
def canStart (p : Prepared α) (rule : RuleId) (input : Array α) (position : Nat) : Bool :=
  p.analysis.ruleNullable.getD rule false || p.firstAllows rule input position

/-- Whether what stands at `position`, an atom or the end, can come after a nonterminal. -/
def followAllows (p : Prepared α) (A : Nonterminal) (input : Array α) (position : Nat) : Bool :=
  (p.analysis.isFollower A .endOfInput && position == input.size) ||
    match input[position]? with
    | some atom =>
      (List.range p.grammar.terminals.size).any fun t =>
        p.analysis.isFollower A (.terminal t) && p.accepts t atom
    | none => false

end Prepared
end ContextFree
