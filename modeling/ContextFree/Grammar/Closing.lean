-- SUMMARY: Nullable nonterminals of declarations, and closing a grammar by expanding optional items.
import ContextFree.Saturate
import ContextFree.Note
import ContextFree.Grammar.Basic

/-!
# Closing a grammar

A declaration with optional items stands for all rules in which each optional item is either left out or kept. An
optional item whose symbol is a nullable nonterminal is simply kept: to match nothing is left to the rules of that
nonterminal. Rules that come out alike are listed once.
-/
namespace ContextFree

variable {α : Type}

-- ---------------------------------------------------------------------------
-- Nullable nonterminals
-- ---------------------------------------------------------------------------

/-- Whether an item can match nothing when the nonterminals of `nullable` can. -/
def RuleItem.isNullable (nullable : Std.TreeSet Nonterminal) (item : RuleItem) : Bool :=
  item.optional || item.symbol.nonterminal?.any nullable.contains

/-- One round over the declarations: a left-hand side whose body is nullable joins the set. -/
def nullableRound (declarations : List Declaration) (nullable : Std.TreeSet Nonterminal) :
    Std.TreeSet Nonterminal :=
  declarations.foldl
    (fun set d => if d.items.all (·.isNullable set) then set.insert d.lhs else set) nullable

/-- The least set that holds every left-hand side with a nullable body. -/
def nullableNonterminals (declarations : List Declaration) : Std.TreeSet Nonterminal :=
  saturate Std.TreeSet.size (nullableRound declarations) (declarations.length + 1) ∅

-- ---------------------------------------------------------------------------
-- Expansion
-- ---------------------------------------------------------------------------

/-- The bodies that a list of items stands for. Each item that is expanded doubles them: first those without it, then
those with it. -/
def expansions (nullable : Std.TreeSet Nonterminal) (items : List RuleItem) : List (List Symbol) :=
  items.foldl
    (fun bodies item =>
      let longer := bodies.map (· ++ [item.symbol])
      if item.optional && !item.symbol.nonterminal?.any nullable.contains then bodies ++ longer
      else longer)
    [[]]

namespace Grammar

/-- Append a rule unless it is there already. -/
def pushRule (g : Grammar α) (rule : Rule) : Grammar α :=
  if g.rules.contains rule then g
  else
    { g with
      rules := g.rules.push rule
      byLhs := g.byLhs.alter rule.lhs fun ids => some ((ids.getD #[]).push g.rules.size) }

/-- End the declaring and expand all declarations. Closing again changes nothing. -/
def close (g : Grammar α) : Grammar α :=
  if g.closed then g
  else
    let nullable := nullableNonterminals g.declared.toList
    let g := g.declared.foldl
      (fun g d => (expansions nullable d.items).foldl (fun g rhs => g.pushRule ⟨d.lhs, rhs⟩) g) g
    { g with closed := true }

/-- What there is to say when `g` is closed: nothing if it was closed before. -/
def closingNotes (g : Grammar α) : List Note :=
  if g.closed then []
  else
    let closed := g.close
    [.grammarClosed closed.declared.size closed.rules.size closed.terminals.size]

end Grammar
end ContextFree
