-- SUMMARY: The rules whose bodies rest on defined nonterminals only.
import ContextFree.Saturate
import ContextFree.Grammar.Basic

/-!
# Supported rules

A nonterminal is broken if it has no rule, or if each of its rules mentions a broken nonterminal. A rule that
mentions a broken nonterminal can never be completed; the others are the useful ones.
-/
namespace ContextFree.Grammar

variable {α : Type}

/-- Whether the body of a rule mentions a nonterminal of the set. -/
def mentions (g : Grammar α) (broken : Std.TreeSet Nonterminal) (id : RuleId) : Bool :=
  (g.rule id).bodyNonterminals.any broken.contains

/-- Body nonterminals without any rule. -/
def ruleless (g : Grammar α) : Std.TreeSet Nonterminal :=
  (g.rules.toList.flatMap Rule.bodyNonterminals).foldl
    (fun set A => if (g.rulesFor A).isEmpty then set.insert A else set) ∅

/-- One round over the rules: a left-hand side all of whose rules mention the set joins it. -/
def brokenRound (g : Grammar α) (broken : Std.TreeSet Nonterminal) : Std.TreeSet Nonterminal :=
  g.rules.foldl
    (fun set rule =>
      if (g.rulesFor rule.lhs).all (g.mentions set) then set.insert rule.lhs else set)
    broken

def brokenNonterminals (g : Grammar α) : Std.TreeSet Nonterminal :=
  saturate Std.TreeSet.size g.brokenRound (g.rules.size + 1) g.ruleless

/-- For each rule, whether it is useful. -/
def usefulRules (g : Grammar α) : Array Bool :=
  let broken := g.brokenNonterminals
  (Array.range g.rules.size).map fun id => !g.mentions broken id

end ContextFree.Grammar
