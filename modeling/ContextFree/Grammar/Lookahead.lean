-- SUMMARY: Nullable nonterminals and the FIRST and FOLLOW sets of a closed grammar.
import ContextFree.Grammar.Closing

/-!
# Lookahead sets

For the rules that take part: which nonterminals derive nothing, which terminals a nonterminal can begin with (FIRST), and
what can come after it (FOLLOW). FIRST and FOLLOW are finite relations, kept as sets of pairs; each is the least
relation closed under its rule.
-/
namespace ContextFree

variable {α : Type}

/-- What can come after a nonterminal. -/
inductive Follower where
  | terminal (id : TerminalId)
  | endOfInput
deriving DecidableEq

/-- The end of the input comes first, then the terminals by number. -/
def Follower.rank : Follower → Nat
  | endOfInput => 0
  | terminal t => t + 1

instance : Ord Follower := ⟨compareOn Follower.rank⟩

instance : Std.TransOrd Follower := inferInstanceAs (Std.TransCmp (compareOn Follower.rank))

instance : Std.LawfulEqOrd Follower := lawfulEqCmp_compareOn fun f f' h => by
  cases f <;> cases f' <;> simp_all [Follower.rank]

/-- What a sequence can begin with is decided by its first symbols: a terminal begins with itself, a nonterminal with its
FIRST set and, if it is nullable, with what the rest can begin with. -/
def canBegin (nullable : Std.TreeSet Nonterminal) (first : Std.TreeSet (Nonterminal × TerminalId)) :
    List Symbol → TerminalId → Bool
  | [],                     _ => false
  | .terminal u :: _,       t => t == u
  | .nonterminal A :: rest, t => first.contains (A, t) || (nullable.contains A && canBegin nullable first rest t)

/-- Whether a sequence derives nothing. -/
def allNullable (nullable : Std.TreeSet Nonterminal) (symbols : List Symbol) : Bool :=
  symbols.all fun symbol => symbol.nonterminal?.any nullable.contains

/-- One round of FIRST over the rules, for the terminals below `terminals`. -/
def firstRound (nullable : Std.TreeSet Nonterminal) (terminals : Nat) (rules : List Rule)
    (first : Std.TreeSet (Nonterminal × TerminalId)) : Std.TreeSet (Nonterminal × TerminalId) :=
  rules.foldl
    (fun first rule =>
      (List.range terminals).foldl
        (fun set t => if canBegin nullable first rule.rhs t then set.insert (rule.lhs, t) else set)
        first)
    first

/-- What a rule for `lhs` adds to FOLLOW at the occurrences in `symbols`, a suffix of its body. -/
def followBody (nullable : Std.TreeSet Nonterminal) (first : Std.TreeSet (Nonterminal × TerminalId))
    (terminals : Nat) (lhs : Nonterminal) :
    List Symbol → Std.TreeSet (Nonterminal × Follower) → Std.TreeSet (Nonterminal × Follower)
  | [],                     follow => follow
  | .terminal _ :: rest,    follow => followBody nullable first terminals lhs rest follow
  | .nonterminal A :: rest, follow =>
    let fromRest := (List.range terminals).foldl
      (fun set t => if canBegin nullable first rest t then set.insert (A, .terminal t) else set) follow
    let followers := .endOfInput :: (List.range terminals).map Follower.terminal
    let inherited :=
      if allNullable nullable rest then
        followers.foldl
          (fun set f => if follow.contains (lhs, f) then set.insert (A, f) else set) fromRest
      else fromRest
    followBody nullable first terminals lhs rest inherited

/-- One round of FOLLOW over the rules. -/
def followRound (nullable : Std.TreeSet Nonterminal) (first : Std.TreeSet (Nonterminal × TerminalId))
    (terminals : Nat) (rules : List Rule) (follow : Std.TreeSet (Nonterminal × Follower)) :
    Std.TreeSet (Nonterminal × Follower) :=
  rules.foldl (fun follow rule => followBody nullable first terminals rule.lhs rule.rhs follow) follow

/-- A number above those of all terminals, whether they are registered or only stand in a rule. -/
def Grammar.terminalBound (g : Grammar α) : Nat :=
  (g.rules.toList.flatMap Rule.bodyTerminals).foldl (fun bound t => max bound (t + 1)) g.terminals.size

structure Analysis where
  nullable : Std.TreeSet Nonterminal
  first : Std.TreeSet (Nonterminal × TerminalId)
  follow : Std.TreeSet (Nonterminal × Follower)
  /-- What the body of each rule can begin with, in increasing order. -/
  ruleFirst : Array (List TerminalId)
  /-- Whether the body of each rule derives nothing. -/
  ruleNullable : Array Bool

namespace Analysis

/-- The lookahead sets of the rules that `included` marks; `start` may be followed by the end of the input. The tables by
rule cover all rules. -/
def compute (g : Grammar α) (included : Array Bool) (start : Nonterminal) : Analysis :=
  let terminals := g.terminalBound
  let rules := ((List.range g.rules.size).filter fun id => included.getD id false).map g.rule
  let nullable := nullableNonterminals (rules.map Rule.toDeclaration)
  let first := saturate Std.TreeSet.size (firstRound nullable terminals rules)
    (rules.length * terminals + 1) ∅
  let occurrences := rules.foldl (fun sum rule => sum + rule.rhs.length) 0
  let follow := saturate Std.TreeSet.size (followRound nullable first terminals rules)
    (occurrences * (terminals + 1) + 1) (Std.TreeSet.insert ∅ (start, .endOfInput))
  { nullable, first, follow
    ruleFirst := g.rules.map fun rule => (List.range terminals).filter (canBegin nullable first rule.rhs)
    ruleNullable := g.rules.map fun rule => allNullable nullable rule.rhs }

def isNullable (a : Analysis) (A : Nonterminal) : Bool :=
  a.nullable.contains A

/-- Whether a derivation of `A` can begin with `t`. -/
def isFirst (a : Analysis) (A : Nonterminal) (t : TerminalId) : Bool :=
  a.first.contains (A, t)

/-- Whether `f` can come after `A`. -/
def isFollower (a : Analysis) (A : Nonterminal) (f : Follower) : Bool :=
  a.follow.contains (A, f)

end Analysis
end ContextFree
