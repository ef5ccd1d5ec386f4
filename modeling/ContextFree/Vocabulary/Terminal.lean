-- SUMMARY: Terminals, the atoms they accept and how much input they take.
import ContextFree.Text.Quote

/-!
# Terminals

A terminal accepts single atoms. An ordinary terminal takes one accepted atom; a greedy one takes the longest run of
accepted atoms as a single leaf. Atoms are opaque: they can be compared and quoted, and nothing else.
-/
namespace ContextFree

variable {α : Type}

/-- How a terminal decides about an atom. -/
inductive Matcher (α : Type) where
  /-- Exactly this atom. -/
  | exact (atom : α)
  /-- Any of the listed atoms. -/
  | oneOf (atoms : List α)
  /-- Any atom that satisfies the test. -/
  | satisfying (test : α → Bool)
  /-- Every atom. -/
  | any

namespace Matcher

def accepts [DecidableEq α] (m : Matcher α) (atom : α) : Bool :=
  match m with
  | exact a         => atom = a
  | oneOf atoms     => atoms.contains atom
  | satisfying test => test atom
  | any             => true

def text [Quote α] : Matcher α → String
  | exact a      => "Exact(" ++ quote a ++ ")"
  | oneOf atoms  => "OneOf(" ++ quoteList atoms ++ ")"
  | satisfying _ => "Predicate(..)"
  | any          => "Any"

end Matcher

structure Terminal (α : Type) where
  name : String
  matcher : Matcher α
  greedy : Bool := false

/-- Length of the run of accepted atoms that starts at `position`, looking at `fuel` atoms at most. -/
def runLength (accepts : α → Bool) (input : Array α) : (fuel position : Nat) → Nat
  | 0,        _        => 0
  | fuel + 1, position =>
    match input[position]? with
    | some atom => if accepts atom then runLength accepts input fuel (position + 1) + 1 else 0
    | none      => 0

namespace Terminal

-- ---------------------------------------------------------------------------
-- Definitions
-- ---------------------------------------------------------------------------

/-- The terminal of one atom, named by its quoted form. -/
def token [Quote α] (atom : α) : Terminal α :=
  { name := quote atom, matcher := .exact atom }

def oneOf (name : String) (atoms : List α) : Terminal α :=
  { name, matcher := .oneOf atoms }

def satisfying (name : String) (test : α → Bool) : Terminal α :=
  { name, matcher := .satisfying test }

/-- The terminal of any one atom. -/
def any : Terminal α :=
  { name := "$any", matcher := .any }

/-- The characters from `lo` to `hi`, both included. -/
def range (lo hi : Char) : Terminal Char :=
  satisfying ("[" ++ lo.toString ++ "-" ++ hi.toString ++ "]") fun c => lo ≤ c && c ≤ hi

/-- The characters of a string. -/
def chars (set : String) : Terminal Char :=
  oneOf ("[" ++ set ++ "]") set.toList

/-- Take the longest run of accepted atoms instead of a single one. -/
def greedily (t : Terminal α) : Terminal α :=
  { t with greedy := true }

/-- Rename a terminal; names are for display only. -/
def named (t : Terminal α) (name : String) : Terminal α :=
  { t with name }

-- ---------------------------------------------------------------------------
-- Matching
-- ---------------------------------------------------------------------------

variable [DecidableEq α]

def accepts (t : Terminal α) (atom : α) : Bool :=
  t.matcher.accepts atom

/-- Number of atoms taken at `position`. Zero means that the terminal does not match there. -/
def matchLength (t : Terminal α) (input : Array α) (position : Nat) : Nat :=
  if t.greedy then runLength t.accepts input (input.size - position) position
  else if (input[position]?).any t.accepts then 1 else 0

/-- Whether two terminals take the same atoms in the same way for all that their definitions show. Tests are never
compared, and listed atoms count only together with their name. -/
def sameDefinition (t u : Terminal α) : Bool :=
  t.greedy == u.greedy &&
    match t.matcher, u.matcher with
    | .exact a,  .exact b  => a = b
    | .oneOf as, .oneOf bs => as = bs && t.name == u.name
    | .any,      .any      => true
    | _,         _         => false

end Terminal
end ContextFree
