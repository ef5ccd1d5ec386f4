-- SUMMARY: The items of one input position, with their indexes.
import ContextFree.Forest.Node

/-!
# Item sets

An item says that the part of a rule before its dot has been recognized from some origin up to the position of the set. It
carries the forest node of that part. Items are kept in the order of their arrival; those with a terminal after the
dot are listed apart, those with a nonterminal after it are indexed by that nonterminal.
-/
namespace ContextFree.Earley

structure Item where
  state : StateId
  origin : Nat
  /-- Missing while nothing of the rule has been recognized. -/
  node : Option NodeId
deriving DecidableEq

/-- Items are ordered by state, then by origin, then by node. -/
def Item.rank (item : Item) : Nat × Nat × Option Nat :=
  (item.state, item.origin, item.node)

instance : Ord Item := ⟨compareOn Item.rank⟩

instance : Std.TransOrd Item := inferInstanceAs (Std.TransCmp (compareOn Item.rank))

instance : Std.LawfulEqOrd Item := lawfulEqCmp_compareOn fun a b h => by
  cases a; cases b; simpa [Item.rank] using h

structure ItemSet where
  items : Array Item := #[]
  seen : Std.TreeSet Item := ∅
  /-- Items with a terminal after the dot. -/
  scans : Array Item := #[]
  /-- Items by the nonterminal after the dot. -/
  waiting : Std.TreeMap Nonterminal (Array Item) := ∅
  /-- Nonterminals whose rules have been added. -/
  predicted : Std.TreeSet Nonterminal := ∅

namespace ItemSet

/-- Add an item with the symbol after its dot, unless it is there already. -/
def add (s : ItemSet) (next : Option Symbol) (item : Item) : ItemSet :=
  let ⟨items, seen, scans, waiting, predicted⟩ := s
  if seen.contains item then ⟨items, seen, scans, waiting, predicted⟩
  else
    let items := items.push item
    let seen := seen.insert item
    match next with
    | some (.terminal _)    => ⟨items, seen, scans.push item, waiting, predicted⟩
    | some (.nonterminal A) =>
      ⟨items, seen, scans, waiting.alter A fun old => some ((old.getD #[]).push item), predicted⟩
    | none                  => ⟨items, seen, scans, waiting, predicted⟩

/-- Items with `A` after the dot. -/
def waitingOn (s : ItemSet) (A : Nonterminal) : Array Item :=
  s.waiting.getD A #[]

/-- Remember that the rules of `A` have been added. -/
def markPredicted (s : ItemSet) (A : Nonterminal) : ItemSet :=
  { s with predicted := s.predicted.insert A }

end ItemSet
end ContextFree.Earley
