-- SUMMARY: Calls of nonterminals, the places to return to, and the ends found so far.
import ContextFree.Multimap
import ContextFree.Grammar.Dotted

/-!
# Calls and returns

A call `(A, k)` asks for everything that `A` derives from position `k`. Each caller leaves a return point: the state
after `A` in its rule, and where that rule started. Each end `j` such that `A` derives from `k` to `j` is recorded, so
that a caller who comes later can be resumed at once.
-/
namespace ContextFree.Gll

abbrev Call := Nonterminal × Nat

abbrev ReturnPoint := StateId × Nat

structure Calls where
  opened : Std.TreeSet Call := ∅
  returns : Multimap Call ReturnPoint := .empty
  ends : Multimap Call Nat := .empty

namespace Calls

def isOpen (c : Calls) (call : Call) : Bool :=
  c.opened.contains call

def openCall (c : Calls) (call : Call) : Calls :=
  { c with opened := c.opened.insert call }

/-- Number of calls. -/
def count (c : Calls) : Nat :=
  c.opened.size

end Calls
end ContextFree.Gll
