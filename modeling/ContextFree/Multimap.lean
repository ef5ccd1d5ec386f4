-- SUMMARY: A finite relation that keeps, for each key, its values in the order of their arrival.
import ContextFree.KeyOrder

/-!
# Multimaps

A `Multimap` relates keys to values. The values of a key stand in the order in which they were added, each once.
-/
namespace ContextFree

variable {κ β : Type} [Ord κ] [DecidableEq β]

structure Multimap (κ β : Type) [Ord κ] where
  lists : Std.TreeMap κ (Array β) := ∅

namespace Multimap

def empty : Multimap κ β := {}

/-- The values of `key`, oldest first. -/
def get (m : Multimap κ β) (key : κ) : Array β :=
  m.lists.getD key #[]

def contains (m : Multimap κ β) (key : κ) (value : β) : Bool :=
  (m.get key).contains value

/-- Number of related pairs. -/
def size (m : Multimap κ β) : Nat :=
  m.lists.foldl (fun sum _ values => sum + values.size) 0

/-- Relate `key` to `value`; a pair that is already known stays where it is. -/
def add (m : Multimap κ β) (key : κ) (value : β) : Multimap κ β :=
  let ⟨lists⟩ := m
  ⟨lists.alter key fun old? =>
    let old := old?.getD #[]
    some (if old.contains value then old else old.push value)⟩

end Multimap
end ContextFree
