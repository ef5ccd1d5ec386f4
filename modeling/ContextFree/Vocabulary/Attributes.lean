-- SUMMARY: Write-once attributes of a symbol, kept sorted by name.
import ContextFree.Text.Integer

/-!
# Attributes

A symbol carries a small set of named values. The entries are sorted by name, so that a name is found by halving, and
a name keeps the first value it was given.
-/
namespace ContextFree

structure Attributes where
  entries : Array (String × String) := #[]
deriving DecidableEq, Inhabited

namespace Attributes

def empty : Attributes := {}

/-- Where a name stands among the entries, or where it would have to be inserted. -/
inductive Place where
  | taken (index : Nat)
  | vacant (index : Nat)
deriving DecidableEq

/-- Halve the interval from `lo` to `hi` until the name is found or the interval is empty. -/
def search (entries : Array (String × String)) (name : String) : (fuel lo hi : Nat) → Place
  | 0,        lo, _  => .vacant lo
  | fuel + 1, lo, hi =>
    if lo < hi then
      let middle := (lo + hi) / 2
      match entries[middle]? with
      | none => .vacant lo
      | some (existing, _) =>
        match compare existing name with
        | .eq => .taken middle
        | .lt => search entries name fuel (middle + 1) hi
        | .gt => search entries name fuel lo middle
    else .vacant lo

/-- The place of a name. Each halving shortens the interval, so one more step than there are entries is enough. -/
def locate (a : Attributes) (name : String) : Place :=
  search a.entries name (a.entries.size + 1) 0 a.entries.size

def get? (a : Attributes) (name : String) : Option String :=
  match a.locate name with
  | .taken index => (a.entries[index]?).map (·.2)
  | .vacant _    => none

def contains (a : Attributes) (name : String) : Bool :=
  match a.locate name with
  | .taken _  => true
  | .vacant _ => false

def size (a : Attributes) : Nat := a.entries.size

def isEmpty (a : Attributes) : Bool := a.entries.isEmpty

/-- Entries as pairs of name and value, sorted by name. -/
def toList (a : Attributes) : List (String × String) := a.entries.toList

/-- Give `name` the value `value`, or report the different value that it already has. -/
def set (a : Attributes) (name value : String) : Except String Attributes :=
  match a.locate name with
  | .vacant index => .ok { entries := a.entries.insertIdxIfInBounds index (name, value) }
  | .taken index  =>
    match a.entries[index]? with
    | none => .ok a
    | some (_, existing) => if existing = value then .ok a else .error existing

/-- The integer value of `priority`, if it has one. -/
def priority (a : Attributes) : Option Int :=
  (a.get? "priority").bind Text.word?

/-- Whether empty nodes of the symbol may be left out of a forest. Only `prunable=false` forbids it. -/
def isPrunable (a : Attributes) : Bool :=
  a.get? "prunable" != some "false"

/-- All entries in braces, as `name=value`. -/
def text (a : Attributes) : String :=
  "\x7b" ++ ", ".intercalate (a.toList.map fun (name, value) => name ++ "=" ++ value) ++ "\x7d"

end Attributes
end ContextFree
