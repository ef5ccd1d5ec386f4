-- SUMMARY: Nodes of a packed forest: labels, extents, identities, and families of children.
import ContextFree.Grammar.Dotted

/-!
# Nodes and families

A node stands for all derivations of its label over its extent. The label is a grammar symbol or, for a part of a rule that
has been recognized, a dotted state. Label and extent together are the identity of a node. Each family of a node is
one way to derive it: from nothing, from one child, or from two children.
-/
namespace ContextFree

abbrev NodeId := Nat

/-- A half-open range of input positions. -/
structure Span where
  start : Nat
  stop : Nat
deriving DecidableEq, Inhabited

namespace Span

def length (s : Span) : Nat := s.stop - s.start

def isEmpty (s : Span) : Bool := s.start == s.stop

def text (s : Span) : String := s!"{s.start}..{s.stop}"

end Span

inductive Label where
  | symbol (symbol : Symbol)
  | state (id : StateId)
deriving DecidableEq, Inhabited

namespace Label

def symbol? : Label → Option Symbol
  | symbol s => some s
  | state _  => none

/-- Whether the label is a dotted state. -/
def isIntermediate : Label → Bool
  | symbol _ => false
  | state _  => true

def isTerminal : Label → Bool
  | symbol s => s.isTerminal
  | state _  => false

/-- Symbols come before states, in their own order; states are ordered by number. -/
def rank : Label → Nat × Nat
  | symbol s => s.rank
  | state id => (2, id)

end Label

/-- What tells a node from all others: its label and its extent, relative to the start of the parse. -/
structure Identity where
  label : Label
  left : Nat
  right : Nat
deriving DecidableEq, Inhabited

namespace Identity

/-- Identities are ordered by label, then by left end, then by right end. -/
def rank (id : Identity) : (Nat × Nat) × Nat × Nat :=
  (id.label.rank, id.left, id.right)

/-- Whether the extent covers no input. -/
def isEmpty (id : Identity) : Bool :=
  id.left == id.right

end Identity

theorem Label.rank_injective (l l' : Label) (h : l.rank = l'.rank) : l = l' := by
  rcases l with (s | s) | s <;> rcases l' with (t | t) | t <;> simp_all [Label.rank, Symbol.rank]

instance : Ord Identity := ⟨compareOn Identity.rank⟩

instance : Std.TransOrd Identity := inferInstanceAs (Std.TransCmp (compareOn Identity.rank))

instance : Std.LawfulEqOrd Identity := lawfulEqCmp_compareOn fun i i' h => by
  obtain ⟨label, left, right⟩ := i
  obtain ⟨label', left', right'⟩ := i'
  simp only [Identity.rank, Prod.mk.injEq] at h
  rw [Label.rank_injective label label' h.1, h.2.1, h.2.2]

/-- One way to derive a node. -/
inductive Family where
  | nothing
  | unary (child : NodeId)
  | binary (left right : NodeId)
deriving DecidableEq, Inhabited

namespace Family

/-- Children from left to right. -/
def children : Family → List NodeId
  | nothing           => []
  | unary child       => [child]
  | binary left right => [left, right]

/-- The family of at most two children. -/
def ofPair (left? right? : Option NodeId) : Family :=
  match left?, right? with
  | some left, some right => binary left right
  | some only, none       => unary only
  | none,      some only  => unary only
  | none,      none       => nothing

/-- Leave out the children that fail the test. -/
def filter (keep : NodeId → Bool) : Family → Family
  | nothing           => nothing
  | unary child       => ofPair none (some child |>.filter keep)
  | binary left right => ofPair (some left |>.filter keep) (some right |>.filter keep)

/-- Renumber the children. -/
def map (f : NodeId → NodeId) : Family → Family
  | nothing           => nothing
  | unary child       => unary (f child)
  | binary left right => binary (f left) (f right)

def text (family : Family) : String :=
  "(" ++ " ".intercalate (family.children.map fun child => s!"#{child}") ++ ")"

end Family

structure Node where
  identity : Identity
  families : Array Family := #[]
deriving DecidableEq, Inhabited

namespace Node

def label (n : Node) : Label := n.identity.label

def left (n : Node) : Nat := n.identity.left

def right (n : Node) : Nat := n.identity.right

def isEmpty (n : Node) : Bool := n.identity.isEmpty

def hasAlternatives (n : Node) : Bool := n.families.size > 1

def isTerminal (n : Node) : Bool := n.label.isTerminal

end Node
end ContextFree
