-- SUMMARY: Parse trees: their parts, their tokens, their events and their bracketed text.
import ContextFree.Tree.Event

/-!
# Parse trees

A node has a name and children; a leaf has the atoms that a terminal took. `Tree.events` lists the events of a tree in
preorder, which is what the builder of trees (see `Tree.Builder`) reads.
-/
namespace ContextFree

variable {α : Type}

inductive Tree (α : Type) where
  | node (name : String) (attributes : Attributes) (span : Span) (children : List (Tree α))
  | leaf (tokens : List α) (attributes : Attributes) (span : Span)

namespace Tree

def span : Tree α → Span
  | node _ _ span _ => span
  | leaf _ _ span   => span

def attributes : Tree α → Attributes
  | node _ attributes _ _ => attributes
  | leaf _ attributes _   => attributes

/-- The name of an inner node. -/
def name? : Tree α → Option String
  | node name _ _ _ => some name
  | leaf _ _ _      => none

def children : Tree α → List (Tree α)
  | node _ _ _ children => children
  | leaf _ _ _          => []

mutual

/-- The atoms of all leaves, from left to right. -/
def yield : Tree α → List α
  | node _ _ _ children => yieldAll children
  | leaf tokens _ _     => tokens

/-- The atoms of a list of trees. -/
def yieldAll : List (Tree α) → List α
  | []            => []
  | tree :: trees => tree.yield ++ yieldAll trees

end

mutual

/-- The events of a tree, in preorder. -/
def events : Tree α → List (Event α)
  | node name attributes span children =>
    .opening name attributes span :: (eventsAll children ++ [.closing name attributes span])
  | leaf tokens attributes span => [.token tokens attributes span]

/-- The events of a list of trees. -/
def eventsAll : List (Tree α) → List (Event α)
  | []            => []
  | tree :: trees => tree.events ++ eventsAll trees

end

mutual

/-- The trees below a tree and itself, in preorder, each with its depth. -/
def preorder (depth : Nat) : Tree α → List (Nat × Tree α)
  | node name attributes span children =>
    (depth, node name attributes span children) :: preorderAll (depth + 1) children
  | leaf tokens attributes span => [(depth, leaf tokens attributes span)]

/-- The trees below a list of trees. -/
def preorderAll (depth : Nat) : List (Tree α) → List (Nat × Tree α)
  | []            => []
  | tree :: trees => preorder depth tree ++ preorderAll depth trees

end

mutual

/-- The bracketed form `name(child child)`; a leaf shows its atom, or the list of its atoms if it has not exactly one. -/
def text [Quote α] : Tree α → String
  | node name _ _ children => name ++ "(" ++ " ".intercalate (texts children) ++ ")"
  | leaf [atom] _ _        => quote atom
  | leaf tokens _ _        => quoteList tokens

/-- The texts of a list of trees. -/
def texts [Quote α] : List (Tree α) → List String
  | []            => []
  | tree :: trees => tree.text :: texts trees

end

end Tree
end ContextFree
