-- SUMMARY: Building trees from events.
import ContextFree.Tree.Basic

/-!
# Building trees

The builder reads events and collects one tree between each `startTree` and `endTree`. It keeps a stack of the nodes
that are open. Events that do not fit are taken as they come: a closing event with no open node is ignored, and several
trees side by side are put under a nameless root.
-/
namespace ContextFree

variable {α : Type}

/-- The flags reported with a tree. -/
structure TreeInfo where
  ambiguous : Bool := false
  infinite : Bool := false
  madeChoice : Bool := false
deriving DecidableEq

/-- A node whose closing event has not come yet. -/
structure OpenNode (α : Type) where
  name : String
  attributes : Attributes
  span : Span
  /-- Finished children, the latest first. -/
  children : List (Tree α) := []

def OpenNode.close (n : OpenNode α) : Tree α :=
  .node n.name n.attributes n.span n.children.reverse

structure TreeBuilder (α : Type) where
  /-- Open nodes, the innermost first. -/
  opened : List (OpenNode α) := []
  /-- Finished outermost trees, the latest first. -/
  roots : List (Tree α) := []
  info : TreeInfo := {}
  /-- Trees built so far, with their flags. -/
  trees : Array (Tree α × TreeInfo) := #[]

namespace TreeBuilder

def empty : TreeBuilder α := {}

/-- The last tree built. -/
def last? (b : TreeBuilder α) : Option (Tree α × TreeInfo) :=
  b.trees.back?

/-- Add a finished tree to the innermost open node, or to the roots. -/
def attach (b : TreeBuilder α) (tree : Tree α) : TreeBuilder α :=
  match b.opened with
  | parent :: rest => { b with opened := { parent with children := tree :: parent.children } :: rest }
  | []             => { b with roots := tree :: b.roots }

/-- One tree for a list of outermost trees: none, the only one, or a nameless node over all. -/
def join : List (Tree α) → Option (Tree α)
  | []            => none
  | [tree]        => some tree
  | first :: rest =>
    let stop := ((first :: rest).getLast?.map fun tree => tree.span.stop).getD 0
    some (.node "" .empty ⟨first.span.start, stop⟩ (first :: rest))

/-- Read one event. -/
def step (b : TreeBuilder α) : Event α → TreeBuilder α
  | .startTree ambiguous infinite =>
    { b with opened := [], roots := [], info := { ambiguous, infinite } }
  | .endTree madeChoice =>
    let info := { b.info with madeChoice }
    let trees := match join b.roots.reverse with
      | some tree => b.trees.push (tree, info)
      | none      => b.trees
    { b with roots := [], info, trees }
  | .opening name attributes span =>
    { b with opened := { name, attributes, span } :: b.opened }
  | .closing _ _ _ =>
    match b.opened with
    | node :: rest => { b with opened := rest }.attach node.close
    | []           => b
  | .token tokens attributes span =>
    b.attach (.leaf tokens attributes span)

/-- Read a sequence of events. -/
def feed (b : TreeBuilder α) (events : List (Event α)) : TreeBuilder α :=
  events.foldl step b

end TreeBuilder
end ContextFree
