-- SUMMARY: The table of nodes while a forest is being built: one node per identity, no family twice.
import ContextFree.Forest.Node
import ContextFree.Grammar.Prepared

/-!
# Node tables

Recognizers ask for nodes by identity. The first request creates a node, later ones find it. Families are added one
by one; adding a family again changes nothing.
-/
namespace ContextFree

variable {α : Type}

structure NodeTable where
  nodes : Array Node := #[]
  index : Std.TreeMap Identity NodeId := ∅

namespace NodeTable

def size (t : NodeTable) : Nat := t.nodes.size

def node (t : NodeTable) (id : NodeId) : Node :=
  t.nodes.getD id default

/-- The node of an identity, if there is one. -/
def find? (t : NodeTable) (identity : Identity) : Option NodeId :=
  t.index[identity]?

/-- The node of an identity, created on the first request. -/
def intern (t : NodeTable) (identity : Identity) : NodeId × NodeTable :=
  match t.find? identity with
  | some id => (id, t)
  | none    =>
    let ⟨nodes, index⟩ := t
    let id := nodes.size
    (id, ⟨nodes.push { identity }, index.insert identity id⟩)

/-- Add a family to a node unless it has it already. -/
def addFamily (t : NodeTable) (id : NodeId) (family : Family) : NodeTable :=
  let ⟨nodes, index⟩ := t
  ⟨nodes.modify id fun node =>
    let ⟨identity, families⟩ := node
    ⟨identity, if families.contains family then families else families.push family⟩, index⟩

/-- The node for `state` over `left` to `right`, when `child` is the node of the symbol just passed and `before?` that of the
part of the rule before it. Right after the first symbol of a longer rule, the child itself stands for the
part recognized so far. -/
def recordStep (t : NodeTable) (p : Prepared α) (state : StateId) (left right : Nat)
    (before? : Option NodeId) (child : NodeId) : NodeId × NodeTable :=
  let s := p.state state
  if s.dot == 1 && !s.isComplete then (child, t)
  else
    let label : Label := if s.isComplete then .symbol (.nonterminal s.lhs) else .state state
    let (id, t) := t.intern ⟨label, left, right⟩
    (id, t.addFamily id (.ofPair before? (some child)))

/-- The index of a list of nodes by identity. -/
def indexOf (nodes : Array Node) : Std.TreeMap Identity NodeId :=
  (List.range nodes.size).foldl (fun index id => index.insert (nodes.getD id default).identity id) ∅

def ofNodes (nodes : Array Node) : NodeTable :=
  { nodes, index := indexOf nodes }

end NodeTable
end ContextFree
