-- SUMMARY: Leaving pure empty nodes out of the families that mention them.
import ContextFree.Saturate
import ContextFree.Forest.Table

/-!
# Trimming empty nodes

A node is pure if its extent is empty, its label may be pruned, and it has exactly one family, whose children are all
pure: there is one way to derive it and nothing to see in it. Trimming removes the pure nodes from the families of all
nodes. Families are shortened, never merged or dropped.
-/
namespace ContextFree.Trim

variable {α : Type}

/-- Whether empty nodes with this label may be left out. Dotted states always may. -/
def isPrunable (p : Prepared α) : Label → Bool
  | .symbol s => (p.attributesOf s).isPrunable
  | .state _  => true

/-- Whether a node is pure, given nodes already known to be. -/
def isPure (p : Prepared α) (pure : Std.TreeSet NodeId) (node : Node) : Bool :=
  node.isEmpty && node.families.size == 1 && isPrunable p node.label &&
    node.families.all fun family => family.children.all pure.contains

/-- One round over the nodes. -/
def pureRound (p : Prepared α) (nodes : Array Node) (pure : Std.TreeSet NodeId) : Std.TreeSet NodeId :=
  (List.range nodes.size).foldl
    (fun set id => if isPure p set (nodes.getD id default) then set.insert id else set) pure

/-- The least set of nodes that holds every pure node. -/
def pureNodes (p : Prepared α) (nodes : Array Node) : Std.TreeSet NodeId :=
  saturate Std.TreeSet.size (pureRound p nodes) (nodes.size + 1) ∅

/-- Remove the pure nodes from all families. -/
def trim (p : Prepared α) (nodes : Array Node) : Array Node :=
  let pure := pureNodes p nodes
  nodes.map fun node =>
    { node with families := node.families.map (·.filter fun child => !pure.contains child) }

end ContextFree.Trim
