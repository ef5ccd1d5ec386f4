-- SUMMARY: Sorting families and roots by the identities of the nodes they name.
import ContextFree.Forest.Node

/-!
# The order of families

The families of a node are sorted by the identities of their children, and the roots by their own. The order then
depends on what a forest contains and not on who built it, and with it everything that follows the order: which families
count as loops, and in which order trees are found. Families with equal children keep their order.
-/
namespace ContextFree.Order

/-- Insert a value before the first one that is not smaller. -/
def insertBy {β : Type} (le : β → β → Bool) (x : β) : List β → List β
  | []      => [x]
  | y :: ys => if le x y then x :: y :: ys else y :: insertBy le x ys

/-- Sort a list by inserting its values from the last to the first, so that equal values keep their order. -/
def sortBy {β : Type} (le : β → β → Bool) (xs : List β) : List β :=
  xs.foldr (insertBy le) []

/-- Sort by a key. Each key is computed once. -/
def sortByKey {β κ : Type} [Ord κ] (key : β → κ) (xs : List β) : List β :=
  (sortBy (fun a b => (compare a.1 b.1).isLE) (xs.map fun x => (key x, x))).map (·.2)

/-- The key of a family: the identities of its children. -/
def familyKey (nodes : Array Node) (family : Family) : List Identity :=
  family.children.map fun child => (nodes.getD child default).identity

/-- Sort the families of every node. -/
def orderFamilies (nodes : Array Node) : Array Node :=
  nodes.map fun node =>
    if node.families.size > 1 then
      { node with families := (sortByKey (familyKey nodes) node.families.toList).toArray }
    else node

/-- Sort the roots. -/
def orderRoots (nodes : Array Node) (roots : List NodeId) : List NodeId :=
  sortByKey (fun root => (nodes.getD root default).identity) roots

end ContextFree.Order
