-- SUMMARY: One depth-first pass over a forest: reachability, loops, ambiguity and exact numbers of derivations.
import ContextFree.Forest.Node

/-!
# Surveying a forest

The survey visits the nodes below the roots depth first. A family with a child that is still being visited leads
back to an ancestor: it is a loop family. When all families of a node have been seen, the facts about it are settled
from those of its children: how many derivations it has without loops, and whether a loop lies below it.
-/
namespace ContextFree

/-- What the survey finds out about a node. -/
structure Facts where
  /-- Several families, or a family whose children leave a gap or overlap. -/
  ambiguous : Bool := false
  /-- Whether a loop family can be reached. -/
  infinite : Bool := false
  /-- Derivations without loop families; a loop over an empty extent counts as one more. -/
  count : Nat := 0
  /-- The loop families, by position. -/
  loops : List Nat := []
deriving DecidableEq, Inhabited

namespace Survey

inductive Mark where
  | unseen
  | onPath
  | done (facts : Facts)
deriving DecidableEq, Inhabited

def Mark.facts? : Mark → Option Facts
  | done facts => some facts
  | _          => none

/-- The facts about a node, if it is done. -/
def factsOf (marks : Array Mark) (id : NodeId) : Facts :=
  ((marks.getD id .unseen).facts?).getD {}

/-- Two children that cover input but do not meet. -/
def isGapped (nodes : Array Node) : Family → Bool
  | .binary left right =>
    let l := nodes.getD left default
    let r := nodes.getD right default
    l.right != r.left && !l.isEmpty && !r.isEmpty
  | _ => false

/-- Derivations through one family. -/
def familyCount (marks : Array Mark) (family : Family) : Nat :=
  family.children.foldl (fun product child => product * (factsOf marks child).count) 1

/-- The facts about a node whose families have all been seen; `loops` are those that lead back. -/
def settle (nodes : Array Node) (marks : Array Mark) (node : Node) (loops : List Nat) : Facts :=
  let ambiguous := node.families.size > 1 || node.families.any (isGapped nodes)
  if node.families.isEmpty then { ambiguous, count := 1 }
  else
    let forward := (node.families.toList.zipIdx.filter fun (_, i) => !loops.contains i).map (·.1)
    let count := forward.foldl (fun sum family => sum + familyCount marks family) 0
    { ambiguous
      infinite := !loops.isEmpty ||
        forward.any fun family => family.children.any fun child => (factsOf marks child).infinite
      count := if !loops.isEmpty && node.isEmpty then count + 1 else count
      loops }

/-! ## The pass

A visit of a node goes through its families, and a visit of a family through its children. Both take the visit of an
unseen child as a parameter. -/

/-- Go on to a child. The flag says whether a child of the family was found on the path. -/
def visitChild (visit : NodeId → Array Mark → Array Mark) (state : Array Mark × Bool) (child : NodeId) :
    Array Mark × Bool :=
  let (marks, looped) := state
  match marks.getD child .unseen with
  | .onPath => (marks, true)
  | .unseen => (visit child marks, looped)
  | .done _ => (marks, looped)

/-- Go through the children of a family, and see whether it is a loop. -/
def visitFamily (visit : NodeId → Array Mark → Array Mark) (marks : Array Mark) (family : Family) :
    Array Mark × Bool :=
  family.children.foldl (visitChild visit) (marks, false)

/-- Go through families, given with their positions, and collect the positions of the loops. -/
def visitFamilies (visit : NodeId → Array Mark → Array Mark) :
    List (Family × Nat) → Array Mark → Array Mark × List Nat
  | [],                  marks => (marks, [])
  | (family, i) :: rest, marks =>
    let (marks, looped) := visitFamily visit marks family
    let (marks, loops) := visitFamilies visit rest marks
    (marks, if looped then i :: loops else loops)

/-- Visit an unseen node and all that lies below it. The path from the root never holds a node twice, so the number of
nodes bounds the depth. -/
def visit (nodes : Array Node) : (fuel : Nat) → NodeId → Array Mark → Array Mark
  | 0,        _,  marks => marks
  | fuel + 1, id, marks =>
    let node := nodes.getD id default
    let (marks, loops) :=
      visitFamilies (visit nodes fuel) node.families.toList.zipIdx (marks.setIfInBounds id .onPath)
    let facts := settle nodes marks node loops
    marks.setIfInBounds id (.done facts)

/-- Visit all roots. Reachable nodes come out done, the others unseen. -/
def run (nodes : Array Node) (roots : List NodeId) : Array Mark :=
  roots.foldl
    (fun marks root =>
      match marks.getD root .unseen with
      | .unseen => visit nodes (nodes.size + 1) root marks
      | _       => marks)
    (Array.replicate nodes.size .unseen)

end Survey
end ContextFree
