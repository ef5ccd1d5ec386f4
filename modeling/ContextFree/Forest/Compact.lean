-- SUMMARY: Dropping unreachable nodes and renumbering the rest.
import ContextFree.Forest.Survey

/-!
# Compacting

The nodes that the survey reached keep their order and are numbered anew, from zero.
-/
namespace ContextFree.Compact

open Survey (Mark)

/-- The new number of each node. A node that is dropped keeps its old number, which nothing refers to. -/
def renumbering (marks : Array Mark) : Array NodeId :=
  (marks.foldl
    (fun (next, numbers) mark =>
      match mark with
      | .done _ => (next + 1, numbers.push next)
      | _       => (next, numbers.push numbers.size))
    ((0, #[]) : Nat × Array NodeId)).2

/-- The facts about the nodes that stay. -/
def keptFacts (marks : Array Mark) : Array Facts :=
  marks.filterMap Mark.facts?

/-- The nodes that stay, with their children renumbered. -/
def keptNodes (nodes : Array Node) (marks : Array Mark) : Array Node :=
  let numbers := renumbering marks
  (nodes.zip marks).filterMap fun (node, mark) =>
    mark.facts?.map fun _ =>
      { node with families := node.families.map (·.map fun child => numbers.getD child child) }

def keptRoots (marks : Array Mark) (roots : List NodeId) : List NodeId :=
  let numbers := renumbering marks
  roots.map fun root => numbers.getD root root

end ContextFree.Compact
