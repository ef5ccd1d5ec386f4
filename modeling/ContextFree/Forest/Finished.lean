-- SUMMARY: Finished forests: their nodes, facts, roots and tokens, and how a node table becomes one.
import ContextFree.Forest.Trim
import ContextFree.Forest.Order
import ContextFree.Forest.Compact

/-!
# Packed forests

A forest holds every derivation of the consumed tokens. A table of nodes becomes a forest in four steps: pure empty nodes
are trimmed, families are ordered, a survey settles the facts about each node, and unreachable nodes are dropped.
-/
namespace ContextFree

variable {α : Type}

structure Forest (α : Type) where
  grammar : Prepared α
  table : NodeTable
  roots : List NodeId
  /-- The input that was consumed. -/
  tokens : Array α
  /-- Where the first token stands in the complete input. -/
  offset : Nat
  /-- The facts about each node. -/
  facts : Array Facts

namespace Forest

-- ---------------------------------------------------------------------------
-- Finishing
-- ---------------------------------------------------------------------------

/-- Root a table of nodes over the tokens consumed from `offset`. -/
def finish (p : Prepared α) (table : NodeTable) (roots : List NodeId) (tokens : Array α) (offset : Nat) :
    Forest α :=
  let nodes := Order.orderFamilies (Trim.trim p table.nodes)
  let roots := Order.orderRoots nodes roots
  let marks := Survey.run nodes roots
  { grammar := p
    table := NodeTable.ofNodes (Compact.keptNodes nodes marks)
    roots := Compact.keptRoots marks roots
    tokens, offset
    facts := Compact.keptFacts marks }

-- ---------------------------------------------------------------------------
-- Nodes
-- ---------------------------------------------------------------------------

def size (f : Forest α) : Nat := f.table.size

def isEmpty (f : Forest α) : Bool := f.size == 0

def node (f : Forest α) (id : NodeId) : Node := f.table.node id

/-- The node of an identity, if there is one. -/
def find? (f : Forest α) (identity : Identity) : Option NodeId :=
  f.table.find? identity

/-- The extent of a node in the complete input. -/
def span (f : Forest α) (id : NodeId) : Span :=
  let node := f.node id
  ⟨f.offset + node.left, f.offset + node.right⟩

/-- The attributes of a node's symbol; a node labelled by a state has none. -/
def attributesOf (f : Forest α) (id : NodeId) : Attributes :=
  match (f.node id).label with
  | .symbol symbol => f.grammar.attributesOf symbol
  | .state _       => .empty

/-- The name of a symbol, or a dotted rule. -/
def labelName (f : Forest α) : Label → String
  | .symbol symbol => f.grammar.nameOf symbol
  | .state id      => f.grammar.stateText id

-- ---------------------------------------------------------------------------
-- Facts
-- ---------------------------------------------------------------------------

def factsOf (f : Forest α) (id : NodeId) : Facts :=
  f.facts.getD id {}

/-- Whether a family of a node leads back to an ancestor. -/
def isLoop (f : Forest α) (id : NodeId) (family : Nat) : Bool :=
  (f.factsOf id).loops.contains family

/-- Derivations below a node, loop families left aside. -/
def count (f : Forest α) (id : NodeId) : Nat :=
  (f.factsOf id).count

/-- Several roots, or a node that can be derived in several ways. -/
def isAmbiguous (f : Forest α) : Bool :=
  f.roots.length > 1 || f.facts.any (·.ambiguous)

/-- Whether some family leads back to an ancestor. -/
def isInfinite (f : Forest α) : Bool :=
  f.facts.any fun facts => !facts.loops.isEmpty

/-- Number of trees over all roots. -/
def total (f : Forest α) : Nat :=
  f.roots.foldl (fun sum root => sum + f.count root) 0

-- ---------------------------------------------------------------------------
-- Text
-- ---------------------------------------------------------------------------

/-- One line per node, ended by a line break: its number, its name, its extent and its families. -/
def text (f : Forest α) : String :=
  String.join (f.table.nodes.toList.zipIdx.map fun (node, id) =>
    s!"#{id} " ++ f.labelName node.label ++ s!"[{node.left}..{node.right}]" ++
      String.join (node.families.toList.map fun family => " " ++ family.text) ++ "\n")

/-- The whole forest on one line. -/
def summary (f : Forest α) : String :=
  let roots := Text.bracketed (f.roots.map fun root => s!"NodeId({root})")
  s!"ParseForest \x7b nodes: {f.size}, roots: {roots}, offset: {f.offset}, " ++
    s!"ambiguous: {f.isAmbiguous}, infinitely_ambiguous: {f.isInfinite} \x7d"

/-- The note on a forest finished from a table of `created` nodes. -/
def finishedNote (f : Forest α) (created : Nat) : Note :=
  .forestFinished f.size created f.roots.length f.isAmbiguous f.isInfinite f.total

/-- A count as an unsigned 64-bit counter shows it. -/
def bounded (count : Nat) : Nat := min count 18446744073709551615

end Forest
end ContextFree
