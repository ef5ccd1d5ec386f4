-- SUMMARY: One walk through a forest: following a derivation from a root and reporting it as events.
import ContextFree.Forest.Finished
import ContextFree.Tree.Event
import ContextFree.Walk.Selector

/-!
# One walk through a forest

A walk follows one derivation from a root and reports it as events. At each node it follows one family. A family is
usable if it is no loop, none of its children is open on the path, and each child has a derivation without loops. Where
several are usable there is a choice to make: it is taken from the plan of the walk, or else made by the selector, and it
is recorded.

A node without a usable family takes an escape: a family that a walk has completed before, else one that was never
taken, else an empty one, else any that does not lead to an open node. The first escape from a node is remembered.
-/
namespace ContextFree

variable {α σ : Type}

/-- A choice at a node with several usable families. -/
structure Choice where
  node : NodeId
  /-- Families tried at this point, the latest first. -/
  tried : List Nat
  /-- Number of usable families. -/
  candidates : Nat
  chosen : Nat
  ambiguous : Bool
  /-- Whether the next walk is to choose anew. -/
  reselect : Bool := false
deriving DecidableEq

/-- Whether every usable family has been tried. -/
def Choice.isExhausted (c : Choice) : Bool :=
  c.tried.length ≥ c.candidates

/-- What walks remember about families, by node and position. -/
structure WalkMemory where
  /-- The first escape from a node; there may have been no way out. -/
  escapes : Std.TreeMap NodeId (Option Nat) := ∅
  /-- Families that a walk has completed. -/
  productive : Std.TreeSet (NodeId × Nat) := ∅
  /-- Families that a walk has taken. -/
  selected : Std.TreeSet (NodeId × Nat) := ∅

namespace WalkMemory

/-- Remember that a family was taken. -/
def select (m : WalkMemory) (id : NodeId) (family : Nat) : WalkMemory :=
  { m with selected := m.selected.insert (id, family) }

/-- Remember that a family was completed. -/
def complete (m : WalkMemory) (id : NodeId) (family : Nat) : WalkMemory :=
  { m with productive := m.productive.insert (id, family) }

/-- Remember an escape, if it is the first from its node. -/
def escape (m : WalkMemory) (id : NodeId) (family? : Option Nat) : WalkMemory :=
  { m with escapes := m.escapes.insertIfNew id family? }

end WalkMemory

/-- One walk in progress. -/
structure Walk (α σ : Type) where
  memory : WalkMemory
  selector : σ
  /-- Choices of the plan that have not been reached. -/
  plan : List Choice
  /-- Choices of this walk, the latest first. -/
  trace : List Choice := []
  /-- Nodes open on the path. -/
  onPath : Std.TreeSet NodeId := ∅
  madeChoice : Bool := false
  /-- The derivation followed: each inner node with its family, in preorder. -/
  derivation : Array (NodeId × Option Nat) := #[]
  events : Array (Event α) := #[]
  notes : Array Note := #[]

namespace Walk

def emit (w : Walk α σ) (event : Event α) : Walk α σ :=
  { w with events := w.events.push event }

def enter (w : Walk α σ) (id : NodeId) : Walk α σ :=
  { w with onPath := w.onPath.insert id }

/-- Go on from a node by the given family, if there is one. -/
def follow (w : Walk α σ) (id : NodeId) (family? : Option Nat) : Walk α σ :=
  { w with derivation := w.derivation.push (id, family?) }

/-- Leave a node that was derived by the given family. -/
def leave (w : Walk α σ) (id : NodeId) (family? : Option Nat) : Walk α σ :=
  let w := { w with onPath := w.onPath.erase id }
  match family? with
  | some family => { w with memory := w.memory.complete id family }
  | none        => w

/-- Whether a family has a child that is open on the path. -/
def leadsBack (w : Walk α σ) (family : Family) : Bool :=
  family.children.any w.onPath.contains

-- ---------------------------------------------------------------------------
-- Escapes
-- ---------------------------------------------------------------------------

/-- The family by which to leave a node that has no usable one. -/
def findEscape (forest : Forest α) (id : NodeId) (w : Walk α σ) : Option Nat :=
  let families := (forest.node id).families
  let usable := (List.range families.size).filter fun i => !w.leadsBack (families.getD i .nothing)
  (usable.find? fun i => w.memory.productive.contains (id, i)).or
    ((usable.find? fun i => !w.memory.selected.contains (id, i)).or
      ((usable.find? fun i => (families.getD i .nothing).children.isEmpty).or usable.head?))

/-- The remembered escape from a node, if it is still a way out. -/
def rememberedEscape? (forest : Forest α) (id : NodeId) (w : Walk α σ) : Option (Option Nat) :=
  (w.memory.escapes[id]?).filter fun family? =>
    family?.all fun i => !w.leadsBack ((forest.node id).families.getD i .nothing)

/-- Leave a node that has no usable family. -/
def escape (forest : Forest α) (id : NodeId) (w : Walk α σ) : Option Nat × Walk α σ :=
  match w.rememberedEscape? forest id with
  | some family? => (family?, w)
  | none =>
    let family? := w.findEscape forest id
    let memory := w.memory.escape id family?
    match family? with
    | some family => (some family, { w with memory := memory.select id family })
    | none        => (none, { w with memory })

-- ---------------------------------------------------------------------------
-- Choices
-- ---------------------------------------------------------------------------

/-- The usable families of a node. -/
def usableFamilies (forest : Forest α) (id : NodeId) (w : Walk α σ) : List Nat :=
  let families := (forest.node id).families
  (List.range families.size).filter fun i =>
    let family := families.getD i .nothing
    !forest.isLoop id i && !w.leadsBack family && !family.children.any fun child => forest.count child == 0

/-- What a selector sees of a child. -/
def viewChild (forest : Forest α) (child : NodeId) : ChildView :=
  let label := (forest.node child).label
  let symbol := match label with
    | .symbol symbol => some symbol
    | .state id      => (forest.grammar.state id).previous
  { node := child, label, symbol
    attributes := (symbol.map forest.grammar.attributesOf).getD .empty
    span := forest.span child }

/-- What a selector sees of a family. -/
def viewFamily (forest : Forest α) (id : NodeId) (family : Nat) : Candidate :=
  { family
    children := ((forest.node id).families.getD family .nothing).children.map (viewChild forest) }

/-- Ask the selector for one of the usable families. An answer that is out of range or was tried before is replaced by
the first untried family. -/
def ask (forest : Forest α) (selector : Selector σ) (id : NodeId) (usable tried : List Nat) (w : Walk α σ) :
    Nat × Bool × Walk α σ :=
  let candidates := usable.map (viewFamily forest id)
  let (selection, memory) := selector.select candidates tried.reverse w.selector
  let w := { w with selector := memory }
  match (candidates[selection.index]?).filter fun c => !tried.contains c.family with
  | some candidate => (candidate.family, selection.ambiguous, w)
  | none =>
    let first := (usable.find? fun family => !tried.contains family).or usable.head?
    (first.getD 0, selection.ambiguous,
      { w with notes := w.notes.push (.unusableCandidate selection.index candidates.length) })

/-- The choice at a node with several usable families: the planned one, or a new one. -/
def makeChoice (forest : Forest α) (selector : Selector σ) (id : NodeId) (usable : List Nat) (w : Walk α σ) :
    Choice × Walk α σ :=
  let planned := w.plan.head?.filter (·.node == id)
  match planned.filter (!·.reselect) with
  | some choice => (choice, w)
  | none =>
    let tried := (planned.map Choice.tried).getD []
    let (chosen, ambiguous, w) := w.ask forest selector id usable tried
    ({ node := id, tried := chosen :: tried, candidates := usable.length, chosen, ambiguous }, w)

/-- Record a choice and step forward in the plan. -/
def record (w : Walk α σ) (choice : Choice) : Walk α σ :=
  { w with
    memory := w.memory.select choice.node choice.chosen
    plan := w.plan.tail
    trace := choice :: w.trace
    madeChoice := w.madeChoice || choice.ambiguous }

/-- The family by which to derive a node. -/
def choose (forest : Forest α) (selector : Selector σ) (id : NodeId) (w : Walk α σ) : Option Nat × Walk α σ :=
  match w.usableFamilies forest id with
  | []       => w.escape forest id
  | [family] => (some family, { w with memory := w.memory.select id family })
  | usable   =>
    let (choice, w) := w.makeChoice forest selector id usable
    (some choice.chosen, w.record choice)

-- ---------------------------------------------------------------------------
-- The walk
-- ---------------------------------------------------------------------------

/-- Visit a node and all that lies below it along the chosen families. -/
def visit (forest : Forest α) (selector : Selector σ) : (depth : Nat) → NodeId → Walk α σ → Walk α σ
  | 0,         _,  w => w
  | depth + 1, id, w =>
    let node := forest.node id
    let inside (w : Walk α σ) : Walk α σ :=
      let (family?, w) := (w.enter id).choose forest selector id
      let children := (family?.map fun i => (node.families.getD i .nothing).children).getD []
      (children.foldl (fun w child => visit forest selector depth child w) (w.follow id family?)).leave id family?
    match node.label with
    | .symbol (.terminal _) =>
      let tokens := (forest.tokens.extract node.left node.right).toList
      w.emit (.token tokens (forest.attributesOf id) (forest.span id))
    | .symbol (.nonterminal A) =>
      let name := forest.grammar.grammar.nonterminalName A
      let w := inside (w.emit (.opening name (forest.attributesOf id) (forest.span id)))
      w.emit (.closing name (forest.attributesOf id) (forest.span id))
    | .state _ => inside w

/-- The greatest depth of a walk. A path repeats a node only where a planned choice leads back to it. -/
def depthBound (forest : Forest α) (plan : List Choice) : Nat :=
  forest.size + 2 * plan.length + 1

end Walk

end ContextFree
