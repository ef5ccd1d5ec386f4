-- SUMMARY: Recognition by item sets, position by position, building the forest on the way.
import ContextFree.Earley.ItemSet
import ContextFree.Recognition.Outcome
import ContextFree.Recognition.Progress

/-!
# Recognition by item sets

There is one item set per position. Closing a set predicts the rules of the nonterminals after the dots and moves the
dots of waiting items over completed nonterminals; scanning moves dots over terminals into later sets. Every move
records a family in the node table, so the table holds all derivations when the last set is closed.

A nonterminal that derives nothing at the current position may be completed before an item that waits for it arrives. The
closing loop therefore remembers the node of each such nonterminal and moves late items over it at once.
-/
namespace ContextFree.Earley

variable {α : Type}

structure Config where
  /-- Remember the longest accepted prefix, for inputs that are not accepted. -/
  prefixParsing : Bool := false
  /-- Keep the item sets in the outcome. -/
  retainChart : Bool := false
  /-- Predict only rules that the next atom can begin. -/
  lookahead : Bool := true
deriving DecidableEq

/-- What a run works on: the tokens from `offset` on. -/
structure Job (α : Type) where
  grammar : Prepared α
  config : Config
  tokens : Array α
  offset : Nat

structure Run where
  sets : Array ItemSet
  table : NodeTable := {}
  /-- The furthest position into which a dot was moved. -/
  furthest : Nat := 0
  workItems : Nat := 0

namespace Run

def init (job : Job α) : Run :=
  { sets := Array.replicate (job.tokens.size + 1) {} }

def set (run : Run) (position : Nat) : ItemSet :=
  run.sets.getD position {}

/-- Add an item at a position. -/
def addItem (job : Job α) (position : Nat) (item : Item) (run : Run) : Run :=
  let next := (job.grammar.state item.state).next
  { run with sets := run.sets.modify position (·.add next item) }

/-- The node of the start symbol over everything up to `stop`, if it has been recognized. -/
def startNode? (job : Job α) (stop : Nat) (run : Run) : Option NodeId :=
  run.table.find? ⟨.symbol (.nonterminal job.grammar.start), 0, stop⟩

variable [DecidableEq α]

-- ---------------------------------------------------------------------------
-- Moves
-- ---------------------------------------------------------------------------

/-- Add the rules of a nonterminal at a position, once. -/
def predict (job : Job α) (A : Nonterminal) (position : Nat) (run : Run) : Run :=
  if (run.set position).predicted.contains A then run
  else
    let run := { run with sets := run.sets.modify position (·.markPredicted A) }
    (job.grammar.rulesFor A).foldl
      (fun run rule =>
        if job.config.lookahead && !job.grammar.canStart rule job.tokens position then run
        else run.addItem job position ⟨job.grammar.states.initial rule, position, none⟩)
      run

/-- Move the dot of an item over a symbol whose node is `child` and which ends at `position`. -/
def advance (job : Job α) (item : Item) (position : Nat) (child : NodeId) (run : Run) : Run :=
  match job.grammar.states.advance item.state with
  | .error _ => run
  | .ok next =>
    let ⟨sets, table, furthest, workItems⟩ := run
    let (made, table) := table.recordStep job.grammar next item.origin position item.node child
    let run : Run := ⟨sets, table, max furthest position, workItems⟩
    run.addItem job position ⟨next, item.origin, some made⟩

-- ---------------------------------------------------------------------------
-- Closing a set
-- ---------------------------------------------------------------------------

/-- The node of a completed item; a rule with an empty body gets its node here. -/
def completedNode (job : Job α) (item : Item) (position : Nat) (run : Run) : NodeId × Run :=
  match item.node with
  | some node => (node, run)
  | none =>
    let lhs := (job.grammar.state item.state).lhs
    let ⟨sets, table, furthest, workItems⟩ := run
    let (node, table) := table.intern ⟨.symbol (.nonterminal lhs), position, position⟩
    (node, ⟨sets, table.addFamily node .nothing, furthest, workItems⟩)

/-- Process one item of the set at `position`; `empties` has the nonterminals known to derive nothing there. -/
def processItem (job : Job α) (position : Nat) (item : Item) (empties : Std.TreeMap Nonterminal NodeId)
    (run : Run) : Std.TreeMap Nonterminal NodeId × Run :=
  let run := { run with workItems := run.workItems + 1 }
  let state := job.grammar.state item.state
  match state.next with
  | some (.terminal _) => (empties, run)
  | some (.nonterminal A) =>
    let run := run.predict job A position
    match empties[A]? with
    | some node => (empties, run.advance job item position node)
    | none      => (empties, run)
  | none =>
    let (node, run) := run.completedNode job item position
    let empties := if item.origin == position then empties.insert state.lhs node else empties
    let waiting := (run.set item.origin).waitingOn state.lhs
    (empties, waiting.foldl (fun run other => run.advance job other position node) run)

/-- Process the items of a set from `cursor` on, with those that join it meanwhile. -/
def closeFrom (job : Job α) (position : Nat) :
    (fuel cursor : Nat) → Std.TreeMap Nonterminal NodeId → Run → Run
  | 0,        _,      _,       run => run
  | fuel + 1, cursor, empties, run =>
    match (run.set position).items[cursor]? with
    | none      => run
    | some item =>
      let (empties, run) := run.processItem job position item empties
      closeFrom job position fuel (cursor + 1) empties run

/-- Close the set at a position. A set holds one item per state and origin at most, which bounds the steps. -/
def close (job : Job α) (position : Nat) (run : Run) : Run :=
  closeFrom job position (job.grammar.states.size * (position + 1)) 0 ∅ run

-- ---------------------------------------------------------------------------
-- Scanning
-- ---------------------------------------------------------------------------

/-- Move the dot of an item over the terminal after it, if the terminal matches at `position`. -/
def scanItem (job : Job α) (position : Nat) (item : Item) (run : Run) : Run :=
  match (job.grammar.state item.state).next with
  | some (.terminal t) =>
    let length := job.grammar.matchLength t job.tokens position
    if length == 0 then run
    else
      let ⟨sets, table, furthest, workItems⟩ := run
      let (leaf, table) := table.intern ⟨.symbol (.terminal t), position, position + length⟩
      let run : Run := ⟨sets, table, furthest, workItems⟩
      run.advance job item (position + length) leaf
  | _ => run

def scan (job : Job α) (position : Nat) (run : Run) : Run :=
  (run.set position).scans.foldl (fun run item => run.scanItem job position item) run

/-- The next position after `position` that has items. -/
def nextPosition? (position : Nat) (run : Run) : Option Nat :=
  (List.range' (position + 1) (run.furthest - position)).find? fun p => !(run.set p).items.isEmpty

end Run

-- ---------------------------------------------------------------------------
-- The whole input
-- ---------------------------------------------------------------------------

/-- The end of recognition. -/
structure Halt where
  run : Run
  progress : Progress
  /-- The position of the token that no item could use, if input remained. -/
  stopped? : Option Nat
  /-- The last position after the first at which the start symbol was complete, if prefixes count. -/
  checkpoint? : Option Nat

variable [DecidableEq α]

/-- Close and scan the sets from `position` on. -/
def recognizeFrom (job : Job α) : (fuel position : Nat) → Option Nat → Progress → Run → Halt
  | 0,        position, checkpoint?, progress, run => ⟨run, progress, some position, checkpoint?⟩
  | fuel + 1, position, checkpoint?, progress, run =>
    let progress := progress.tick position
    let run := run.close job position
    let reached := job.config.prefixParsing && position > 0 && (run.startNode? job position).isSome
    let progress := if reached then progress.note (.checkpoint (job.offset + position)) else progress
    let checkpoint? := if reached then some position else checkpoint?
    if position == job.tokens.size then ⟨run, progress, none, checkpoint?⟩
    else
      let run := run.scan job position
      match run.nextPosition? position with
      | some next => recognizeFrom job fuel next checkpoint? progress run
      | none      => ⟨run, progress, some position, checkpoint?⟩

/-- Recognize all tokens of a job, with reports of the given frequency if it is monitored. Positions only grow, so their number
bounds the steps. -/
def recognize (job : Job α) (frequency? : Option Nat) : Halt :=
  let run := (Run.init job).predict job job.grammar.start 0
  let halt := recognizeFrom job (job.tokens.size + 1) 0 none
    (Progress.start .earley job.tokens.size frequency?) run
  { halt with progress := halt.progress.finish }

/-- The item sets with absolute positions. -/
def chartEntries (offset : Nat) (sets : Array ItemSet) : Array ChartEntry :=
  (sets.toList.zipIdx.map fun (set, position) =>
    { position := position + offset
      items := set.items.map fun item => (item.state, item.origin + offset) }).toArray

/-- The root of the accepted input and where it ends: all tokens, or else the last checkpoint. -/
def Halt.root? (halt : Halt) (job : Job α) : Option (NodeId × Nat) :=
  let stop := if halt.stopped?.isNone && (halt.run.startNode? job job.tokens.size).isSome then
    some job.tokens.size else halt.checkpoint?
  stop.bind fun stop => (halt.run.startNode? job stop).map fun root => (root, stop)

/-- Parse `input` from `offset` on. -/
def parse [Quote α] (grammar : Prepared α) (config : Config) (frequency? : Option Nat)
    (input : Array α) (offset : Nat) : Outcome α × List Note :=
  let job : Job α := { grammar, config, tokens := input.extract offset input.size, offset }
  let halt := recognize job frequency?
  let length := job.tokens.size
  let created := halt.run.table.size
  let success := halt.stopped?.isNone && (halt.run.startNode? job length).isSome
  let root? := halt.root? job
  let (tokenCount, lastToken, moreInput) := lastRead job.tokens halt.stopped?
  let verdict : Note :=
    if success then .itemsAccepted length offset halt.run.workItems created
    else .itemsFailed tokenCount offset (quoteOption lastToken)
  let forest := root?.map fun (root, stop) =>
    Forest.finish grammar halt.run.table [root] (job.tokens.extract 0 stop) offset
  let notes := halt.progress.notes.toList ++ [verdict] ++
    (forest.map (·.finishedNote created)).toList
  ({ algorithm := .earley, success, forest, offset, tokenCount, lastToken, moreInput
     prefixEnd := if success then none else root?.map fun (_, stop) => offset + stop
     metrics :=
       { consumed := if success then length else halt.run.furthest
         nodesCreated := created
         workItems := halt.run.workItems }
     chart := if config.retainChart then some (chartEntries offset halt.run.sets) else none }, notes)

end ContextFree.Earley
