-- SUMMARY: Building the node table from recorded splits, and parsing by descriptors.
import ContextFree.Gll.Run

/-!
# From splits to nodes

The recorded splits say which symbols derive what. The table of nodes is built from the root downwards: each new node that
is not a terminal is expanded once, by one family for each split that derives it.
-/
namespace ContextFree.Gll

variable {α : Type}

structure Extraction where
  table : NodeTable := {}
  /-- Nodes still to be expanded, the latest first. -/
  pending : List NodeId := []

namespace Extraction

/-- The node of an identity; a new one that is not a terminal is to be expanded. -/
def child (identity : Identity) (x : Extraction) : NodeId × Extraction :=
  match x.table.find? identity with
  | some id => (id, x)
  | none    =>
    let ⟨table, pending⟩ := x
    let (id, table) := table.intern identity
    (id, ⟨table, if identity.label.isTerminal then pending else id :: pending⟩)

/-- Add a family to a node. -/
def addFamily (parent : NodeId) (family : Family) (x : Extraction) : Extraction :=
  let ⟨table, pending⟩ := x
  ⟨table.addFamily parent family, pending⟩

/-- Add the family of one split to `parent`: its right child is the last symbol before the dot, its left child what comes
before, which is a symbol if it is only one. -/
def pack (p : Prepared α) (parent : NodeId) (slot : StateId) (i k j : Nat) (x : Extraction) : Extraction :=
  let state := p.state slot
  match state.previous with
  | none => x.addFamily parent .nothing
  | some last =>
    let (right, x) := x.child ⟨.symbol last, k, j⟩
    match state.dot with
    | 1 => x.addFamily parent (.unary right)
    | 2 =>
      match (p.rule state.rule).rhs with
      | first :: _ =>
        let (left, x) := x.child ⟨.symbol first, i, k⟩
        x.addFamily parent (.binary left right)
      | [] => x.addFamily parent (.unary right)
    | _ =>
      match p.states.retreat slot with
      | some before =>
        let (left, x) := x.child ⟨.state before, i, k⟩
        x.addFamily parent (.binary left right)
      | none => x.addFamily parent (.unary right)

/-- Add the families of all splits of a state over an extent. -/
def packAll (p : Prepared α) (splits : Splits) (parent : NodeId) (slot : StateId) (left right : Nat)
    (x : Extraction) : Extraction :=
  (splits.get (slot, left, right)).foldl (fun x pivot => x.pack p parent slot left pivot right) x

/-- Add all families of a node: for a nonterminal those of its completed rules, for a state its own. -/
def expand (p : Prepared α) (splits : Splits) (id : NodeId) (x : Extraction) : Extraction :=
  let ⟨label, left, right⟩ := (x.table.node id).identity
  match label with
  | .symbol (.nonterminal A) =>
    (p.rulesFor A).foldl
      (fun x rule => x.packAll p splits id (p.states.completed rule (p.rule rule).rhs.length) left right) x
  | .symbol (.terminal _) => x
  | .state slot => x.packAll p splits id slot left right

/-- Expand pending nodes, the latest first, until none is left. -/
def drain (p : Prepared α) (splits : Splits) : (fuel : Nat) → Extraction → Extraction
  | 0,        x => x
  | fuel + 1, x =>
    let ⟨table, pending⟩ := x
    match pending with
    | []            => ⟨table, []⟩
    | id :: pending => drain p splits fuel (expand p splits id ⟨table, pending⟩)

end Extraction

/-- Number of nodes that are not terminals: a nonterminal or a state, and an extent. -/
def expansionBound (p : Prepared α) (stop : Nat) : Nat :=
  (p.grammar.names.size + p.states.size) * ((stop + 1) * (stop + 2) / 2)

/-- The root and the table of all derivations of the start symbol up to `stop`. -/
def extract (p : Prepared α) (splits : Splits) (stop : Nat) : NodeId × NodeTable :=
  let (root, x) := Extraction.child ⟨.symbol (.nonterminal p.start), 0, stop⟩ {}
  (root, (x.drain p splits (expansionBound p stop)).table)

/-- Where the accepted input ends: with all tokens or, if prefixes count, at the furthest end after the first position. -/
def acceptedEnd? (config : Config) (length : Nat) (ends : Array Nat) : Option Nat :=
  if ends.contains length then some length
  else if config.prefixParsing then (ends.filter (· > 0)).toList.max?
  else none

/-- Parse `input` from `offset` on. -/
def parse [DecidableEq α] (grammar : Prepared α) (config : Config) (frequency? : Option Nat)
    (input : Array α) (offset : Nat) : Outcome α × List Note :=
  let job : Job α := { grammar, config, tokens := input.extract offset input.size }
  let (progress, run) := recognize job frequency?
  let length := job.tokens.size
  let ends := run.calls.ends.get (grammar.start, 0)
  let success := ends.contains length
  let accepted? := acceptedEnd? config length ends
  let (tokenCount, lastToken, moreInput) :=
    lastRead job.tokens (if run.furthest < length then some run.furthest else none)
  let verdict : Note :=
    .descriptorsProcessed offset success run.processed run.calls.count run.splits.size
  let extracted? := accepted?.map fun stop => (extract grammar run.splits stop, stop)
  let forest := extracted?.map fun ((root, table), stop) =>
    Forest.finish grammar table [root] (job.tokens.extract 0 stop) offset
  let created := (extracted?.map fun ((_, table), _) => table.size).getD 0
  let notes := progress.notes.toList ++ [verdict] ++ (forest.map (·.finishedNote created)).toList
  ({ algorithm := .gll, success, forest, offset, tokenCount, lastToken, moreInput
     prefixEnd := if success then none else accepted?.map (offset + ·)
     metrics := { consumed := run.furthest, nodesCreated := created, workItems := run.processed }
     chart := none }, notes)

end ContextFree.Gll
