-- SUMMARY: What a recognizer reports about one run.
import ContextFree.Forest.Finished

/-!
# Outcomes

A run that does not accept its input has an outcome like any other: it says how far recognition came and on which
token it stopped, and may hold the forest of an accepted prefix.
-/
namespace ContextFree

structure Metrics where
  /-- The furthest position that some rule reached, or all tokens on success. -/
  consumed : Nat
  /-- Nodes of the table before finishing. -/
  nodesCreated : Nat
  /-- Items or descriptors processed. -/
  workItems : Nat
deriving DecidableEq

/-- The items of one position of a chart, as pairs of state and origin, in the order of their arrival. -/
structure ChartEntry where
  position : Nat
  items : Array (StateId × Nat)
deriving DecidableEq

structure Outcome (α : Type) where
  algorithm : Algorithm
  /-- Whether the whole input was accepted. -/
  success : Bool
  /-- The forest of the accepted input, or of the accepted prefix. -/
  forest : Option (Forest α)
  /-- Where the run started in the complete input. -/
  offset : Nat
  /-- Tokens read, with the one that could not be used. -/
  tokenCount : Nat
  /-- The last token read. -/
  lastToken : Option α
  /-- Whether input remained that was not used. -/
  moreInput : Bool
  /-- Where the accepted prefix of a failed run ends in the complete input. -/
  prefixEnd : Option Nat
  metrics : Metrics
  /-- The items of all positions, if they were asked for. -/
  chart : Option (Array ChartEntry)

/-- Whether the run failed but accepted a prefix. -/
def Outcome.prefixSucceeded {α : Type} (o : Outcome α) : Bool :=
  !o.success && o.prefixEnd.isSome

/-- How far a run came: the number of tokens read, the last of them, and whether input remained. `stopped?` is the position
of the token that could not be used. -/
def lastRead {α : Type} (tokens : Array α) (stopped? : Option Nat) : Nat × Option α × Bool :=
  match stopped? with
  | some position => (position + 1, tokens[position]?, true)
  | none          => (tokens.size, tokens.back?, false)

end ContextFree
