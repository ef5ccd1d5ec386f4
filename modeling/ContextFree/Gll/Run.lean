-- SUMMARY: Recognition by descriptors: following rules, calling nonterminals and returning from them.
import ContextFree.Gll.Calls
import ContextFree.Recognition.Outcome
import ContextFree.Recognition.Progress

/-!
# Recognition by descriptors

A descriptor says: go on with a rule that started at `start`, from its dotted state `slot` at `position`. Processing one
follows the rule over terminals until it ends or comes to a nonterminal, which is then called. Every step over a
symbol is recorded as a split: the part of the rule before the dot derives `i` to `j`, and its last symbol begins at the
pivot `k`. Right after the first symbol of a longer rule the pivot says nothing, and no split is recorded.

One step (`Run.step`) takes a descriptor and what else is pending; that the latest is taken first is up to `Run.drain`.
-/
namespace ContextFree.Gll

variable {α : Type}

structure Config where
  /-- Accept the longest prefix of an input that is not accepted. -/
  prefixParsing : Bool := false
  /-- Start only rules that the next atom can begin. -/
  lookahead : Bool := true
  /-- Start a rule that derives nothing only if what comes next can follow. -/
  followCheck : Bool := true
deriving DecidableEq

structure Descriptor where
  slot : StateId
  start : Nat
  position : Nat
deriving DecidableEq

/-- Descriptors are ordered by state, then by start, then by position. -/
def Descriptor.rank (d : Descriptor) : Nat × Nat × Nat :=
  (d.slot, d.start, d.position)

instance : Ord Descriptor := ⟨compareOn Descriptor.rank⟩

instance : Std.TransOrd Descriptor := inferInstanceAs (Std.TransCmp (compareOn Descriptor.rank))

instance : Std.LawfulEqOrd Descriptor := lawfulEqCmp_compareOn fun d d' h => by
  cases d; cases d'; simpa [Descriptor.rank] using h

/-- A dotted state over an extent. -/
abbrev Stretch := StateId × Nat × Nat

/-- Pivots of dotted states over extents. -/
abbrev Splits := Multimap Stretch Nat

/-- What a run works on. -/
structure Job (α : Type) where
  grammar : Prepared α
  config : Config
  tokens : Array α

structure Run where
  /-- All descriptors ever queued. -/
  seen : Std.TreeSet Descriptor := ∅
  /-- Descriptors still to be processed, the latest first. -/
  pending : List Descriptor := []
  calls : Calls := {}
  splits : Splits := .empty
  /-- The furthest position that a terminal reached. -/
  furthest : Nat := 0
  processed : Nat := 0

namespace Run

/-- Queue a descriptor unless it has been queued before. -/
def queue (d : Descriptor) (run : Run) : Run :=
  let ⟨seen, pending, calls, splits, furthest, processed⟩ := run
  if seen.contains d then ⟨seen, pending, calls, splits, furthest, processed⟩
  else ⟨seen.insert d, d :: pending, calls, splits, furthest, processed⟩

/-- Record that the part of a rule before `slot` derives `i` to `j` with its last symbol beginning at `k`. -/
def recordSplit (job : Job α) (slot : StateId) (i k j : Nat) (run : Run) : Run :=
  let state := job.grammar.state slot
  if state.dot == 1 && !state.isComplete then run
  else { run with splits := run.splits.add (slot, i, j) k }

/-- Resume a caller: the symbol before `slot` derives `k` to `j` in a rule that started at `i`. -/
def resume (job : Job α) (slot : StateId) (i k j : Nat) (run : Run) : Run :=
  (run.queue ⟨slot, i, j⟩).recordSplit job slot i k j

variable [DecidableEq α]

/-- Whether a rule of `A` is started at `position`. -/
def selects (job : Job α) (rule : RuleId) (A : Nonterminal) (position : Nat) : Bool :=
  let grammar := job.grammar
  if !job.config.lookahead then true
  else if !grammar.analysis.ruleNullable.getD rule false then
    grammar.firstAllows rule job.tokens position
  else if !job.config.followCheck || job.config.prefixParsing then true
  else grammar.firstAllows rule job.tokens position || grammar.followAllows A job.tokens position

/-- Queue the rules of `A` at a position. -/
def startRules (job : Job α) (A : Nonterminal) (position : Nat) (run : Run) : Run :=
  (job.grammar.rulesFor A).foldl
    (fun run rule =>
      if selects job rule A position then
        run.queue ⟨job.grammar.states.initial rule, position, position⟩
      else run)
    run

/-- Call `A` at a position, to return to `slot` of a rule that started at `start`. A first call starts the rules of `A`; a
later one with a new return point is resumed at all ends found so far. -/
def call (job : Job α) (A : Nonterminal) (slot : StateId) (start position : Nat) (run : Run) : Run :=
  let key := (A, position)
  let point := (slot, start)
  if !run.calls.isOpen key then
    let ⟨seen, pending, ⟨opened, returns, ends⟩, splits, furthest, processed⟩ := run
    let run : Run :=
      ⟨seen, pending, ⟨opened.insert key, returns.add key point, ends⟩, splits, furthest, processed⟩
    run.startRules job A position
  else if run.calls.returns.contains key point then run
  else
    let ⟨seen, pending, ⟨opened, returns, ends⟩, splits, furthest, processed⟩ := run
    let found := ends.get key
    let run : Run :=
      ⟨seen, pending, ⟨opened, returns.add key point, ends⟩, splits, furthest, processed⟩
    found.foldl (fun run stop => run.resume job slot start position stop) run

/-- `A` derives `start` to `position`: resume every caller that waits for it. -/
def finishCall (job : Job α) (A : Nonterminal) (start position : Nat) (run : Run) : Run :=
  let key := (A, start)
  if run.calls.ends.contains key position then run
  else
    let ⟨seen, pending, ⟨opened, returns, ends⟩, splits, furthest, processed⟩ := run
    let callers := returns.get key
    let run : Run :=
      ⟨seen, pending, ⟨opened, returns, ends.add key position⟩, splits, furthest, processed⟩
    callers.foldl (fun run (slot, origin) => run.resume job slot origin start position) run

/-- Follow a rule from `slot` at `position`, where `rest` is the part of its body after the dot. -/
def follow (job : Job α) (start : Nat) : (rest : List Symbol) → (slot : StateId) → (position : Nat) → Run → Run
  | [], slot, position, run =>
    let state := job.grammar.state slot
    let run := if state.dot == 0 then run.recordSplit job slot start start start else run
    run.finishCall job state.lhs start position
  | .terminal t :: rest, slot, position, run =>
    let length := job.grammar.matchLength t job.tokens position
    if length == 0 then run
    else
      let stop := position + length
      let run := run.recordSplit job (slot + 1) start position stop
      follow job start rest (slot + 1) stop { run with furthest := max run.furthest stop }
  | .nonterminal A :: _, slot, position, run =>
    run.call job A (slot + 1) start position

/-- Process one descriptor. -/
def process (job : Job α) (d : Descriptor) (run : Run) : Run :=
  let state := job.grammar.state d.slot
  let rest := (job.grammar.rule state.rule).rhs.drop state.dot
  run.follow job d.start rest d.slot d.position

/-- Take one descriptor and process it, when `pending` are the others that are left. -/
def step (job : Job α) (d : Descriptor) (pending : List Descriptor) (run : Run) : Run :=
  { run with pending, processed := run.processed + 1 }.process job d

/-- Process pending descriptors, the latest first, until none is left. -/
def drain (job : Job α) : (fuel : Nat) → Progress → Run → Progress × Run
  | 0,        progress, run => (progress, run)
  | fuel + 1, progress, run =>
    match run.pending with
    | []           => (progress, run)
    | d :: pending =>
      let run := run.step job d pending
      drain job fuel (progress.tick run.furthest) run

end Run

/-- Number of descriptors for `states` dotted states and `tokens` tokens: a state, and a start not after a position. -/
def descriptorBound (states tokens : Nat) : Nat :=
  states * ((tokens + 1) * (tokens + 2) / 2)

/-- Recognize all tokens of a job, with reports of the given frequency if it is monitored. -/
def recognize [DecidableEq α] (job : Job α) (frequency? : Option Nat) : Progress × Run :=
  let start := job.grammar.start
  let run : Run := { calls := Calls.openCall {} (start, 0) }
  let (progress, run) := (run.startRules job start 0).drain job
    (descriptorBound job.grammar.states.size job.tokens.size)
    (Progress.start .gll job.tokens.size frequency?)
  (progress.finish, run)

end ContextFree.Gll
