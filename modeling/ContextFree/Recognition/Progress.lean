-- SUMMARY: When a monitored run reports its progress.
import ContextFree.Note

/-!
# Progress

A monitor asks for a report every so many positions. The run passes each position it reaches to `Progress.tick`, which
reports at the first position of each block and is silent otherwise. The frequency zero asks for no reports between the
first and the last.
-/
namespace ContextFree

/-- The first of `next`, `next + frequency`, … that lies above `processed`. With a positive frequency no more than
`processed + 1 - next` steps are needed. -/
def nextReport (frequency processed : Nat) : (fuel next : Nat) → Nat
  | 0,        next => next
  | fuel + 1, next =>
    if next ≤ processed then nextReport frequency processed fuel (next + frequency) else next

structure Progress where
  algorithm : Algorithm
  /-- Number of tokens of the run. -/
  total : Nat
  /-- Whether anybody listens. -/
  monitored : Bool
  frequency : Nat
  /-- The position at which the next report is due. -/
  next : Nat
  /-- Everything noted so far, in order. -/
  notes : Array Note

namespace Progress

def note (p : Progress) (n : Note) : Progress :=
  { p with notes := p.notes.push n }

/-- The beginning of a run that reports with the given frequency, if it is monitored. -/
def start (algorithm : Algorithm) (total : Nat) : Option Nat → Progress
  | none =>
    { algorithm, total, monitored := false, frequency := 0, next := 0, notes := #[] }
  | some frequency =>
    { algorithm, total, monitored := true, frequency, next := frequency
      notes := #[.progress (.starting algorithm total)] }

/-- The run has reached `processed`. -/
def tick (p : Progress) (processed : Nat) : Progress :=
  if p.frequency == 0 || processed < p.next then p
  else
    let next := nextReport p.frequency processed (processed + 1 - p.next) p.next
    { p with next, notes := p.notes.push (.progress (.progress p.algorithm processed p.total)) }

/-- The end of a run. -/
def finish (p : Progress) : Progress :=
  if p.monitored then p.note (.progress (.finished p.algorithm)) else p

end Progress
end ContextFree
