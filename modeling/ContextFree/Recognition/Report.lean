-- SUMMARY: The two recognition methods and the progress reports they make.

/-!
# Methods and progress reports
-/
namespace ContextFree

/-- The recognition methods. -/
inductive Algorithm where
  | earley
  | gll
deriving DecidableEq

def Algorithm.name : Algorithm → String
  | earley => "Earley"
  | gll    => "GLL"

/-- What a monitored run reports: its beginning with the number of tokens, the position reached, and its end. -/
inductive Report where
  | starting (algorithm : Algorithm) (tokens : Nat)
  | progress (algorithm : Algorithm) (processed total : Nat)
  | finished (algorithm : Algorithm)
deriving DecidableEq

namespace Report

/-- One line in words, for a reader of a log. -/
def sentence : Report → String
  | starting algorithm tokens          => s!"{algorithm.name} parse of {tokens} tokens starting"
  | progress algorithm processed total => s!"{algorithm.name} parse at {processed} of {total} tokens"
  | finished algorithm                 => s!"{algorithm.name} parse finished"

/-- The short form that a recording keeps. -/
def brief : Report → String
  | starting algorithm tokens      => s!"starting {algorithm.name} {tokens}"
  | progress algorithm processed _ => s!"progress {algorithm.name} {processed}"
  | finished algorithm             => s!"finished {algorithm.name}"

end Report
end ContextFree
