-- SUMMARY: A prepared grammar with a method and a monitor: parsing, continuing after a prefix, and descriptions.
import ContextFree.Earley.Run
import ContextFree.Gll.Extraction

/-!
# Recognizers

A recognizer is a prepared grammar together with a configured method and, possibly, a monitor. It parses an input from an
offset, and can go on after the prefix that an earlier run accepted.
-/
namespace ContextFree

variable {α : Type}

/-- A configured method. -/
inductive Method where
  | earley (config : Earley.Config)
  | gll (config : Gll.Config)
deriving DecidableEq

/-- Who hears the progress reports, and how often. -/
inductive Monitor where
  /-- Reports become notes. -/
  | logging (frequency : Nat)
  /-- Reports are handed back with the outcome. -/
  | recording (frequency : Nat)
deriving DecidableEq

namespace Monitor

/-- The frequency of a logging monitor if none is given. -/
def defaultFrequency : Nat := 1024

def frequency : Monitor → Nat
  | logging f | recording f => f

end Monitor

structure Recognizer (α : Type) where
  grammar : Prepared α
  method : Method
  monitor : Option Monitor := none

/-- An outcome with what was said on the way to it. -/
structure Answer (α : Type) where
  outcome : Outcome α
  notes : List Note
  /-- The progress reports, if they were recorded. -/
  recorded : Option (List Report)

/-- The report in a note, if it is one. -/
def Note.report? : Note → Option Report
  | .progress report => some report
  | _                => none

namespace Recognizer

-- ---------------------------------------------------------------------------
-- Parsing
-- ---------------------------------------------------------------------------

/-- Parse `input` from `offset` on. -/
def parseFrom [DecidableEq α] [Quote α] (r : Recognizer α) (input : Array α) (offset : Nat) : Answer α :=
  let frequency? := r.monitor.map Monitor.frequency
  let (outcome, notes) :=
    match r.method with
    | .earley config => Earley.parse r.grammar config frequency? input offset
    | .gll config    => Gll.parse r.grammar config frequency? input offset
  match r.monitor with
  | some (.recording _) =>
    { outcome
      notes := notes.filter (·.report?.isNone)
      recorded := some (notes.filterMap Note.report?) }
  | _ => { outcome, notes, recorded := none }

def parse [DecidableEq α] [Quote α] (r : Recognizer α) (input : Array α) : Answer α :=
  r.parseFrom input 0

/-- Parse `input` from the end of the prefix that an earlier run accepted. -/
def continueAfter [DecidableEq α] [Quote α] (r : Recognizer α) (earlier : Outcome α) (input : Array α) :
    Except Error (Answer α) :=
  match earlier.prefixEnd with
  | some stop => if earlier.success then .error .noPrefix else .ok (r.parseFrom input stop)
  | none      => .error .noPrefix

end Recognizer

-- ---------------------------------------------------------------------------
-- Descriptions
-- ---------------------------------------------------------------------------

def Earley.Config.text (c : Earley.Config) : String :=
  s!"EarleyConfig \x7b prefix_parsing: {c.prefixParsing}, retain_chart: {c.retainChart}, " ++
    s!"lookahead: {c.lookahead} \x7d"

def Gll.Config.text (c : Gll.Config) : String :=
  s!"GllConfig \x7b prefix_parsing: {c.prefixParsing}, lookahead: {c.lookahead}, " ++
    s!"follow_check: {c.followCheck} \x7d"

def Method.algorithm : Method → Algorithm
  | .earley _ => .earley
  | .gll _    => .gll

def Method.configText : Method → String
  | .earley config => config.text
  | .gll config    => config.text

/-- The name of the kind of recognizer. -/
def Algorithm.recognizerName : Algorithm → String
  | .earley => "EarleyParser"
  | .gll    => "GllParser"

def Recognizer.text (r : Recognizer α) : String :=
  let start := Text.quoteString (r.grammar.grammar.nonterminalName r.grammar.start)
  r.method.algorithm.recognizerName ++
    s!" \x7b start: {start}, config: {r.method.configText}, monitor: {r.monitor.isSome} \x7d"

/-- What a method can do. Both handle every context-free grammar. -/
def Algorithm.capabilities (a : Algorithm) : String :=
  let variant := match a with
    | .earley => "Earley"
    | .gll    => "Gll"
  let name := Text.quoteString a.name
  s!"BackendCapabilities \x7b name: {name}, algorithm: {variant}, supports_left_recursion: true, " ++
    "supports_ambiguity: true, supports_cycles: true, supports_prefix_parsing: true \x7d"

end ContextFree
