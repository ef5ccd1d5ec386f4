-- SUMMARY: Both methods accept exactly the inputs that the start symbol derives, under every configuration.
import ContextFree.Recognition.Recognizer
import ContextFree.Proofs.Earley.Recognition
import ContextFree.Proofs.Gll.Extraction

/-!
# Recognition is exact

A run succeeds if and only if the start symbol derives all tokens from the offset on by the closed rules. Lookahead, the
FOLLOW test, prefix parsing and monitors make no difference.
-/
namespace ContextFree

/-! ## A sample grammar -/

namespace Sample

/-- A rule more, without optional items. -/
def declare (g : Grammar Char) (lhs : Nonterminal) (rhs : List Symbol) : Grammar Char :=
  match g.declare lhs (rhs.map fun symbol => { symbol }) with
  | .ok g'   => g'
  | .error _ => g

theorem built_declare {g : Grammar Char} (h : g.Built) (lhs : Nonterminal) (rhs : List Symbol) :
    (declare g lhs rhs).Built := by
  unfold declare
  split
  · rename_i hdeclare
    exact .declare lhs _ h hdeclare
  · exact h

/-- `S → S S | 'a' | ε`: ambiguous, cyclic and nullable. -/
def grammar : Grammar Char :=
  let named := ((Grammar.empty.nonterminal "S").2.terminal ⟨"a", .exact 'a', false⟩).2
  declare (declare (declare named 0 [.nonterminal 0, .nonterminal 0]) 0 [.terminal 0]) 0 []

/-- The sample made ready to recognize `S`. -/
def prepared : Prepared Char :=
  match Prepared.ofGrammar grammar 0 with
  | .ok p    => p
  | .error _ => ⟨grammar, 0, #[], ∅, {}, Analysis.compute grammar #[] 0, []⟩

theorem prepared_built : prepared.Built := by
  refine ⟨grammar, 0, built_declare (built_declare (built_declare (.terminal _ (.nonterminal "S" .empty)) _ _) _ _) _ _, ?_⟩
  have hok : (Prepared.ofGrammar grammar 0).isOk = true := by decide +kernel
  unfold prepared
  cases h : Prepared.ofGrammar grammar 0 with
  | ok p => rfl
  | error e => simp [h, Except.isOk, Except.toBool] at hok

/-- The rules over `S`, `E` and the letter `a`, made ready to recognize `S`. -/
def prepare (rules : List (Nonterminal × List Symbol)) : Prepared Char :=
  let named := (((Grammar.empty.nonterminal "S").2.nonterminal "E").2.terminal ⟨"a", .exact 'a', false⟩).2
  match Prepared.ofGrammar (rules.foldl (fun g (lhs, rhs) => declare g lhs rhs) named) 0 with
  | .ok p    => p
  | .error _ => prepared

theorem built_prepare (rules : List (Nonterminal × List Symbol)) : (prepare rules).Built := by
  have hbuilt : ∀ {g : Grammar Char}, g.Built → (rules.foldl (fun g (lhs, rhs) => declare g lhs rhs) g).Built := by
    induction rules with
    | nil => exact id
    | cons rule rules ih => exact fun hg => ih (built_declare hg rule.1 rule.2)
  unfold prepare
  dsimp only
  split
  · rename_i hok
    exact ⟨_, 0, hbuilt (.terminal _ (.nonterminal "E" (.nonterminal "S" .empty))), hok⟩
  · exact prepared_built

end Sample

namespace Recognizer

variable {α : Type} [DecidableEq α] [Quote α]

theorem outcome_parseFrom (r : Recognizer α) (input : Array α) (offset : Nat) :
    (r.parseFrom input offset).outcome =
      match r.method with
      | .earley config => (Earley.parse r.grammar config (r.monitor.map Monitor.frequency) input offset).1
      | .gll config    => (Gll.parse r.grammar config (r.monitor.map Monitor.frequency) input offset).1 := by
  obtain ⟨grammar, method, monitor⟩ := r
  cases method with
  | earley config => rcases monitor with _ | _ | _ <;> rfl
  | gll config => rcases monitor with _ | _ | _ <;> rfl

/-- Recognition by item sets accepts exactly what the start symbol derives. -/
theorem earley_success_iff {p : Prepared α} (hp : p.Built) (config : Earley.Config) (monitor : Option Monitor)
    (input : Array α) (offset : Nat) :
    (parseFrom ⟨p, .earley config, monitor⟩ input offset).outcome.success = true ↔
      p.DerivesSpan (input.extract offset input.size) [.nonterminal p.start] 0
        (input.extract offset input.size).size := by
  rw [outcome_parseFrom]
  let job : Earley.Job α := { grammar := p, config, tokens := input.extract offset input.size, offset }
  have hfinished : (Earley.recognize job (monitor.map Monitor.frequency)).Finished job :=
    Earley.recognize_finished hp.regular _
  exact hfinished.success_iff hp.regular

/-- The sample derives an input that item sets accept, and not one that they turn down. -/
theorem earley_success_iff_sample : Sample.prepared.Built ∧
    Sample.prepared.DerivesSpan #['a', 'a'] [.nonterminal Sample.prepared.start] 0 2 ∧
    ¬ Sample.prepared.DerivesSpan #['a', 'b'] [.nonterminal Sample.prepared.start] 0 2 := by
  refine ⟨Sample.prepared_built, ?_, ?_⟩
  · exact (earley_success_iff Sample.prepared_built {} none #['a', 'a'] 0).mp (by decide +kernel)
  · intro hderives
    have hsuccess := (earley_success_iff Sample.prepared_built {} none #['a', 'b'] 0).mpr hderives
    exact absurd hsuccess (by decide +kernel)

/-- Recognition by descriptors accepts exactly what the start symbol derives. -/
theorem gll_success_iff {p : Prepared α} (hp : p.Built) (config : Gll.Config) (monitor : Option Monitor)
    (input : Array α) (offset : Nat) :
    (parseFrom ⟨p, .gll config, monitor⟩ input offset).outcome.success = true ↔
      p.DerivesSpan (input.extract offset input.size) [.nonterminal p.start] 0
        (input.extract offset input.size).size := by
  rw [outcome_parseFrom]
  let job : Gll.Job α := { grammar := p, config, tokens := input.extract offset input.size }
  have hfinished : (Gll.recognize job (monitor.map Monitor.frequency)).2.Finished job :=
    Gll.recognize_finished hp.regular _
  rw [← hfinished.mem_ends_iff hp.regular (.inr rfl)]
  exact Array.contains_iff_mem

/-- The sample derives an input that descriptors accept, from an offset on, and not one that they turn down. -/
theorem gll_success_iff_sample : Sample.prepared.Built ∧
    Sample.prepared.DerivesSpan #['a', 'a'] [.nonterminal Sample.prepared.start] 0 2 ∧
    ¬ Sample.prepared.DerivesSpan #['a', 'b'] [.nonterminal Sample.prepared.start] 0 2 := by
  refine ⟨Sample.prepared_built, ?_, ?_⟩
  · exact (gll_success_iff Sample.prepared_built {} none #['b', 'a', 'a'] 1).mp (by decide +kernel)
  · intro hderives
    have hsuccess := (gll_success_iff Sample.prepared_built {} none #['a', 'b'] 0).mpr hderives
    exact absurd hsuccess (by decide +kernel)

end Recognizer
end ContextFree
