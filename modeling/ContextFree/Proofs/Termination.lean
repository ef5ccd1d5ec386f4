-- SUMMARY: Both methods end on every grammar and input, and take each item or descriptor of a bounded space once.
import ContextFree.Proofs.Earley.Passes
import ContextFree.Proofs.Gll.Expansions
import ContextFree.Proofs.Gll.Schedules
import ContextFree.Proofs.Forest.Tables

/-!
# Termination

The loops of both methods go over sets that grow meanwhile. Every item is a dotted state with two positions of the input,
and none is taken twice, so the loops end after no more steps than there are such triples. Left recursion, cycles and
empty rules make no difference.
-/
namespace ContextFree

variable {α : Type} [DecidableEq α] {p : Prepared α}

/-- Recognition by item sets ends when it has taken every item of its chart once. -/
theorem Earley.recognize_takes {job : Earley.Job α} (hp : job.grammar.Regular) (frequency? : Option Nat) :
    ∃ taken pass, Earley.Passes job taken pass ∧ pass.next? job = none ∧
      pass.last job = (Earley.recognize job frequency?).run ∧ taken.reduceOption.Nodup ∧
      (∀ spot, spot ∈ taken.reduceOption ↔ (Earley.recognize job frequency?).run.Visits spot.1 spot.2.1 spot.2.2) ∧
      (∀ spot ∈ taken.reduceOption, InSpace job.grammar.states.size job.tokens.size spot) ∧
      (Earley.recognize job frequency?).run.workItems = taken.reduceOption.length := by
  obtain ⟨taken, pass, h, hend, hlast⟩ := Earley.Passes.exists_recognize hp frequency?
  refine ⟨taken, pass, h, hend, hlast, h.nodup hp, fun spot => ?_, fun spot => h.inSpace hp, ?_⟩
  · rw [← hlast, ← h.mem_taken_iff hp hend]
  · have hwork : (pass.last job).workItems = pass.run.workItems := by
      unfold Earley.Pass.last
      split
      · rfl
      · exact Earley.Run.workItems_scan job _ _
    rw [← hlast, hwork, h.workItems_eq]

/-- Recognition by descriptors ends when it has taken every descriptor that it ever queued once. -/
theorem Gll.recognize_takes {job : Gll.Job α} (hp : job.grammar.Regular) (frequency? : Option Nat) :
    ∃ taken, Gll.Run.Schedule job taken (Gll.recognize job frequency?).2 ∧ (Gll.recognize job frequency?).2.pending = [] ∧
      taken.Nodup ∧ (∀ d, d ∈ taken ↔ d ∈ (Gll.recognize job frequency?).2.seen) ∧
      (∀ d ∈ taken, InSpace job.grammar.states.size job.tokens.size d.rank) ∧
      (Gll.recognize job frequency?).2.processed = taken.length ∧
      taken.length ≤ job.grammar.states.size * (job.tokens.size + 1) * (job.tokens.size + 2) / 2 := by
  obtain ⟨taken, h, hnone⟩ := Gll.Run.exists_schedule_recognize hp frequency?
  have hlists := h.lists hp
  rw [hnone, List.append_nil] at hlists
  exact ⟨taken, h, hnone, hlists.1, hlists.2, fun d => h.inSpace hp, h.processed_eq hp, h.length_le hp⟩

/-- Extraction up to an accepted end expands every node at most once, and ends. -/
theorem Gll.Run.Finished.extract_expands {job : Gll.Job α} {run : Gll.Run} {stop : Nat} (hp : job.grammar.Regular)
    (h : run.Finished job)
    (hstop : Gll.acceptedEnd? job.config job.tokens.size (run.calls.ends.get (job.grammar.start, 0)) = some stop) :
    (∀ taken x, Gll.Extraction.Expansions job.grammar run.splits stop taken x →
      taken.length ≤ Gll.expansionBound job.grammar stop ∧ taken.Nodup) ∧
    ∃ taken x, Gll.Extraction.Expansions job.grammar run.splits stop taken x ∧ x.pending = [] ∧
      x.table = (Gll.extract job.grammar run.splits stop).2 := by
  have hsplits : Gll.Extraction.SoundSplits job.grammar job.tokens run.splits := fun _ _ _ _ hk => h.sound.splits hk
  have hderives := (h.sound.ends (Gll.acceptedEnd?_spec hstop).1).1
  refine ⟨fun taken x hx => ⟨hx.length_le hp hsplits hderives, ?_⟩,
    Gll.Extraction.Expansions.exists_extract hp hsplits hderives⟩
  exact (hx.lists hp hsplits hderives).1.of_append_left

namespace Recognizer

variable [Quote α]

theorem earley_workItems (config : Earley.Config) (monitor : Option Monitor) (input : Array α) (offset : Nat) :
    (parseFrom ⟨p, .earley config, monitor⟩ input offset).outcome.metrics.workItems =
      (Earley.recognize ⟨p, config, input.extract offset input.size, offset⟩
        (monitor.map Monitor.frequency)).run.workItems := by
  rw [outcome_parseFrom]
  rfl

theorem gll_workItems (config : Gll.Config) (monitor : Option Monitor) (input : Array α) (offset : Nat) :
    (parseFrom ⟨p, .gll config, monitor⟩ input offset).outcome.metrics.workItems =
      (Gll.recognize ⟨p, config, input.extract offset input.size⟩ (monitor.map Monitor.frequency)).2.processed := by
  rw [outcome_parseFrom]
  rfl

/-- Both methods end on every grammar, input and configuration. Their loops make no more steps than there are dotted states
with two positions in their order, and at most one more for each token where sets are scanned. When a loop has ended,
every item of the chart or every descriptor ever queued has been taken once, and that is the number of work items.
Extraction expands every node at most once. -/
theorem recognition_ends (hp : p.Built) (monitor : Option Monitor) (input : Array α) (offset : Nat) :
    let tokens := input.extract offset input.size
    let bound := p.states.size * (tokens.size + 1) * (tokens.size + 2) / 2
    (∀ config,
      let job : Earley.Job α := { grammar := p, config, tokens, offset }
      let run := (Earley.recognize job (monitor.map Monitor.frequency)).run
      let workItems := (parseFrom ⟨p, .earley config, monitor⟩ input offset).outcome.metrics.workItems
      (∀ taken pass, Earley.Passes job taken pass → taken.length ≤ bound + tokens.size) ∧
      (∃ taken pass, Earley.Passes job taken pass ∧ pass.next? job = none ∧ pass.last job = run ∧
        taken.reduceOption.Nodup ∧ (∀ spot, spot ∈ taken.reduceOption ↔ run.Visits spot.1 spot.2.1 spot.2.2) ∧
        (∀ spot ∈ taken.reduceOption, InSpace p.states.size tokens.size spot) ∧
        workItems = taken.reduceOption.length) ∧
      workItems ≤ bound) ∧
    (∀ config,
      let job : Gll.Job α := { grammar := p, config, tokens }
      let run := (Gll.recognize job (monitor.map Monitor.frequency)).2
      let workItems := (parseFrom ⟨p, .gll config, monitor⟩ input offset).outcome.metrics.workItems
      (∀ taken run', Gll.Run.Schedule job taken run' → taken.length ≤ bound) ∧
      (∃ taken, Gll.Run.Schedule job taken run ∧ run.pending = [] ∧ taken.Nodup ∧ (∀ d, d ∈ taken ↔ d ∈ run.seen) ∧
        (∀ d ∈ taken, InSpace p.states.size tokens.size d.rank) ∧ workItems = taken.length) ∧
      workItems ≤ bound ∧
      ∀ stop, Gll.acceptedEnd? config tokens.size (run.calls.ends.get (p.start, 0)) = some stop →
        (∀ taken x, Gll.Extraction.Expansions p run.splits stop taken x →
          taken.length ≤ Gll.expansionBound p stop ∧ taken.Nodup) ∧
        ∃ taken x, Gll.Extraction.Expansions p run.splits stop taken x ∧ x.pending = [] ∧
          x.table = (Gll.extract p run.splits stop).2) := by
  intro tokens bound
  refine ⟨fun config => ?_, fun config => ?_⟩
  · intro job run workItems
    have hregular : job.grammar.Regular := hp.regular
    have hworkItems : workItems = run.workItems := earley_workItems config monitor input offset
    obtain ⟨taken, pass, h, hend, hlast, hnodup, hmem, hspace, hwork⟩ := Earley.recognize_takes hregular _
    have hwork : workItems = taken.reduceOption.length := hworkItems.trans hwork
    refine ⟨fun taken pass h => h.length_le hregular, ⟨taken, pass, h, hend, hlast, hnodup, hmem, hspace, hwork⟩, ?_⟩
    calc workItems
        = taken.reduceOption.length := hwork
      _ ≤ bound := length_le_of_inSpace hnodup hspace
  · intro job run workItems
    have hregular : job.grammar.Regular := hp.regular
    have hworkItems : workItems = run.processed := gll_workItems config monitor input offset
    have hfinished : run.Finished job := Gll.recognize_finished hregular _
    obtain ⟨taken, h, hnone, hnodup, hmem, hspace, hwork, hle⟩ := Gll.recognize_takes hregular _
    have hwork : workItems = taken.length := hworkItems.trans hwork
    refine ⟨fun taken run' h => h.length_le hregular, ⟨taken, h, hnone, hnodup, hmem, hspace, hwork⟩, hwork.trans_le hle,
      fun stop hstop => ?_⟩
    have hexpands := hfinished.extract_expands hregular hstop
    exact hexpands

/-- The knot has 16 dotted states, left recursion, a cycle and an empty rule. Over one letter there is room for 48 items;
one method takes 16, the other 14. -/
theorem recognition_ends_knot :
    let job : Gll.Job Char :=
      { grammar := Sample.knot, config := { lookahead := false }, tokens := #['b', 'a'].extract 1 2 }
    Sample.knot.Built ∧ Sample.knot.states.size * (1 + 1) * (1 + 2) / 2 = 48 ∧
    (parseFrom ⟨Sample.knot, .earley { lookahead := false }, none⟩ #['b', 'a'] 1).outcome.metrics.workItems = 16 ∧
    (parseFrom ⟨Sample.knot, .gll { lookahead := false }, none⟩ #['b', 'a'] 1).outcome.metrics.workItems = 14 ∧
    (∃ taken, taken.length = 14 ∧ taken.Nodup ∧ Gll.Run.Schedule job taken (Gll.recognize job none).2) ∧
    ∃ taken x, taken.Nodup ∧ Gll.Extraction.Expansions Sample.knot (Gll.recognize job none).2.splits 1 taken x ∧
      x.pending = [] ∧ x.table.size = 5 := by
  intro job
  have hbuilt : Sample.knot.Built := Sample.built_prepare _
  have hwork : (parseFrom ⟨Sample.knot, .gll { lookahead := false }, none⟩
      #['b', 'a'] 1).outcome.metrics.workItems = 14 := by decide +kernel
  obtain ⟨-, hgll⟩ := recognition_ends hbuilt none #['b', 'a'] 1
  obtain ⟨-, ⟨taken, htaken, -, hnodup, -, -, hlength⟩, -, hextract⟩ := hgll { lookahead := false }
  obtain ⟨honce, expanded, x, hx, hnone, htable⟩ := hextract 1 (by decide +kernel)
  refine ⟨hbuilt, by decide +kernel, by decide +kernel, hwork, ⟨taken, hlength.symm.trans hwork, hnodup, htaken⟩,
    expanded, x, (honce expanded x hx).2, hx, hnone, ?_⟩
  rw [htable]
  decide +kernel

end Recognizer
end ContextFree
