-- SUMMARY: A retained chart lists exactly the positions of rules that recognition enters, each once.
import ContextFree.Proofs.Entering
import ContextFree.Proofs.Recognition

/-!
# The retained chart

An outcome of recognition by item sets may keep the items, as pairs of state and origin. The pairs at a position are
exactly the positions of rules that are entered there (`Prepared.Enters`), completed or not. Items are told apart
together with their nodes, but the node of an item is determined by its state, its origin and its position: no pair is
listed twice. Every item is processed once, so the pairs add up to the work items.
-/
namespace ContextFree

variable {α : Type} [DecidableEq α]

/-- A chart with one entry for each position of the tokens, from `offset` on. Each entry lists what is entered there, without
repetition. -/
structure ExactChart (p : Prepared α) (tokens : Array α) (lookahead : Bool) (offset : Nat)
    (entries : Array ChartEntry) : Prop where
  size_eq : entries.size = tokens.size + 1
  position_eq : ∀ {j entry}, entries[j]? = some entry → entry.position = offset + j
  mem_items : ∀ {j entry}, entries[j]? = some entry → ∀ slot origin,
    ((slot, origin) ∈ entry.items ↔ ∃ i, origin = offset + i ∧ p.Enters tokens lookahead slot i j)
  nodup : ∀ {entry}, entry ∈ entries → entry.items.toList.Nodup

namespace Earley

variable {job : Job α} {halt : Halt} {slot : StateId} {i j : Nat}

theorem admits_eq (job : Job α) : Admits job = job.grammar.MayStart job.tokens job.config.lookahead := by
  funext id position
  simp only [Admits, Prepared.MayStart, Bool.and_eq_false_imp, Bool.not_eq_false']

/-- There is an item for a state and an origin at a position exactly if the position of the rule is entered. -/
theorem Halt.Finished.visits_iff (hp : job.grammar.Regular) (h : halt.Finished job) :
    halt.run.Visits slot i j ↔ job.grammar.Enters job.tokens job.config.lookahead slot i j := by
  constructor
  · rintro ⟨node, hitem⟩
    obtain ⟨id, before, after, hok⟩ := h.sound.item hitem
    have hasked := hok.asked
    have hadmitted := hok.admitted
    simp only [Asked, admits_eq] at hasked hadmitted
    exact ⟨id, before, after, hok.atDot, (hp.mem_rulesFor.mp hok.useful).2.1, hasked, hadmitted, hok.derives⟩
  · have hs := h.closedSearch hp
    rw [admits_eq] at hs
    exact hs.visits_of_enters hp

/-! ## Entries -/

omit [DecidableEq α] in
theorem getElem?_chartEntries (offset : Nat) (sets : Array ItemSet) (j : Nat) :
    (chartEntries offset sets)[j]? = sets[j]?.map fun set =>
      { position := j + offset, items := set.items.map fun item => (item.state, item.origin + offset) } := by
  simp [chartEntries, Function.comp_def]

theorem Halt.Finished.exactChart (hp : job.grammar.Regular) (h : halt.Finished job) :
    ExactChart job.grammar job.tokens job.config.lookahead job.offset (chartEntries job.offset halt.run.sets) := by
  have hget : ∀ {j entry}, (chartEntries job.offset halt.run.sets)[j]? = some entry →
      entry.position = job.offset + j ∧
        entry.items = (halt.run.set j).items.map fun item => (item.state, item.origin + job.offset) := by
    intro j entry hentry
    rw [getElem?_chartEntries, Option.map_eq_some_iff] at hentry
    obtain ⟨set, hset, rfl⟩ := hentry
    refine ⟨Nat.add_comm _ _, ?_⟩
    rw [Run.set, Array.getD_eq_getD_getElem?, hset, Option.getD_some]
  refine ⟨?_, fun hentry => (hget hentry).1, fun {j entry} hentry slot origin => ?_, fun {entry} hentry => ?_⟩
  · rw [← h.sound.size_eq]
    simp [chartEntries]
  · rw [(hget hentry).2, Array.mem_map]
    constructor
    · rintro ⟨item, hitem, heq⟩
      cases heq
      exact ⟨item.origin, Nat.add_comm _ _, (h.visits_iff hp).mp ⟨item.node, hitem⟩⟩
    · rintro ⟨i, rfl, henters⟩
      obtain ⟨node, hitem⟩ := (h.visits_iff hp).mpr henters
      exact ⟨_, hitem, by rw [Nat.add_comm]⟩
  · obtain ⟨j, hlt, hj⟩ := Array.mem_iff_getElem.mp hentry
    rw [(hget (Array.getElem?_eq_some_iff.mpr ⟨hlt, hj⟩)).2, Array.toList_map]
    -- the node of an item is no part of what is listed, but follows from it
    refine (h.sound.filed j).nodup.map_on fun item hitem item' hitem' heq => ?_
    obtain ⟨hstate, horigin⟩ := Prod.mk.inj heq
    exact h.sound.item_unique hp (Array.mem_toList_iff.mp hitem) (Array.mem_toList_iff.mp hitem') hstate
      (Nat.add_right_cancel horigin)

/-- The listed pairs add up to the work items. -/
theorem Halt.Finished.sum_chartEntries (h : halt.Finished job) (offset : Nat) :
    ((chartEntries offset halt.run.sets).toList.map fun entry => entry.items.size).sum = halt.run.workItems := by
  rw [h.counted, Run.itemsBelow, ← h.sound.size_eq]
  congr 1
  refine List.ext_getElem? fun j => ?_
  rw [List.getElem?_map, Array.getElem?_toList, getElem?_chartEntries, List.getElem?_map]
  by_cases hj : j < halt.run.sets.size
  · simp [hj, Run.set, Array.getD_eq_getD_getElem?]
  · simp [hj]

end Earley

/-! ## Recognizers -/

/-- `S → 'a' | E`, where `E` has no rule. -/
def Sample.dangling : Prepared Char :=
  prepare [(0, [.terminal 0]), (0, [.nonterminal 1])]

namespace Recognizer

variable [Quote α]

/-- A run that retains its chart lists exactly what is entered, each once, and counts what it lists. -/
theorem exists_exactChart {p : Prepared α} (hp : p.Built) (config : Earley.Config) (hretain : config.retainChart = true)
    (monitor : Option Monitor) (input : Array α) (offset : Nat) :
    ∃ entries, (parseFrom ⟨p, .earley config, monitor⟩ input offset).outcome.chart = some entries ∧
      ExactChart p (input.extract offset input.size) config.lookahead offset entries ∧
      (parseFrom ⟨p, .earley config, monitor⟩ input offset).outcome.metrics.workItems =
        (entries.toList.map fun entry => entry.items.size).sum := by
  rw [outcome_parseFrom]
  let job : Earley.Job α := { grammar := p, config, tokens := input.extract offset input.size, offset }
  have hfinished : (Earley.recognize job (monitor.map Monitor.frequency)).Finished job :=
    Earley.recognize_finished hp.regular _
  refine ⟨_, if_pos hretain, hfinished.exactChart hp.regular, ?_⟩
  exact (hfinished.sum_chartEntries offset).symm

/-- The chart of one letter after another one that is passed over: the empty derivations are listed at both positions. -/
theorem exists_exactChart_sample : Sample.prepared.Built ∧
    ExactChart Sample.prepared (#['b', 'a'].extract 1 2) true 1
      #[⟨1, #[(0, 1), (3, 1), (5, 1), (1, 1), (2, 1)]⟩,
        ⟨2, #[(4, 1), (1, 1), (2, 1), (0, 2), (5, 2), (1, 2), (2, 2)]⟩] ∧
    (parseFrom ⟨Sample.prepared, .earley { retainChart := true }, none⟩ #['b', 'a'] 1).outcome.metrics.workItems = 12 := by
  obtain ⟨entries, hchart, hexact, hwork⟩ := exists_exactChart Sample.prepared_built { retainChart := true } rfl none
    #['b', 'a'] 1
  have hread : (parseFrom ⟨Sample.prepared, .earley { retainChart := true }, none⟩ #['b', 'a'] 1).outcome.chart =
      some #[⟨1, #[(0, 1), (3, 1), (5, 1), (1, 1), (2, 1)]⟩,
        ⟨2, #[(4, 1), (1, 1), (2, 1), (0, 2), (5, 2), (1, 2), (2, 2)]⟩] := by decide +kernel
  cases hchart.symm.trans hread
  exact ⟨Sample.prepared_built, hexact, hwork⟩

/-- A rule that is not useful is never listed. Without lookahead, all else holds of the rule `S → E` at the first position:
`S` is asked for there, and nothing stands before the dot. -/
theorem useless_not_listed : Sample.dangling.Built ∧
    Sample.dangling.AtDot 2 1 [] [.nonterminal 1] ∧
    Sample.dangling.AsksBy #['a'] false (Sample.dangling.rule 1).lhs 0 ∧
    Sample.dangling.MayStart #['a'] false 1 0 ∧
    Sample.dangling.DerivesSpan #['a'] [] 0 0 ∧
    ∃ entry, (parseFrom ⟨Sample.dangling, .earley { retainChart := true, lookahead := false }, none⟩ #['a']
      0).outcome.chart.bind (·[0]?) = some entry ∧ (2, 0) ∉ entry.items := by
  have hread : (parseFrom ⟨Sample.dangling, .earley { retainChart := true, lookahead := false }, none⟩ #['a']
      0).outcome.chart.bind (·[0]?) = some ⟨0, #[(0, 0)]⟩ := by decide +kernel
  refine ⟨Sample.built_prepare _, ⟨by decide +kernel, by decide +kernel, by decide +kernel⟩, ?_, ?_, .nil 0,
    ⟨_, hread, by simp⟩⟩
  · have hstart : (Sample.dangling.rule 1).lhs = Sample.dangling.start := by decide +kernel
    rw [hstart]
    exact .start
  · exact fun hlookahead => absurd hlookahead Bool.false_ne_true

end Recognizer
end ContextFree
