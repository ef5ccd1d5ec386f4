-- SUMMARY: Without the FOLLOW test, descriptors and chart items come from one and the same search.
import ContextFree.Proofs.RetainedChart

/-!
# Two methods, one search

Recognition by item sets goes through the input position by position, recognition by descriptors takes the latest
descriptor first and passes terminals without stopping. With the same lookahead, and with the FOLLOW test inactive, both
come to exactly the positions of rules that are entered. A descriptor is an item at the start of its rule or right after a
nonterminal, and an end of a call is a completed item.
-/
namespace ContextFree

variable {α : Type}

/-- Whether the dot is at the start of the rule or right after a nonterminal. -/
def Dotted.isEntry (s : Dotted) : Bool :=
  s.dot == 0 || s.previous.any (!·.isTerminal)

theorem Prepared.AtDot.isEntry_iff {p : Prepared α} {slot : StateId} {id : RuleId} {before after : List Symbol}
    (hp : p.Regular) (h : p.AtDot slot id before after) :
    (p.state slot).isEntry = true ↔ ∀ t, before.getLast? ≠ some (.terminal t) := by
  rw [Dotted.isEntry, h.dot_eq hp, h.previous_eq hp]
  rcases List.eq_nil_or_concat before with rfl | ⟨before, symbol, rfl⟩
  · simp
  · cases symbol <;> simp [Symbol.isTerminal]

variable [DecidableEq α]

/-! ## Descriptors -/

namespace Gll

variable {job : Job α} {run : Run} {A : Nonterminal} {slot : StateId} {i k j : Nat}

/-- The FOLLOW test has no say. -/
def Config.IgnoresFollow (config : Config) : Prop :=
  config.lookahead = false ∨ config.followCheck = false ∨ config.prefixParsing = true

/-- Lookahead alone decides which rules are started. -/
theorem selects_iff (hfollow : job.config.IgnoresFollow) {id : RuleId} :
    Run.selects job id A i = true ↔ job.grammar.MayStart job.tokens job.config.lookahead id i := by
  have hinactive : job.config.lookahead = true →
      (!job.config.followCheck || job.config.prefixParsing) = true := by
    intro hlookahead
    rcases hfollow with hoff | hoff | hcounts
    · rw [hoff] at hlookahead
      cases hlookahead
    · rw [hoff]
      rfl
    · rw [hcounts, Bool.or_true]
  cases hlookahead : job.config.lookahead with
  | false => simp [Run.selects, Prepared.MayStart, hlookahead]
  | true =>
    simp only [Run.selects, Prepared.MayStart, Prepared.canStart, hlookahead, hinactive hlookahead]
    cases job.grammar.analysis.ruleNullable.getD id false <;> simp

theorem asksBy_of_asked (hfollow : job.config.IgnoresFollow) (h : Run.Asked job A i) :
    job.grammar.AsksBy job.tokens job.config.lookahead A i :=
  h.mono fun _ _ ⟨id, hid, hrule, hselects⟩ => ⟨id, hid, hrule, (selects_iff hfollow).mp hselects⟩

namespace Run.Finished

theorem passed_of_enters (hp : job.grammar.Regular) (hfollow : job.config.IgnoresFollow) (h : run.Finished job)
    (henters : job.grammar.Enters job.tokens job.config.lookahead slot i j) : Passed job run slot i j := by
  have hs := h.closedSearch hp
  simp only [selects_iff hfollow] at hs
  exact hs.visits_of_enters hp henters

/-- The descriptors are the entered positions at the start of a rule or right after a nonterminal. -/
theorem mem_seen_iff (hp : job.grammar.Regular) (hfollow : job.config.IgnoresFollow) (h : run.Finished job) :
    ⟨slot, i, j⟩ ∈ run.seen ↔
      job.grammar.Enters job.tokens job.config.lookahead slot i j ∧ (job.grammar.state slot).isEntry = true := by
  constructor
  · intro hseen
    obtain ⟨id, before, after, hqueued⟩ := h.sound.seen hseen
    have hasks := asksBy_of_asked hfollow (h.sound.opened hqueued.opened)
    have hstart := (selects_iff hfollow).mp hqueued.selected
    refine ⟨⟨id, before, after, hqueued.atDot, (hp.mem_rulesFor.mp hqueued.useful).2.1, hasks, hstart, hqueued.derives⟩, ?_⟩
    exact (hqueued.atDot.isEntry_iff hp).mpr hqueued.entry
  · rintro ⟨henters, hentry⟩
    cases h.passed_of_enters hp hfollow henters with
    | seen hseen => exact hseen
    | @scan slot id before after t i k hdot _ _ =>
      -- a position that only a terminal leads to is no entry
      exact absurd List.getLast?_concat ((hdot.step.isEntry_iff hp).mp hentry t)

/-- The ends of a call are the positions where one of its rules is completed. -/
theorem mem_ends_iff_enters (hp : job.grammar.Regular) (hfollow : job.config.IgnoresFollow) (h : run.Finished job) :
    j ∈ run.calls.ends.get (A, k) ↔ ∃ slot, job.grammar.Enters job.tokens job.config.lookahead slot k j ∧
      (job.grammar.state slot).isComplete = true ∧ (job.grammar.state slot).lhs = A := by
  constructor
  · intro hend
    obtain ⟨hderives, hopened⟩ := h.sound.ends hend
    obtain ⟨id, hid, hbody⟩ := hderives.exists_rule hp
    obtain ⟨hlt, huseful, rfl⟩ := hp.mem_rulesFor.mp hid
    have hdot := Prepared.atDot_completed hlt
    have hasks := asksBy_of_asked hfollow (h.sound.opened hopened)
    refine ⟨_, ⟨id, _, [], hdot, huseful, hasks, fun _ => hp.canStart_of_derives hlt hbody, hbody⟩, ?_, hdot.lhs_eq hp⟩
    rw [hdot.isComplete_eq hp, List.isEmpty_nil]
  · rintro ⟨slot, henters, hcomplete, rfl⟩
    have ⟨id, before, after, hdot, huseful, _⟩ := henters
    have hpassed := h.passed_of_enters hp hfollow henters
    rw [hdot.isComplete_eq hp, List.isEmpty_iff] at hcomplete
    subst hcomplete
    have hrhs : (job.grammar.rule id).rhs = before := by rw [hdot.rhs_eq, List.append_nil]
    rw [hdot.slot_eq, ← hrhs] at hpassed
    rw [hdot.lhs_eq hp]
    exact h.mem_ends_of_passed hp (hp.mem_rulesFor.mpr ⟨hdot.lt, huseful, rfl⟩) hpassed

end Run.Finished
end Gll

/-! ## Items -/

/-- The chart lists a state with an origin at a position. -/
def Lists (entries : Array ChartEntry) (position : Nat) (slot : StateId) (origin : Nat) : Prop :=
  ∃ entry ∈ entries, entry.position = position ∧ (slot, origin) ∈ entry.items

namespace ExactChart

variable {p : Prepared α} {tokens : Array α} {lookahead : Bool} {offset : Nat} {entries : Array ChartEntry}
  {slot : StateId} {i j : Nat}

theorem lists_iff (hp : p.Regular) (h : ExactChart p tokens lookahead offset entries) :
    Lists entries (offset + j) slot (offset + i) ↔ p.Enters tokens lookahead slot i j := by
  constructor
  · rintro ⟨entry, hentry, hposition, hitem⟩
    obtain ⟨j', hj'⟩ := Array.getElem?_of_mem hentry
    obtain rfl : j' = j := by
      have := h.position_eq hj'
      omega
    obtain ⟨i', heq, henters⟩ := (h.mem_items hj' slot _).mp hitem
    obtain rfl : i = i' := Nat.add_left_cancel heq
    exact henters
  · intro henters
    have hj : j < entries.size := by
      have := henters.le_size hp
      have := h.size_eq
      omega
    have hget : entries[j]? = some entries[j] := Array.getElem?_eq_getElem hj
    exact ⟨entries[j], Array.getElem_mem hj, h.position_eq hget, (h.mem_items hget slot _).mpr ⟨i, rfl, henters⟩⟩

/-- The descriptors that a chart stands for, position by position. -/
def descriptors (p : Prepared α) (offset : Nat) (entries : Array ChartEntry) : List Gll.Descriptor :=
  entries.toList.flatMap fun entry =>
    (entry.items.toList.filter fun item => (p.state item.1).isEntry).map fun item =>
      ⟨item.1, item.2 - offset, entry.position - offset⟩

omit [DecidableEq α] in
theorem length_descriptors (p : Prepared α) (offset : Nat) (entries : Array ChartEntry) :
    (descriptors p offset entries).length =
      (entries.toList.map fun entry => entry.items.toList.countP fun item => (p.state item.1).isEntry).sum := by
  simp only [descriptors, List.length_flatMap, List.length_map, List.countP_eq_length_filter]

/-- Every listed origin is an absolute position. -/
theorem le_origin (h : ExactChart p tokens lookahead offset entries) {entry : ChartEntry} (hentry : entry ∈ entries)
    {item : StateId × Nat} (hitem : item ∈ entry.items) : offset ≤ item.2 := by
  obtain ⟨j, hj⟩ := Array.getElem?_of_mem hentry
  obtain ⟨i, heq, -⟩ := (h.mem_items hj item.1 item.2).mp hitem
  omega

theorem nodup_descriptors (h : ExactChart p tokens lookahead offset entries) :
    (descriptors p offset entries).Nodup := by
  refine List.nodup_flatMap.mpr ⟨fun entry hentry => ?_, ?_⟩
  · rw [Array.mem_toList_iff] at hentry
    refine ((h.nodup hentry).filter _).map_on fun item hitem item' hitem' heq => ?_
    have hle := h.le_origin hentry (Array.mem_toList_iff.mp (List.mem_of_mem_filter hitem))
    have hle' := h.le_origin hentry (Array.mem_toList_iff.mp (List.mem_of_mem_filter hitem'))
    obtain ⟨hslot, horigin, -⟩ := Gll.Descriptor.mk.inj heq
    exact Prod.ext hslot (by omega)
  · -- entries at different places have different positions
    refine List.pairwise_iff_getElem.mpr fun j j' hj hj' hlt => ?_
    rw [Function.onFun, List.disjoint_left]
    intro d hd hd'
    obtain ⟨item, -, rfl⟩ := List.mem_map.mp hd
    obtain ⟨item', -, heq⟩ := List.mem_map.mp hd'
    have hposition := h.position_eq (Array.getElem?_eq_getElem (by simpa using hj))
    have hposition' := h.position_eq (Array.getElem?_eq_getElem (by simpa using hj'))
    have hsame := (Gll.Descriptor.mk.inj heq).2.2
    simp only [Array.getElem_toList] at hsame
    omega

theorem mem_descriptors_iff (hp : p.Regular) (h : ExactChart p tokens lookahead offset entries) :
    ⟨slot, i, j⟩ ∈ descriptors p offset entries ↔
      p.Enters tokens lookahead slot i j ∧ (p.state slot).isEntry = true := by
  rw [← h.lists_iff hp]
  simp only [descriptors, List.mem_flatMap, List.mem_map, List.mem_filter, Array.mem_toList_iff]
  constructor
  · rintro ⟨entry, hentry, item, ⟨hitem, hstate⟩, heq⟩
    have hle := h.le_origin hentry hitem
    obtain ⟨j', hj'⟩ := Array.getElem?_of_mem hentry
    have hposition := h.position_eq hj'
    obtain ⟨rfl, rfl, rfl⟩ := Gll.Descriptor.mk.inj heq
    refine ⟨⟨entry, hentry, by omega, ?_⟩, hstate⟩
    rwa [Nat.add_sub_cancel' hle]
  · rintro ⟨⟨entry, hentry, hposition, hitem⟩, hstate⟩
    refine ⟨entry, hentry, _, ⟨hitem, hstate⟩, ?_⟩
    rw [hposition, Nat.add_sub_cancel_left, Nat.add_sub_cancel_left]

end ExactChart

/-! ## Both methods -/

/-- A run by descriptors and a chart that come from the same search. -/
structure SameSearch (p : Prepared α) (offset : Nat) (run : Gll.Run) (entries : Array ChartEntry) : Prop where
  /-- The descriptors are the items at the start of a rule or right after a nonterminal. -/
  mem_seen : ∀ slot i j, ⟨slot, i, j⟩ ∈ run.seen ↔
    Lists entries (offset + j) slot (offset + i) ∧ (p.state slot).isEntry = true
  /-- The ends of a call are where a completed item of its nonterminal has its origin. -/
  mem_ends : ∀ A k j, j ∈ run.calls.ends.get (A, k) ↔ ∃ slot, Lists entries (offset + j) slot (offset + k) ∧
    (p.state slot).isComplete = true ∧ (p.state slot).lhs = A
  /-- There are as many descriptors as such items. -/
  size_seen : run.seen.size =
    (entries.toList.map fun entry => entry.items.toList.countP fun item => (p.state item.1).isEntry).sum

theorem Gll.Run.Finished.sameSearch {job : Gll.Job α} {run : Gll.Run} (hp : job.grammar.Regular)
    (hfollow : job.config.IgnoresFollow) (h : run.Finished job) {offset : Nat} {entries : Array ChartEntry}
    (hchart : ExactChart job.grammar job.tokens job.config.lookahead offset entries) :
    SameSearch job.grammar offset run entries where
  mem_seen slot i j := by rw [h.mem_seen_iff hp hfollow, hchart.lists_iff hp]
  mem_ends A k j := by simp only [h.mem_ends_iff_enters hp hfollow, hchart.lists_iff hp]
  size_seen := by
    have hmembers : members run.seen = (ExactChart.descriptors job.grammar offset entries).toFinset := by
      ext ⟨slot, i, j⟩
      rw [mem_members, h.mem_seen_iff hp hfollow, List.mem_toFinset, hchart.mem_descriptors_iff hp]
    rw [← card_members, hmembers, List.toFinset_card_of_nodup hchart.nodup_descriptors,
      ExactChart.length_descriptors]

namespace Recognizer

variable [Quote α]

/-- With the same lookahead and without the FOLLOW test, the two methods search alike. -/
theorem exists_sameSearch {p : Prepared α} (hp : p.Built) (earley : Earley.Config) (gll : Gll.Config)
    (hretain : earley.retainChart = true) (hlookahead : earley.lookahead = gll.lookahead)
    (hfollow : gll.IgnoresFollow) (monitor monitor' : Option Monitor) (input : Array α) (offset : Nat) :
    ∃ entries, (parseFrom ⟨p, .earley earley, monitor⟩ input offset).outcome.chart = some entries ∧
      SameSearch p offset
        (Gll.recognize ⟨p, gll, input.extract offset input.size⟩ (monitor'.map Monitor.frequency)).2 entries ∧
      (parseFrom ⟨p, .gll gll, monitor'⟩ input offset).outcome.metrics.workItems =
        (entries.toList.map fun entry => entry.items.toList.countP fun item => (p.state item.1).isEntry).sum := by
  rw [outcome_parseFrom, outcome_parseFrom]
  let job : Earley.Job α := { grammar := p, config := earley, tokens := input.extract offset input.size, offset }
  let job' : Gll.Job α := { grammar := p, config := gll, tokens := input.extract offset input.size }
  have hitems : (Earley.recognize job (monitor.map Monitor.frequency)).Finished job :=
    Earley.recognize_finished hp.regular _
  have hdescriptors : (Gll.recognize job' (monitor'.map Monitor.frequency)).2.Finished job' :=
    Gll.recognize_finished hp.regular _
  have hchart := hitems.exactChart hp.regular
  rw [show job.config.lookahead = job'.config.lookahead from hlookahead] at hchart
  have hsame := hdescriptors.sameSearch hp.regular hfollow hchart
  exact ⟨_, if_pos hretain, hsame, hdescriptors.counted.trans hsame.size_seen⟩

/-- One letter, with the FOLLOW test switched off: of twelve items eleven are descriptors, all but the one behind the
letter. -/
theorem exists_sameSearch_sample : Sample.prepared.Built ∧
    (parseFrom ⟨Sample.prepared, .earley { retainChart := true }, none⟩ #['a'] 0).outcome.metrics.workItems = 12 ∧
    (parseFrom ⟨Sample.prepared, .gll { followCheck := false }, none⟩ #['a'] 0).outcome.metrics.workItems = 11 ∧
    ∃ entries, (parseFrom ⟨Sample.prepared, .earley { retainChart := true }, none⟩ #['a'] 0).outcome.chart =
        some entries ∧
      SameSearch Sample.prepared 0
        (Gll.recognize ⟨Sample.prepared, { followCheck := false }, #['a'].extract 0 1⟩ none).2 entries := by
  obtain ⟨entries, hchart, hsame, -⟩ := exists_sameSearch Sample.prepared_built { retainChart := true }
    { followCheck := false } rfl rfl (.inr (.inl rfl)) none none #['a'] 0
  exact ⟨Sample.prepared_built, by decide +kernel, by decide +kernel, entries, hchart, hsame⟩

end Recognizer
end ContextFree
