-- SUMMARY: What an outcome says is determined by the grammar and the input, so both methods report the same.
import ContextFree.Proofs.Forest.Agreement

/-!
# Outcomes agree

An outcome says whether the input was accepted, how far recognition came, and where an accepted prefix ends. Recognition
comes to the last reached position. The accepted part of the tokens is all of them if they can be derived and otherwise,
if prefixes count, the longest part that can be. None of this depends on the method or on its tests.
-/
namespace ContextFree

/-- Whether the longest prefix of an input that is not accepted counts. -/
def Method.prefixParsing : Method → Bool
  | .earley config => config.prefixParsing
  | .gll config    => config.prefixParsing

variable {α : Type} [DecidableEq α]

namespace Prepared

/-- The longest part of the tokens, from the first on and not empty, that the start symbol derives ends at `stop`. -/
def LongestPrefix (p : Prepared α) (tokens : Array α) (stop : Nat) : Prop :=
  IsGreatest {j | 0 < j ∧ p.DerivesSpan tokens [.nonterminal p.start] 0 j} stop

/-- The accepted part of the tokens ends at `stop`. -/
def AcceptedEnd (p : Prepared α) (tokens : Array α) (prefixParsing : Bool) (stop : Nat) : Prop :=
  (p.DerivesSpan tokens [.nonterminal p.start] 0 tokens.size ∧ stop = tokens.size) ∨
    (¬ p.DerivesSpan tokens [.nonterminal p.start] 0 tokens.size ∧ prefixParsing = true ∧ p.LongestPrefix tokens stop)

end Prepared

/-! ## The accepted part -/

namespace Earley.Halt.Finished

variable {job : Job α} {halt : Halt} {stop : Nat}

/-- The root of a run covers the accepted part of the tokens. -/
theorem exists_root_iff (hp : job.grammar.Regular) (h : halt.Finished job) :
    (∃ root, halt.root? job = some (root, stop)) ↔
      job.grammar.AcceptedEnd job.tokens job.config.prefixParsing stop := by
  have hsuccess := h.success_iff hp
  have hnode : ∀ {j}, (∃ root, halt.run.startNode? job j = some root) ↔
      halt.run.table.Has ⟨.symbol (.nonterminal job.grammar.start), 0, j⟩ := fun {j} =>
    Option.isSome_iff_exists.symm.trans h.sound.faithful.consistent.isSome_find
  simp only [root?, Option.bind_eq_some_iff, Option.map_eq_some_iff, Prod.mk.injEq]
  by_cases hwhole : job.grammar.DerivesSpan job.tokens [.nonterminal job.grammar.start] 0 job.tokens.size
  · have htrue := hsuccess.mpr hwhole
    simp only [htrue, if_true, Option.some.injEq, Prepared.AcceptedEnd, hwhole, true_and, not_true_eq_false, false_and,
      or_false]
    constructor
    · rintro ⟨root, _, rfl, _, _, _, rfl⟩
      rfl
    · rintro rfl
      obtain ⟨root, hroot⟩ := Option.isSome_iff_exists.mp (Bool.and_eq_true_iff.mp htrue).2
      exact ⟨root, _, rfl, root, hroot, rfl, rfl⟩
  · have hfalse := mt hsuccess.mp hwhole
    simp only [hfalse, if_false, Prepared.AcceptedEnd, hwhole, false_and, false_or, not_false_eq_true, true_and,
      Bool.false_eq_true]
    rw [Prepared.LongestPrefix, ← h.checkpoint?_eq_some_iff hp]
    constructor
    · rintro ⟨root, stop', hstop, _, _, _, rfl⟩
      exact hstop
    · intro hstop
      obtain ⟨root, hroot⟩ := hnode.mpr (h.checkpoint stop hstop).2.2
      exact ⟨root, stop, hstop, root, hroot, rfl, rfl⟩

end Earley.Halt.Finished

namespace Gll.Run.Finished

variable {job : Job α} {run : Run} {stop : Nat}

/-- The accepted end of a run is that of the accepted part of the tokens. -/
theorem acceptedEnd?_eq_some_iff (hp : job.grammar.Regular) (h : run.Finished job) :
    acceptedEnd? job.config job.tokens.size (run.calls.ends.get (job.grammar.start, 0)) = some stop ↔
      job.grammar.AcceptedEnd job.tokens job.config.prefixParsing stop := by
  have hwhole : (run.calls.ends.get (job.grammar.start, 0)).contains job.tokens.size = true ↔
      job.grammar.DerivesSpan job.tokens [.nonterminal job.grammar.start] 0 job.tokens.size := by
    rw [Array.contains_iff_mem, h.mem_ends_iff hp (.inr rfl)]
  unfold acceptedEnd?
  split
  · rename_i hcontains
    simp only [Prepared.AcceptedEnd, hwhole.mp hcontains, not_true_eq_false, false_and, or_false, true_and,
      Option.some.injEq]
    exact eq_comm
  · rename_i hcontains
    simp only [Prepared.AcceptedEnd, mt hwhole.mpr hcontains, false_and, false_or, not_false_eq_true, true_and]
    split
    · rename_i hcounts
      have hends : ∀ {j}, j ∈ ((run.calls.ends.get (job.grammar.start, 0)).filter (· > 0)).toList ↔
          0 < j ∧ job.grammar.DerivesSpan job.tokens [.nonterminal job.grammar.start] 0 j := by
        intro j
        rw [Array.mem_toList_iff, Array.mem_filter, h.mem_ends_iff hp (.inl hcounts), and_comm, decide_eq_true_eq]
      rw [List.max?_eq_some_iff]
      simp only [hends, hcounts, true_and]
      exact Iff.rfl
    · rename_i hcounts
      simp [hcounts]

end Gll.Run.Finished

/-! ## What outcomes say -/

namespace Outcome

/-- The outcome of a run over `tokens` that comes to `furthest` and accepts the tokens up to `stop?`. -/
structure Reports (o : Outcome α) (tokens : Array α) (offset furthest : Nat) (stop? : Option Nat) : Prop where
  offset_eq : o.offset = offset
  read : (o.tokenCount, o.lastToken, o.moreInput) =
    lastRead tokens (if furthest < tokens.size then some furthest else none)
  prefixEnd : o.prefixEnd = if o.success then none else stop?.map (offset + ·)
  forest : o.forest.map Forest.tokens = stop?.map fun stop => tokens.extract 0 stop
  consumed : o.metrics.consumed = furthest

/-- The outcome of a run that comes to the last reached position and accepts the accepted part of the tokens. -/
structure Thorough (o : Outcome α) (p : Prepared α) (tokens : Array α) (offset : Nat) (prefixParsing : Bool)
    (furthest : Nat) (stop? : Option Nat) : Prop where
  greatest : IsGreatest {j | p.Reaches tokens j} furthest
  accepted : ∀ stop, stop? = some stop ↔ p.AcceptedEnd tokens prefixParsing stop
  success : o.success = true ↔ p.DerivesSpan tokens [.nonterminal p.start] 0 tokens.size
  reports : o.Reports tokens offset furthest stop?

/-- Whether a run accepted its input or a prefix of it. -/
def accepted (o : Outcome α) : Bool :=
  o.success || o.prefixSucceeded

/-- What two outcomes have in common if they differ only in how they were found. -/
structure Agrees (o o' : Outcome α) : Prop where
  success : o.success = o'.success
  tokenCount : o.tokenCount = o'.tokenCount
  lastToken : o.lastToken = o'.lastToken
  moreInput : o.moreInput = o'.moreInput
  prefixEnd : o.prefixEnd = o'.prefixEnd
  prefixSucceeded : o.prefixSucceeded = o'.prefixSucceeded
  forest : o.forest.isSome = o'.forest.isSome
  consumed : o.metrics.consumed = o'.metrics.consumed

/-- The outcome names the token at `position` as the one that could not be used, or the last one if there is none there. -/
structure StopsAt (o : Outcome α) (tokens : Array α) (position : Nat) : Prop where
  le_size : position ≤ tokens.size
  inside : position < tokens.size →
    o.tokenCount = position + 1 ∧ o.lastToken = tokens[position]? ∧ o.moreInput = true
  atEnd : position = tokens.size → o.tokenCount = tokens.size ∧ o.lastToken = tokens.back? ∧ o.moreInput = false

variable {o o' : Outcome α} {tokens : Array α} {offset furthest : Nat} {stop? : Option Nat}

omit [DecidableEq α] in
theorem Reports.agrees (h : o.Reports tokens offset furthest stop?) (h' : o'.Reports tokens offset furthest stop?)
    (hsuccess : o.success = o'.success) : o.Agrees o' := by
  have hread := h.read.trans h'.read.symm
  simp only [Prod.mk.injEq] at hread
  have hcounts : o.prefixEnd = o'.prefixEnd := by rw [h.prefixEnd, h'.prefixEnd, hsuccess]
  have hforest : o.forest.isSome = o'.forest.isSome := by
    simpa only [Option.isSome_map] using congrArg Option.isSome (h.forest.trans h'.forest.symm)
  exact ⟨hsuccess, hread.1, hread.2.1, hread.2.2, hcounts, by rw [prefixSucceeded, prefixSucceeded, hsuccess, hcounts],
    hforest, h.consumed.trans h'.consumed.symm⟩

omit [DecidableEq α] in
theorem Reports.stopsAt (h : o.Reports tokens offset furthest stop?) (hle : furthest ≤ tokens.size) :
    o.StopsAt tokens furthest := by
  refine ⟨hle, fun hlt => ?_, fun heq => ?_⟩
  · have hread := h.read
    rw [if_pos hlt, lastRead] at hread
    simpa only [Prod.mk.injEq] using hread
  · have hread := h.read
    rw [if_neg (Nat.not_lt.mpr (Nat.le_of_eq heq.symm)), lastRead] at hread
    simpa only [Prod.mk.injEq] using hread

end Outcome

/-! ## Outcomes of runs by descriptors -/

namespace Gll

/-- What a run over the tokens of a job has to say when it has ended. -/
def outcomeOf (job : Job α) (run : Run) (offset : Nat) : Outcome α :=
  let ends := run.calls.ends.get (job.grammar.start, 0)
  let success := ends.contains job.tokens.size
  let accepted? := acceptedEnd? job.config job.tokens.size ends
  let (tokenCount, lastToken, moreInput) :=
    lastRead job.tokens (if run.furthest < job.tokens.size then some run.furthest else none)
  let extracted? := accepted?.map fun stop => (extract job.grammar run.splits stop, stop)
  { algorithm := .gll, success, offset, tokenCount, lastToken, moreInput
    forest := extracted?.map fun ((root, table), stop) =>
      Forest.finish job.grammar table [root] (job.tokens.extract 0 stop) offset
    prefixEnd := if success then none else accepted?.map (offset + ·)
    metrics :=
      { consumed := run.furthest, workItems := run.processed
        nodesCreated := (extracted?.map fun ((_, table), _) => table.size).getD 0 }
    chart := none }

/-- A parse returns what its run has to say. -/
theorem outcome_parse (p : Prepared α) (config : Config) (frequency? : Option Nat) (input : Array α) (offset : Nat) :
    (parse p config frequency? input offset).1 =
      outcomeOf ⟨p, config, input.extract offset input.size⟩
        (recognize ⟨p, config, input.extract offset input.size⟩ frequency?).2 offset := rfl

/-- A run that has ended comes to the last reached position and accepts the accepted part of the tokens. -/
theorem Run.Finished.thorough {job : Job α} {run : Run} (hp : job.grammar.Regular) (h : run.Finished job) (offset : Nat) :
    ∃ furthest stop?, (outcomeOf job run offset).Thorough job.grammar job.tokens offset job.config.prefixParsing furthest
      stop? := by
  refine ⟨_, _, h.isGreatest_furthest hp, fun stop => h.acceptedEnd?_eq_some_iff hp, ?_, rfl, rfl, rfl, ?_, rfl⟩
  · rw [← h.mem_ends_iff hp (.inr rfl)]
    exact Array.contains_iff_mem
  · simp only [outcomeOf, Option.map_map]
    rfl

end Gll

namespace Recognizer

variable [Quote α]

/-- A run by item sets comes to the last reached position and accepts the accepted part of the tokens. -/
theorem earley_reports {p : Prepared α} (hp : p.Regular) (config : Earley.Config) (frequency? : Option Nat)
    (input : Array α) (offset : Nat) :
    ∃ furthest stop?, (Earley.parse p config frequency? input offset).1.Thorough p (input.extract offset input.size) offset
      config.prefixParsing furthest stop? := by
  let job : Earley.Job α := { grammar := p, config, tokens := input.extract offset input.size, offset }
  have h : (Earley.recognize job frequency?).Finished job := Earley.recognize_finished hp _
  have hgreatest := h.isGreatest_furthest hp
  refine ⟨_, ((Earley.recognize job frequency?).root? job).map Prod.snd, hgreatest, fun stop => ?_,
    h.success_iff hp, rfl, ?_, ?_, ?_, ?_⟩
  · rw [← h.exists_root_iff hp, Option.map_eq_some_iff]
    constructor
    · rintro ⟨⟨root, stop⟩, hroot, rfl⟩
      exact ⟨root, hroot⟩
    · rintro ⟨root, hroot⟩
      exact ⟨(root, stop), hroot, rfl⟩
  · rw [← h.stopped?_eq hp]
    rfl
  · rw [Option.map_map]
    rfl
  · simp only [Earley.parse, Option.map_map]
    rfl
  · simp only [Earley.parse]
    split
    · rename_i hsuccess
      have hreaches := hp.reaches_of_accepted ((h.success_iff hp).mp hsuccess)
      exact Nat.le_antisymm (hgreatest.2 hreaches) hgreatest.1.le_size
    · rfl

omit [Quote α] in
/-- A run by descriptors does the same. -/
theorem gll_reports {p : Prepared α} (hp : p.Regular) (config : Gll.Config) (frequency? : Option Nat) (input : Array α)
    (offset : Nat) :
    ∃ furthest stop?, (Gll.parse p config frequency? input offset).1.Thorough p (input.extract offset input.size) offset
      config.prefixParsing furthest stop? := by
  rw [Gll.outcome_parse]
  exact (Gll.recognize_finished hp frequency?).thorough hp offset

/-- Whatever the method, a run comes to the last reached position and accepts the accepted part of the tokens. -/
theorem exists_reports (r : Recognizer α) (hp : r.grammar.Regular) (input : Array α) (offset : Nat) :
    ∃ furthest stop?, (r.parseFrom input offset).outcome.Thorough r.grammar (input.extract offset input.size) offset
      r.method.prefixParsing furthest stop? := by
  rw [outcome_parseFrom]
  obtain ⟨p, method, monitor⟩ := r
  cases method with
  | earley config => exact earley_reports hp config _ input offset
  | gll config => exact gll_reports hp config _ input offset

/-- A run that accepts something returns a forest. -/
theorem exists_forest (r : Recognizer α) (hp : r.grammar.Regular) (input : Array α) (offset : Nat)
    (h : (r.parseFrom input offset).outcome.accepted = true) : ∃ f, (r.parseFrom input offset).outcome.forest = some f := by
  obtain ⟨furthest, stop?, -, hstop, hsuccess, hreports⟩ := r.exists_reports hp input offset
  have hsome : stop?.isSome = true := by
    rw [Outcome.accepted, Outcome.prefixSucceeded, hreports.prefixEnd] at h
    cases hcase : (r.parseFrom input offset).outcome.success with
    | true => rw [(hstop _).mpr (.inl ⟨hsuccess.mp hcase, rfl⟩), Option.isSome_some]
    | false => simpa [hcase] using h
  apply Option.isSome_iff_exists.mp
  rw [← Option.isSome_map (f := Forest.tokens), hreports.forest, Option.isSome_map, hsome]

/-- Two runs over the same tokens that treat prefixes alike have the same outcome, whatever their methods, tests and monitors.
Both name the token at the last reached position as the one that could not be used. -/
theorem outcomes_agree {p : Prepared α} (hp : p.Built) (method method' : Method)
    (hcounts : method.prefixParsing = method'.prefixParsing) (monitor monitor' : Option Monitor) (input : Array α)
    (offset : Nat) :
    (parseFrom ⟨p, method, monitor⟩ input offset).outcome.Agrees
        (parseFrom ⟨p, method', monitor'⟩ input offset).outcome ∧
      ∃ furthest, IsGreatest {j | p.Reaches (input.extract offset input.size) j} furthest ∧
        (parseFrom ⟨p, method, monitor⟩ input offset).outcome.StopsAt (input.extract offset input.size) furthest := by
  obtain ⟨furthest, stop?, hgreatest, hstop, hsuccess, hreports⟩ :=
    exists_reports ⟨p, method, monitor⟩ hp.regular input offset
  obtain ⟨furthest', stop?', hgreatest', hstop', hsuccess', hreports'⟩ :=
    exists_reports ⟨p, method', monitor'⟩ hp.regular input offset
  obtain rfl : furthest = furthest' := hgreatest.unique hgreatest'
  obtain rfl : stop? = stop?' := Option.ext fun stop => by
    rw [hstop, hstop', hcounts]
  have hsame := Bool.eq_iff_iff.mpr (hsuccess.trans hsuccess'.symm)
  exact ⟨hreports.agrees hreports' hsame, furthest, hgreatest, hreports.stopsAt hgreatest.1.le_size⟩

/-- After an offset, both methods come to the second letter that the sample does not know. -/
theorem outcomes_agree_sample : Sample.prepared.Built ∧
    (parseFrom ⟨Sample.prepared, .earley { prefixParsing := true }, none⟩ #['b', 'a', 'a', 'b', 'a'] 1).outcome.Agrees
      (parseFrom ⟨Sample.prepared, .gll { prefixParsing := true, lookahead := false }, none⟩
        #['b', 'a', 'a', 'b', 'a'] 1).outcome ∧
    IsGreatest {j | Sample.prepared.Reaches #['a', 'a', 'b', 'a'] j} 2 := by
  obtain ⟨hagrees, furthest, hgreatest, hstops⟩ := outcomes_agree Sample.prepared_built
    (.earley { prefixParsing := true }) (.gll { prefixParsing := true, lookahead := false }) rfl none none
    #['b', 'a', 'a', 'b', 'a'] 1
  have hcount : (parseFrom ⟨Sample.prepared, .earley { prefixParsing := true }, none⟩
      #['b', 'a', 'a', 'b', 'a'] 1).outcome.tokenCount = 3 := by decide +kernel
  rcases Nat.lt_or_eq_of_le hstops.le_size with hlt | heq
  · obtain rfl : furthest = 2 := Nat.succ.inj ((hstops.inside hlt).1.symm.trans hcount)
    exact ⟨Sample.prepared_built, hagrees, hgreatest⟩
  · exact absurd ((hstops.atEnd heq).1.symm.trans hcount) (by decide)

end Recognizer
end ContextFree
