-- SUMMARY: When the descriptors are processed, every rule has been followed: the run is a closed search.
import ContextFree.Proofs.Gll.Calling

/-!
# Recognition by descriptors

Every descriptor that is no longer pending has left its traces. There are only finitely many descriptors, and each is queued
once, so in the end none is pending, and the run is a closed search whatever the order in which they were taken.
-/
namespace ContextFree.Gll

variable {α : Type} [DecidableEq α] {job : Job α}

namespace Run

variable {run run' : Run} {d : Descriptor} {slot : StateId} {id : RuleId} {before after : List Symbol}
  {i k j : Nat}

/-- A descriptor has been processed. -/
def Traced (job : Job α) (run : Run) (d : Descriptor) : Prop :=
  ∀ ⦃id before after⦄, job.grammar.AtDot d.slot id before after → run.Followed job d.start after d.slot d.position

/-- The start symbol has been called, and everything that is not pending has been processed and counted. -/
structure Draining (job : Job α) (run : Run) : Prop extends Settled job run where
  start : (job.grammar.start, 0) ∈ run.calls.opened
  traced : ∀ d ∈ run.seen, d ∉ run.pending → run.Traced job d
  counted : run.processed + run.pending.length = run.seen.size

theorem process_eq (hp : job.grammar.Regular) (hdot : job.grammar.AtDot d.slot id before after) (run : Run) :
    run.process job d = run.follow job d.start after d.slot d.position := by
  rw [process, hdot.rule_eq hp, hdot.dot_eq hp, hdot.rhs_eq, List.drop_left]

/-- One step processes one descriptor, whichever of those that are pending, and what it queues stays pending. -/
theorem Draining.step (hp : job.grammar.Regular) (h : run.Draining job) {pending : List Descriptor}
    (hpending : run.pending.Perm (d :: pending)) :
    (run.step job d pending).Draining job ∧
      Grows { run with pending, processed := run.processed + 1 } (run.step job d pending) := by
  have hs := h.sound
  have hseen : d ∈ run.seen := hs.pending (hpending.mem_iff.mpr List.mem_cons_self)
  obtain ⟨id, before, after, hqueued⟩ := hs.seen hseen
  have htaken : Settled job { run with pending, processed := run.processed + 1 } :=
    ⟨⟨hs.seen, fun hd => hs.pending (hpending.mem_iff.mpr (List.mem_cons_of_mem d hd)), hs.opened, hs.returns, hs.ends,
      hs.splits, hs.furthest, hs.splits_le⟩, h.started, h.met⟩
  have hkeeps : Keeps run { run with pending, processed := run.processed + 1 } :=
    ⟨Sub.refl _, Sub.refl _, fun _ _ h => h, fun _ _ h => h, fun _ _ h => h, Nat.le_refl _⟩
  rw [Run.step, process_eq hp hqueued.atDot]
  obtain ⟨hsettled, hgrows, hfollowed⟩ := htaken.follow hp hqueued.toFollowing
  refine ⟨⟨hsettled, hgrows.opened _ h.start, fun d' hd' hnot => ?_, ?_⟩, hgrows⟩
  · have hold : d' ∈ run.seen := (hgrows.queued d' hd').resolve_right hnot
    by_cases heq : d' = d
    · subst heq
      intro id' before' after' hdot
      obtain ⟨rfl, rfl, rfl⟩ := hqueued.atDot.unique hp hdot
      exact hfollowed
    · have hprocessed : d' ∉ run.pending := by
        rw [hpending.mem_iff, List.mem_cons, not_or]
        exact ⟨heq, fun hin => hnot (hgrows.pending d' hin)⟩
      exact fun id' before' after' hdot =>
        (h.traced d' hold hprocessed hdot).mono (hkeeps.trans hgrows.toKeeps)
  · have hbalance := hgrows.balance
    have hcounted := h.counted
    rw [hpending.length_eq, List.length_cons] at hcounted
    rw [hgrows.processed]
    dsimp only at hbalance ⊢
    omega

theorem Sound.descriptor_le (hp : job.grammar.Regular) (hs : run.Sound job) (hd : d ∈ run.seen) :
    d.slot < job.grammar.states.size ∧ d.start ≤ d.position ∧ d.position ≤ job.tokens.size := by
  obtain ⟨id, before, after, h⟩ := hs.seen hd
  exact ⟨h.atDot.lt_size hp, h.derives.le, (h.toFollowing.reaches hp hs).le_size⟩

/-- There are no more descriptors than states with an extent. -/
theorem Sound.size_seen_le (hp : job.grammar.Regular) (hs : run.Sound job) :
    run.seen.size ≤ descriptorBound job.grammar.states.size job.tokens.size := by
  have hspace : ∀ d ∈ run.seen, d ∈ (Finset.range job.grammar.states.size ×ˢ extents job.tokens.size).image
      fun (slot, start, position) => (⟨slot, start, position⟩ : Descriptor) := by
    intro d hd
    obtain ⟨hslot, hle, hposition⟩ := hs.descriptor_le hp hd
    exact Finset.mem_image.mpr ⟨(d.slot, d.start, d.position),
      Finset.mem_product.mpr ⟨Finset.mem_range.mpr hslot, mem_extents hle hposition⟩, rfl⟩
  calc run.seen.size
      ≤ _ := size_le_card hspace
    _ ≤ (Finset.range job.grammar.states.size ×ˢ extents job.tokens.size).card := Finset.card_image_le
    _ = job.grammar.states.size * (extents job.tokens.size).card := by rw [Finset.card_product, Finset.card_range]
    _ ≤ _ := Nat.mul_le_mul_left _ (card_extents_le _)

theorem Draining.drain (hp : job.grammar.Regular) (fuel : Nat) (progress : Progress) (h : run.Draining job)
    (hfuel : descriptorBound job.grammar.states.size job.tokens.size + run.pending.length ≤ fuel + run.seen.size) :
    (run.drain job fuel progress).2.Draining job ∧ (run.drain job fuel progress).2.pending = [] := by
  induction fuel generalizing run progress with
  | zero =>
    have hle := h.sound.size_seen_le hp
    have hnone : run.pending.length = 0 := by omega
    exact ⟨h, List.length_eq_zero_iff.mp hnone⟩
  | succ fuel ih =>
    simp only [Run.drain]
    cases hpending : run.pending with
    | nil => exact ⟨h, hpending⟩
    | cons d pending =>
      obtain ⟨hstep, hgrows⟩ := h.step hp (.of_eq hpending)
      have hbalance := hgrows.balance
      rw [hpending, List.length_cons] at hfuel
      dsimp only at hbalance
      exact ih _ hstep (by omega)

/-! ## The whole input -/

/-- What is so when no descriptor is left. -/
structure Finished (job : Job α) (run : Run) : Prop extends Settled job run where
  start : (job.grammar.start, 0) ∈ run.calls.opened
  traced : ∀ d ∈ run.seen, run.Traced job d
  counted : run.processed = run.seen.size

theorem Draining.finished (h : run.Draining job) (hnone : run.pending = []) : run.Finished job := by
  have hcounted := h.counted
  rw [hnone] at hcounted
  refine ⟨h.toSettled, h.start, fun d hd => h.traced d hd ?_, hcounted⟩
  rw [hnone]
  exact List.not_mem_nil

/-- A run when it begins: the start symbol has been called, and its rules are queued. -/
def opening (job : Job α) : Run :=
  startRules job job.grammar.start 0 { calls := Calls.openCall {} (job.grammar.start, 0) }

theorem opening_spec (hp : job.grammar.Regular) :
    (opening job).Draining job ∧ (opening job).processed = 0 ∧ ∀ d ∈ (opening job).seen, d ∈ (opening job).pending := by
  let called : Run := { calls := Calls.openCall {} (job.grammar.start, 0) }
  have hopened : ∀ {call}, call ∈ called.calls.opened ↔ call = (job.grammar.start, 0) := by
    intro call
    rw [show called.calls.opened = (∅ : Std.TreeSet Call).insert (job.grammar.start, 0) from rfl, mem_insert_iff]
    simp
  have hsound : called.Sound job := by
    refine ⟨fun hd => ?_, fun hd => ?_, fun hcall => ?_, fun hpoint => ?_, fun hstop => ?_, fun hpivot => ?_, .start,
      fun hpivot => ?_⟩
    · exact absurd hd Std.TreeSet.not_mem_emptyc
    · exact absurd hd List.not_mem_nil
    · cases hopened.mp hcall
      exact .start
    · simp [called, Calls.openCall] at hpoint
    · simp [called, Calls.openCall] at hstop
    · simp [called] at hpivot
    · simp [called] at hpivot
  obtain ⟨hstarted, hgrows, hcalls, hrules⟩ := startRules_spec hp hsound (hopened.mpr rfl)
  have hsettled : (opening job).Settled job := by
    refine ⟨hstarted, fun hcall hid hselects => ?_, fun hpoint _ => ?_⟩
    · rw [opening, hcalls] at hcall
      cases hopened.mp hcall
      exact hrules _ hid hselects
    · rw [opening, hcalls] at hpoint
      simp [called, Calls.openCall] at hpoint
  have hqueued : ∀ d ∈ (opening job).seen, d ∈ (opening job).pending := fun d hd =>
    (hgrows.queued d hd).resolve_left Std.TreeSet.not_mem_emptyc
  have hbalance : (opening job).seen.size + 0 = 0 + (opening job).pending.length := hgrows.balance
  refine ⟨⟨hsettled, hgrows.opened _ (hopened.mpr rfl), fun d hd hnot => absurd (hqueued d hd) hnot, ?_⟩, hgrows.processed,
    hqueued⟩
  rw [opening, hgrows.processed]
  exact hbalance.symm

end Run

theorem recognize_finished (hp : job.grammar.Regular) (frequency? : Option Nat) :
    (recognize job frequency?).2.Finished job := by
  obtain ⟨hopening, hprocessed, -⟩ := Run.opening_spec hp
  have hcounted := hopening.counted
  obtain ⟨hdrained, hnone⟩ := hopening.drain hp (descriptorBound job.grammar.states.size job.tokens.size)
    (Progress.start .gll job.tokens.size frequency?) (by omega)
  exact hdrained.finished hnone

/-! ## The closed search -/

namespace Run.Finished

variable {run : Run} {stop : Nat}

/-- Positions that the run has passed: those of descriptors, and those that terminals lead to. -/
inductive Passed (job : Job α) (run : Run) : StateId → Nat → Nat → Prop where
  | seen {slot : StateId} {i j : Nat} : ⟨slot, i, j⟩ ∈ run.seen → Passed job run slot i j
  | scan {slot : StateId} {id : RuleId} {before after : List Symbol} {t : TerminalId} {i k : Nat} :
      job.grammar.AtDot slot id before (.terminal t :: after) → Passed job run slot i k →
      0 < job.grammar.matchLength t job.tokens k →
      Passed job run (slot + 1) i (k + job.grammar.matchLength t job.tokens k)

theorem followed (hp : job.grammar.Regular) (h : run.Finished job) {slot : StateId} {i j : Nat}
    (hpassed : Passed job run slot i j) {id : RuleId} {before after : List Symbol}
    (hdot : job.grammar.AtDot slot id before after) : run.Followed job i after slot j := by
  induction hpassed generalizing id before after with
  | seen hd => exact h.traced _ hd hdot
  | @scan slot id' before' after' t i k hdot' _ hpos ih =>
    obtain ⟨rfl, rfl, rfl⟩ := hdot'.step.unique hp hdot
    exact (ih hdot' hpos).2.2

theorem mem_ends_of_passed (hp : job.grammar.Regular) (h : run.Finished job) {A : Nonterminal} {id : RuleId} {k j : Nat}
    (hid : id ∈ job.grammar.rulesFor A)
    (hpassed : Passed job run (job.grammar.states.initial id + (job.grammar.rule id).rhs.length) k j) :
    j ∈ run.calls.ends.get (A, k) := by
  obtain ⟨hlt, _, rfl⟩ := hp.mem_rulesFor.mp hid
  have hdot : job.grammar.AtDot (job.grammar.states.initial id + (job.grammar.rule id).rhs.length) id
      (job.grammar.rule id).rhs [] := Prepared.atDot_completed hlt
  have hend := (h.followed hp hpassed hdot).2
  rwa [hdot.lhs_eq hp] at hend

theorem closedSearch (hp : job.grammar.Regular) (h : run.Finished job) :
    ClosedSearch job.grammar job.tokens (fun id i => Run.selects job id (job.grammar.rule id).lhs i = true)
      (Passed job run) (fun slot i k j => run.Recorded job slot i k j) where
  start {id} hid hselects := by
    obtain ⟨_, _, hlhs⟩ := hp.mem_rulesFor.mp hid
    exact .seen (h.started h.start hid (hlhs ▸ hselects))
  scan hdot hpassed hpos := ⟨.scan hdot hpassed hpos, (h.followed hp hpassed hdot hpos).1⟩
  call {slot id before A after i k id'} hdot hpassed hid' hselects := by
    obtain ⟨_, _, rfl⟩ := hp.mem_rulesFor.mp hid'
    exact .seen (h.started (h.followed hp hpassed hdot).1 hid' hselects)
  resume {slot id before A after i k id' j} hdot hpassed hid' hpassed' := by
    obtain ⟨hseen, hrecorded⟩ := h.met (h.followed hp hpassed hdot).2 (h.mem_ends_of_passed hp hid' hpassed')
    exact ⟨.seen hseen, hrecorded⟩
  nothing hdot hpassed := (h.followed hp hpassed hdot).1 (hdot.dot_eq hp)

/-- No test turns down a rule that a derivation needs, if the FOLLOW test is off or the derivation takes all tokens. -/
theorem relevance (hp : job.grammar.Regular)
    (hstop : job.config.prefixParsing = true ∨ stop = job.tokens.size) :
    Relevance job.grammar job.tokens (fun id i => Run.selects job id (job.grammar.rule id).lhs i = true)
      (Within job.grammar job.tokens stop) := by
  refine within_relevance fun {A i j id} hwithin hid hbody => ?_
  obtain ⟨hlt, _, rfl⟩ := hp.mem_rulesFor.mp hid
  have hfirst : i < j → job.grammar.firstAllows id job.tokens i = true := hp.firstAllows_of_derives hlt hbody
  have hnullable : i = j → job.grammar.analysis.ruleNullable.getD id false = true := by
    intro heq
    rw [hp.ruleNullable_eq hlt]
    exact hp.allNullable_of_derives hbody heq
  have hfollow : i = j → stop = job.tokens.size →
      job.grammar.followAllows (job.grammar.rule id).lhs job.tokens i = true := by
    rintro rfl rfl
    exact hwithin.followAllows hp (.single (hp.hasRule_of_mem hid) hbody)
  have hle := hbody.le
  rcases Nat.eq_or_lt_of_le hle with heq | hlt'
  · rcases hstop with hprefix | hstop
    · simp [Run.selects, hnullable heq, hprefix]
    · simp [Run.selects, hnullable heq, hfollow heq hstop]
  · simp [Run.selects, hfirst hlt']

/-- The call of the start symbol ends with the input exactly if the start symbol derives it. -/
theorem mem_ends_iff (hp : job.grammar.Regular) (h : run.Finished job)
    (hstop : job.config.prefixParsing = true ∨ stop = job.tokens.size) :
    stop ∈ run.calls.ends.get (job.grammar.start, 0) ↔
      job.grammar.DerivesSpan job.tokens [.nonterminal job.grammar.start] 0 stop := by
  constructor
  · exact fun hend => (h.sound.ends hend).1
  · intro hderives
    obtain ⟨id, hid, hbody⟩ := hderives.exists_rule hp
    have hpassed := (h.closedSearch hp).visits_within hp (relevance hp hstop) .start hid (List.append_nil _).symm hbody
      (.nil stop)
    exact h.mem_ends_of_passed hp hid hpassed

/-- The tests turn down no rule that leads on. -/
theorem lenient (hp : job.grammar.Regular) :
    Lenient job.grammar job.tokens (fun id i => Run.selects job id (job.grammar.rule id).lhs i = true) where
  begins {A i id} hid hbegins := by
    have hfirst := hbegins.firstAllows hp (hp.mem_rulesFor.mp hid).1
    simp [Run.selects, hfirst]
  nothing {A i id} hid hbody hcontinues := by
    obtain ⟨hlt, _, rfl⟩ := hp.mem_rulesFor.mp hid
    have hnullable : job.grammar.analysis.ruleNullable.getD id false = true := by
      rw [hp.ruleNullable_eq hlt]
      exact hp.allNullable_of_derives hbody rfl
    simp [Run.selects, hnullable, hcontinues.followAllows]

/-- The furthest position that a terminal took is the last reached one. -/
theorem isGreatest_furthest (hp : job.grammar.Regular) (h : run.Finished job) :
    IsGreatest {j | job.grammar.Reaches job.tokens j} run.furthest := by
  refine ⟨h.sound.furthest, fun j hreaches => ?_⟩
  rcases Nat.eq_zero_or_pos j with rfl | hpos
  · exact Nat.zero_le _
  · obtain ⟨slot, id, before, t, after, i, k, hdot, hpassed, hmatch, rfl⟩ :=
      (h.closedSearch hp).exists_visit_of_reaches hp (lenient hp) hreaches hpos
    exact (h.followed hp hpassed hdot hmatch).2.1

end Run.Finished

end ContextFree.Gll
