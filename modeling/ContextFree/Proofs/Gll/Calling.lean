-- SUMMARY: Calls and returns meet, whichever comes first, and following a rule leaves its traces.
import ContextFree.Proofs.Gll.Moves

/-!
# Calls and returns

A run is settled if the rules of every open call have been started and every caller has been resumed at every end. A new
caller is resumed at the ends found so far, a new end resumes the callers known so far, and a call that is not open
has no ends: so calling and finishing a call keep a run settled.
-/
namespace ContextFree.Gll.Run

variable {α : Type} [DecidableEq α] {job : Job α} {run run' : Run} {A : Nonterminal} {slot : StateId} {id : RuleId}
  {before after : List Symbol} {i k j start position : Nat}

/-- Calls have been started, callers resumed, and everything is derived. -/
structure Settled (job : Job α) (run : Run) : Prop where
  sound : run.Sound job
  started : ∀ {A k id}, (A, k) ∈ run.calls.opened → id ∈ job.grammar.rulesFor A → selects job id A k = true →
    ⟨job.grammar.states.initial id, k, k⟩ ∈ run.seen
  met : ∀ {A k point stop}, point ∈ run.calls.returns.get (A, k) → stop ∈ run.calls.ends.get (A, k) →
    run.Resumed job point.1 point.2 k stop

/-- Growing without touching the calls. -/
theorem Settled.of_calls_eq (h : run.Settled job) (hs : run'.Sound job) (hgrows : Grows run run')
    (hcalls : run'.calls = run.calls) : run'.Settled job := by
  refine ⟨hs, fun hopened hid hselects => ?_, fun hpoint hstop => ?_⟩
  · rw [hcalls] at hopened
    exact hgrows.seen _ (h.started hopened hid hselects)
  · rw [hcalls] at hpoint hstop
    exact (h.met hpoint hstop).mono hgrows.toKeeps

/-! ## Calling -/

theorem startRules_spec (hp : job.grammar.Regular) (hs : run.Sound job) (hopened : (A, position) ∈ run.calls.opened) :
    (run.startRules job A position).Sound job ∧ Grows run (run.startRules job A position) ∧
      (run.startRules job A position).calls = run.calls ∧
      ∀ id ∈ job.grammar.rulesFor A, selects job id A position = true →
        ⟨job.grammar.states.initial id, position, position⟩ ∈ (run.startRules job A position).seen := by
  have hvisit : ∀ r : Run, ∀ id ∈ (job.grammar.rulesFor A).toList, (r.Sound job ∧ r.calls = run.calls) →
      let r' := if selects job id A position then r.queue ⟨job.grammar.states.initial id, position, position⟩ else r
      (r'.Sound job ∧ r'.calls = run.calls) ∧ Grows r r' ∧
        (selects job id A position = true → ⟨job.grammar.states.initial id, position, position⟩ ∈ r'.seen) := by
    rintro r id hid ⟨hr, hcalls⟩
    obtain ⟨hlt, huseful, rfl⟩ := hp.mem_rulesFor.mp (Array.mem_toList_iff.mp hid)
    dsimp only
    split
    · rename_i hselects
      have hqueued : Queued job r.calls ⟨job.grammar.states.initial id, position, position⟩ id []
          (job.grammar.rule id).rhs :=
        ⟨⟨Prepared.atDot_initial hlt, Array.mem_toList_iff.mp hid, hselects, .nil position, hcalls ▸ hopened⟩, by simp⟩
      refine ⟨⟨hr.queue hqueued, ?_⟩, queue_grows r _, fun _ => mem_seen_queue.mpr (.inl rfl)⟩
      rw [calls_queue, hcalls]
    · rename_i hselects
      exact ⟨⟨hr, hcalls⟩, .refl r, fun h => absurd h hselects⟩
  obtain ⟨⟨hsound, hcalls⟩, hgrows, hstarted⟩ := foldl_visits Grows.refl Grows.trans
    (P := fun r => r.Sound job ∧ r.calls = run.calls)
    (Q := fun id r => selects job id A position = true →
      ⟨job.grammar.states.initial id, position, position⟩ ∈ r.seen)
    hvisit (fun r r' id _ hgrows hseen hselects => hgrows.seen _ (hseen hselects)) ⟨hs, rfl⟩
  rw [Array.foldl_toList] at hsound hcalls hgrows hstarted
  exact ⟨hsound, hgrows, hcalls, fun id hid => hstarted id (Array.mem_toList_iff.mpr hid)⟩

/-- Resuming one caller at several ends, or several callers at one end. -/
theorem resumeAll_spec (hp : job.grammar.Regular) (hs : run.Sound job) {β : Type} (caller : β → ReturnPoint)
    (stop : β → Nat) {xs : List β} (hxs : ∀ x ∈ xs, caller x ∈ run.calls.returns.get (A, k) ∧
      job.grammar.DerivesSpan job.tokens [.nonterminal A] k (stop x)) :
    (xs.foldl (fun run x => run.resume job (caller x).1 (caller x).2 k (stop x)) run).Sound job ∧
      Grows run (xs.foldl (fun run x => run.resume job (caller x).1 (caller x).2 k (stop x)) run) ∧
      (xs.foldl (fun run x => run.resume job (caller x).1 (caller x).2 k (stop x)) run).calls = run.calls ∧
      ∀ x ∈ xs, (xs.foldl (fun run x => run.resume job (caller x).1 (caller x).2 k (stop x)) run).Resumed job
        (caller x).1 (caller x).2 k (stop x) := by
  have hvisit : ∀ r : Run, ∀ x ∈ xs, (r.Sound job ∧ r.calls = run.calls) →
      ((r.resume job (caller x).1 (caller x).2 k (stop x)).Sound job ∧
          (r.resume job (caller x).1 (caller x).2 k (stop x)).calls = run.calls) ∧
        Grows r (r.resume job (caller x).1 (caller x).2 k (stop x)) ∧
        (r.resume job (caller x).1 (caller x).2 k (stop x)).Resumed job (caller x).1 (caller x).2 k (stop x) := by
    rintro r x hx ⟨hr, hcalls⟩
    obtain ⟨hpoint, hderives⟩ := hxs x hx
    obtain ⟨slot, id, before, after, hslot, hfollowing⟩ := hs.returns hpoint
    rw [← hcalls] at hfollowing
    rw [hslot]
    obtain ⟨hsound, hgrows, hcalls', hresumed⟩ := resume_spec hp hr hfollowing hderives
    exact ⟨⟨hsound, hcalls'.trans hcalls⟩, hgrows, hresumed⟩
  obtain ⟨⟨hsound, hcalls⟩, hgrows, hresumed⟩ := foldl_visits Grows.refl Grows.trans
    (P := fun r => r.Sound job ∧ r.calls = run.calls)
    (Q := fun x r => r.Resumed job (caller x).1 (caller x).2 k (stop x))
    hvisit (fun r r' x _ hgrows hresumed => hresumed.mono hgrows.toKeeps) ⟨hs, rfl⟩
  exact ⟨hsound, hgrows, hcalls, hresumed⟩

/-- New calls that are derived, too. -/
theorem Sound.withCalls (hs : run.Sound job) {calls : Calls} (hopened : Sub run.calls.opened calls.opened)
    (hasked : ∀ {A k}, (A, k) ∈ calls.opened → (A, k) ∈ run.calls.opened ∨ Asked job A k)
    (hreturns : ∀ {A k point}, point ∈ calls.returns.get (A, k) → point ∈ run.calls.returns.get (A, k) ∨
      ∃ slot id before after, point.1 = slot + 1 ∧
        Following job calls slot point.2 k id before (.nonterminal A :: after))
    (hends : ∀ {A k stop}, stop ∈ calls.ends.get (A, k) → stop ∈ run.calls.ends.get (A, k) ∨
      job.grammar.DerivesSpan job.tokens [.nonterminal A] k stop ∧ (A, k) ∈ calls.opened) :
    Sound job { run with calls } := by
  have hkeep : ∀ {slot start position id before after}, Following job run.calls slot start position id before after →
      Following job calls slot start position id before after :=
    fun h => ⟨h.atDot, h.useful, h.selected, h.derives, hopened _ h.opened⟩
  refine ⟨fun hd => ?_, hs.pending, fun h => (hasked h).elim hs.opened fun h => h, fun hpoint => ?_, fun hstop => ?_,
    hs.splits, hs.furthest, hs.splits_le⟩
  · obtain ⟨id, before, after, h⟩ := hs.seen hd
    exact ⟨id, before, after, hkeep h.toFollowing, h.entry⟩
  · rcases hreturns hpoint with hold | hnew
    · obtain ⟨slot, id, before, after, heq, h⟩ := hs.returns hold
      exact ⟨slot, id, before, after, heq, hkeep h⟩
    · exact hnew
  · rcases hends hstop with hold | hnew
    · exact ⟨(hs.ends hold).1, hopened _ (hs.ends hold).2⟩
    · exact hnew

theorem grows_withCalls {calls : Calls} (hopened : Sub run.calls.opened calls.opened)
    (hreturns : ∀ key, ∀ point ∈ run.calls.returns.get key, point ∈ calls.returns.get key)
    (hends : ∀ key, ∀ stop ∈ run.calls.ends.get key, stop ∈ calls.ends.get key) : Grows run { run with calls } :=
  ⟨⟨Sub.refl _, hopened, hreturns, hends, fun _ _ h => h, Nat.le_refl _⟩, fun _ h => h, fun _ h => .inl h, rfl, rfl⟩

theorem call_of_closed (h : (A, position) ∉ run.calls.opened) :
    run.call job A slot start position = startRules job A position { run with
      calls := ⟨run.calls.opened.insert (A, position), run.calls.returns.add (A, position) (slot, start),
        run.calls.ends⟩ } := by
  simp [call, Calls.isOpen, mt Std.TreeSet.contains_iff_mem.mp h]

theorem call_of_known (h : (A, position) ∈ run.calls.opened)
    (hpoint : (slot, start) ∈ run.calls.returns.get (A, position)) : run.call job A slot start position = run := by
  simp [call, Calls.isOpen, Std.TreeSet.contains_iff_mem.mpr h, Multimap.contains_iff.mpr hpoint]

theorem call_of_open (h : (A, position) ∈ run.calls.opened)
    (hpoint : (slot, start) ∉ run.calls.returns.get (A, position)) :
    run.call job A slot start position = (run.calls.ends.get (A, position)).foldl
      (fun run stop => run.resume job slot start position stop) { run with
        calls := ⟨run.calls.opened, run.calls.returns.add (A, position) (slot, start), run.calls.ends⟩ } := by
  simp [call, Calls.isOpen, Std.TreeSet.contains_iff_mem.mpr h, mt Multimap.contains_iff.mp hpoint]

/-- A caller leaves its return point. -/
theorem Sound.addReturn (hp : job.grammar.Regular) (hs : run.Sound job)
    (hfollowing : Following job run.calls slot start position id before (.nonterminal A :: after))
    {opened : Std.TreeSet Call} (hopened : Sub run.calls.opened opened)
    (hnew : ∀ {B k}, (B, k) ∈ opened → (B, k) ∈ run.calls.opened ∨ (B, k) = (A, position)) :
    Sound job { run with
        calls := ⟨opened, run.calls.returns.add (A, position) (slot + 1, start), run.calls.ends⟩ } ∧
      Grows run { run with
        calls := ⟨opened, run.calls.returns.add (A, position) (slot + 1, start), run.calls.ends⟩ } := by
  refine ⟨hs.withCalls hopened (fun h => (hnew h).imp (fun h => h) fun heq => ?_) (fun hpoint => ?_)
    (fun hstop => .inl hstop), grows_withCalls hopened (fun _ _ h => Multimap.mem_get_add.mpr (.inl h)) fun _ _ h => h⟩
  · cases heq
    exact hfollowing.asks hp hs
  · apply (Multimap.mem_get_add.mp hpoint).imp (fun h => h)
    rintro ⟨heq, rfl⟩
    cases heq
    exact ⟨slot, id, before, after, rfl, hfollowing.atDot, hfollowing.useful, hfollowing.selected, hfollowing.derives,
      hopened _ hfollowing.opened⟩

/-- The run has grown by a call: the call is open and the caller has left its return point. -/
structure Called (job : Job α) (A : Nonterminal) (point : ReturnPoint) (position : Nat) (run run' : Run) : Prop where
  settled : run'.Settled job
  grows : Grows run run'
  opened : (A, position) ∈ run'.calls.opened
  returns : point ∈ run'.calls.returns.get (A, position)

/-- A new caller of an open call is resumed at the ends found so far. -/
theorem Settled.call_open (hp : job.grammar.Regular) (h : run.Settled job)
    (hfollowing : Following job run.calls slot start position id before (.nonterminal A :: after))
    (hopen : (A, position) ∈ run.calls.opened) (hpoint : (slot + 1, start) ∉ run.calls.returns.get (A, position)) :
    Called job A (slot + 1, start) position run (run.call job A (slot + 1) start position) := by
  rw [call_of_open hopen hpoint, ← Array.foldl_toList]
  obtain ⟨hsound, hgrows⟩ := h.sound.addReturn hp hfollowing (Sub.refl _) .inl
  have hends : ∀ stop ∈ (run.calls.ends.get (A, position)).toList,
      (slot + 1, start) ∈ (run.calls.returns.add (A, position) (slot + 1, start)).get (A, position) ∧
        job.grammar.DerivesSpan job.tokens [.nonterminal A] position stop := fun stop hstop =>
    ⟨Multimap.mem_get_add.mpr (.inr ⟨rfl, rfl⟩), (h.sound.ends (Array.mem_toList_iff.mp hstop)).1⟩
  obtain ⟨hsound', hgrows', hcalls, hresumed⟩ :=
    resumeAll_spec hp hsound (fun _ => (slot + 1, start)) (fun stop => stop) hends
  refine ⟨⟨hsound', fun hB hid hselects => ?_, fun {B k point stop} hpoint hstop => ?_⟩, hgrows.trans hgrows', ?_, ?_⟩
  · rw [hcalls] at hB
    exact hgrows'.seen _ (h.started hB hid hselects)
  · rw [hcalls] at hpoint hstop
    cases Multimap.mem_get_add.mp hpoint with
    | inl hold => exact ((h.met hold hstop).mono hgrows.toKeeps).mono hgrows'.toKeeps
    | inr hnew =>
      obtain ⟨heq, rfl⟩ := hnew
      cases heq
      exact hresumed stop (Array.mem_toList_iff.mpr hstop)
  · rw [hcalls]
    exact hopen
  · rw [hcalls]
    exact Multimap.mem_get_add.mpr (.inr ⟨rfl, rfl⟩)

/-- A call that was not open has no ends, and starts its rules. -/
theorem Settled.call_closed (hp : job.grammar.Regular) (h : run.Settled job)
    (hfollowing : Following job run.calls slot start position id before (.nonterminal A :: after))
    (hclosed : (A, position) ∉ run.calls.opened) :
    Called job A (slot + 1, start) position run (run.call job A (slot + 1) start position) := by
  rw [call_of_closed hclosed]
  have hadd : Sub run.calls.opened (run.calls.opened.insert (A, position)) := fun _ h => mem_insert_iff.mpr (.inr h)
  obtain ⟨hsound, hgrows⟩ := h.sound.addReturn hp hfollowing hadd fun hB => (mem_insert_iff.mp hB).symm
  obtain ⟨hsound', hgrows', hcalls, hstarted⟩ := startRules_spec hp hsound (mem_insert_iff.mpr (.inl rfl))
  refine ⟨⟨hsound', fun {B k id} hB hid hselects => ?_, fun {B k point stop} hpoint hstop => ?_⟩,
    hgrows.trans hgrows', ?_, ?_⟩
  · rw [hcalls] at hB
    cases mem_insert_iff.mp hB with
    | inl heq =>
      cases heq
      exact hstarted id hid hselects
    | inr hold => exact hgrows'.seen _ (h.started hold hid hselects)
  · rw [hcalls] at hpoint hstop
    cases Multimap.mem_get_add.mp hpoint with
    | inl hold => exact ((h.met hold hstop).mono hgrows.toKeeps).mono hgrows'.toKeeps
    | inr hnew =>
      obtain ⟨heq, rfl⟩ := hnew
      cases heq
      exact absurd (h.sound.ends hstop).2 hclosed
  · rw [hcalls]
    exact mem_insert_iff.mpr (.inl rfl)
  · rw [hcalls]
    exact Multimap.mem_get_add.mpr (.inr ⟨rfl, rfl⟩)

/-- Calling a nonterminal opens the call and leaves a return point. -/
theorem Settled.call (hp : job.grammar.Regular) (h : run.Settled job)
    (hfollowing : Following job run.calls slot start position id before (.nonterminal A :: after)) :
    Called job A (slot + 1, start) position run (run.call job A (slot + 1) start position) := by
  by_cases hopen : (A, position) ∈ run.calls.opened
  · by_cases hpoint : (slot + 1, start) ∈ run.calls.returns.get (A, position)
    · rw [call_of_known hopen hpoint]
      exact ⟨h, .refl run, hopen, hpoint⟩
    · exact h.call_open hp hfollowing hopen hpoint
  · exact h.call_closed hp hfollowing hopen

/-! ## Finishing a call -/

omit [DecidableEq α] in
theorem finishCall_of_known (h : position ∈ run.calls.ends.get (A, start)) :
    run.finishCall job A start position = run := by
  simp [finishCall, Multimap.contains_iff.mpr h]

omit [DecidableEq α] in
theorem finishCall_of_new (h : position ∉ run.calls.ends.get (A, start)) :
    run.finishCall job A start position = (run.calls.returns.get (A, start)).foldl
      (fun run point => run.resume job point.1 point.2 start position) { run with
        calls := ⟨run.calls.opened, run.calls.returns, run.calls.ends.add (A, start) position⟩ } := by
  simp [finishCall, mt Multimap.contains_iff.mp h]

/-- Finishing a call records its end. -/
theorem Settled.finishCall (hp : job.grammar.Regular) (h : run.Settled job)
    (hderives : job.grammar.DerivesSpan job.tokens [.nonterminal A] start position)
    (hopened : (A, start) ∈ run.calls.opened) :
    (run.finishCall job A start position).Settled job ∧ Grows run (run.finishCall job A start position) ∧
      position ∈ (run.finishCall job A start position).calls.ends.get (A, start) := by
  have hs := h.sound
  by_cases hknown : position ∈ run.calls.ends.get (A, start)
  · rw [finishCall_of_known hknown]
    exact ⟨h, .refl run, hknown⟩
  · rw [finishCall_of_new hknown, ← Array.foldl_toList]
    have hends : ∀ {B k stop}, stop ∈ (run.calls.ends.add (A, start) position).get (B, k) →
        stop ∈ run.calls.ends.get (B, k) ∨
          job.grammar.DerivesSpan job.tokens [.nonterminal B] k stop ∧ (B, k) ∈ run.calls.opened := by
      intro B k stop hstop
      apply (Multimap.mem_get_add.mp hstop).imp (fun h => h)
      rintro ⟨heq, rfl⟩
      cases heq
      exact ⟨hderives, hopened⟩
    have hsound : Sound job { run with
        calls := ⟨run.calls.opened, run.calls.returns, run.calls.ends.add (A, start) position⟩ } :=
      hs.withCalls (Sub.refl _) .inl .inl hends
    have hgrows : Grows run { run with
        calls := ⟨run.calls.opened, run.calls.returns, run.calls.ends.add (A, start) position⟩ } :=
      grows_withCalls (Sub.refl _) (fun _ _ h => h) fun _ _ h => Multimap.mem_get_add.mpr (.inl h)
    -- the callers known so far are resumed at the new end
    obtain ⟨hsound', hgrows', hcalls, hresumed⟩ := resumeAll_spec hp hsound (fun point => point) (fun _ => position)
      fun point hpoint => ⟨Array.mem_toList_iff.mp hpoint, hderives⟩
    refine ⟨⟨hsound', fun hB hid hselects => ?_, fun {B k point stop} hpoint hstop => ?_⟩, hgrows.trans hgrows', ?_⟩
    · rw [hcalls] at hB
      exact hgrows'.seen _ (h.started hB hid hselects)
    · rw [hcalls] at hpoint hstop
      rcases Multimap.mem_get_add.mp hstop with hold | ⟨heq, rfl⟩
      · exact ((h.met hpoint hold).mono hgrows.toKeeps).mono hgrows'.toKeeps
      · cases heq
        exact hresumed point (Array.mem_toList_iff.mpr hpoint)
    · rw [hcalls]
      exact Multimap.mem_get_add.mpr (.inr ⟨rfl, rfl⟩)

/-! ## Following a rule -/

/-- The traces that following a rule leaves. -/
def Followed (job : Job α) (start : Nat) (run : Run) : List Symbol → StateId → Nat → Prop
  | [], slot, position =>
    ((job.grammar.state slot).dot = 0 → run.Recorded job slot start start start) ∧
      position ∈ run.calls.ends.get ((job.grammar.state slot).lhs, start)
  | .terminal t :: rest, slot, position =>
    let stop := position + job.grammar.matchLength t job.tokens position
    0 < job.grammar.matchLength t job.tokens position →
      run.Recorded job (slot + 1) start position stop ∧ stop ≤ run.furthest ∧
        Followed job start run rest (slot + 1) stop
  | .nonterminal A :: _, slot, position =>
    (A, position) ∈ run.calls.opened ∧ (slot + 1, start) ∈ run.calls.returns.get (A, position)

theorem Followed.mono {rest : List Symbol} (h : run.Followed job start rest slot position) (hkeeps : Keeps run run') :
    run'.Followed job start rest slot position := by
  induction rest generalizing slot position with
  | nil => exact ⟨fun hdot => (h.1 hdot).mono hkeeps, hkeeps.ends _ _ h.2⟩
  | cons symbol rest ih =>
    cases symbol with
    | terminal t =>
      intro hpos
      obtain ⟨hrecorded, hle, hrest⟩ := h hpos
      exact ⟨hrecorded.mono hkeeps, Nat.le_trans hle hkeeps.furthest, ih hrest⟩
    | nonterminal A => exact ⟨hkeeps.opened _ h.1, hkeeps.returns _ _ h.2⟩

theorem Settled.recordSplit (hp : job.grammar.Regular) (h : run.Settled job)
    (hdot : job.grammar.AtDot slot id before after) (hid : id ∈ job.grammar.rulesFor (job.grammar.rule id).lhs)
    (hempty : before = [] → after = []) (hsplit : job.grammar.SplitsAt job.tokens before i k j)
    (hj : j ≤ job.tokens.size) : (run.recordSplit job slot i k j).Settled job :=
  h.of_calls_eq (h.sound.recordSplit hp hdot hid hempty hsplit hj) (recordSplit_grows job slot i k j run)
    (calls_recordSplit job slot i k j run)

/-- A terminal reaches a position. -/
theorem Settled.reach (h : run.Settled job) {stop : Nat} (hreaches : job.grammar.Reaches job.tokens stop) :
    Settled job { run with furthest := max run.furthest stop } :=
  ⟨⟨h.sound.seen, h.sound.pending, h.sound.opened, h.sound.returns, h.sound.ends, h.sound.splits,
    h.sound.furthest.max hreaches, h.sound.splits_le⟩, h.started, h.met⟩

theorem grows_reach (run : Run) (stop : Nat) : Grows run { run with furthest := max run.furthest stop } :=
  ⟨⟨Sub.refl _, Sub.refl _, fun _ _ h => h, fun _ _ h => h, fun _ _ h => h, Nat.le_max_left _ _⟩, fun _ h => h,
    fun _ h => .inl h, rfl, rfl⟩

/-- The end of a rule ends the call that started it. -/
theorem Settled.follow_nil (hp : job.grammar.Regular) (h : run.Settled job)
    (hfollowing : Following job run.calls slot start position id before []) :
    (run.follow job start [] slot position).Settled job ∧ Grows run (run.follow job start [] slot position) ∧
      (run.follow job start [] slot position).Followed job start [] slot position := by
  have hdot := hfollowing.atDot
  have hrhs : (job.grammar.rule id).rhs = before := by rw [hdot.rhs_eq, List.append_nil]
  have hderives : job.grammar.DerivesSpan job.tokens [.nonterminal (job.grammar.rule id).lhs] start position :=
    .single (hp.hasRule_of_mem hfollowing.useful) (hrhs ▸ hfollowing.derives)
  simp only [Run.follow, Followed, hdot.lhs_eq hp, hdot.dot_eq hp, beq_iff_eq]
  split
  · rename_i hzero
    have hnil : before = [] := List.length_eq_zero_iff.mp hzero
    subst hnil
    have hgrows := recordSplit_grows job slot start start start run
    have hstart := Nat.le_trans hfollowing.derives.le (hfollowing.reaches hp h.sound).le_size
    have hsettled := h.recordSplit hp hdot hfollowing.useful (fun _ => rfl) (.nothing start) hstart
    obtain ⟨hsettled', hgrows', hend⟩ := hsettled.finishCall hp hderives (hgrows.opened _ hfollowing.opened)
    exact ⟨hsettled', hgrows.trans hgrows', fun _ => (recorded_recordSplit job slot start start start run).mono hgrows'.toKeeps,
      hend⟩
  · rename_i hpos
    obtain ⟨hsettled', hgrows', hend⟩ := h.finishCall hp hderives hfollowing.opened
    exact ⟨hsettled', hgrows', fun hzero => absurd hzero hpos, hend⟩

/-- Following a rule keeps a run settled and leaves its traces. -/
theorem Settled.follow (hp : job.grammar.Regular) {rest : List Symbol} (h : run.Settled job)
    (hfollowing : Following job run.calls slot start position id before rest) :
    (run.follow job start rest slot position).Settled job ∧ Grows run (run.follow job start rest slot position) ∧
      (run.follow job start rest slot position).Followed job start rest slot position := by
  induction rest generalizing run slot position before with
  | nil => exact h.follow_nil hp hfollowing
  | cons symbol rest ih =>
    cases symbol with
    | terminal t =>
      simp only [Run.follow, Followed]
      generalize hlength : job.grammar.matchLength t job.tokens position = length
      split
      · rename_i hzero
        have hzero : length = 0 := by simpa using hzero
        exact ⟨h, .refl run, fun hpos => by omega⟩
      · rename_i hpos
        have hpos : 0 < length := Nat.pos_of_ne_zero (by simpa using hpos)
        have hderives : job.grammar.DerivesSpan job.tokens [.terminal t] position (position + length) := by
          subst hlength
          exact .terminal hpos (.nil _)
        have hstep := hfollowing.step hderives
        have hreaches := hstep.reaches hp h.sound
        have hsettled :=
          h.recordSplit hp hstep.atDot hstep.useful (by simp) (.last hfollowing.derives hderives) hreaches.le_size
        have hgrows := recordSplit_grows job (slot + 1) start position (position + length) run
        have hrecorded := recorded_recordSplit job (slot + 1) start position (position + length) run
        generalize run.recordSplit job (slot + 1) start position (position + length) = recorded
          at hsettled hgrows hrecorded
        have hfurther := grows_reach recorded (position + length)
        have hall := hgrows.trans hfurther
        obtain ⟨hsettled', hgrows', hfollowed⟩ :=
          ih (hsettled.reach hreaches) (hstep.mono hall.toKeeps)
        have hle := Nat.le_trans (Nat.le_max_right recorded.furthest _) hgrows'.furthest
        exact ⟨hsettled', hall.trans hgrows', fun _ =>
          ⟨(hrecorded.mono hfurther.toKeeps).mono hgrows'.toKeeps, hle, hfollowed⟩⟩
    | nonterminal A =>
      simp only [Run.follow]
      have hcalled := h.call hp hfollowing
      exact ⟨hcalled.settled, hcalled.grows, hcalled.opened, hcalled.returns⟩

end ContextFree.Gll.Run
