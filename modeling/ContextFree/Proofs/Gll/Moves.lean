-- SUMMARY: Descriptors, returns, ends and splits of a run all stand for derivations, and the moves keep it so.
import ContextFree.Gll.Run
import ContextFree.Proofs.Exact
import ContextFree.Proofs.Reaching

/-!
# Moves

A run only grows: descriptors, calls, return points, ends and splits are added and never removed. Those that it has stand for
derivations by rules that were asked for. The moves on which calls and returns are built queue a descriptor and record a split; they leave the
calls alone.
-/
namespace ContextFree.Gll

variable {α : Type} {job : Job α}

namespace Run

variable {run run' run'' : Run} {d : Descriptor} {A : Nonterminal} {slot : StateId} {id : RuleId}
  {before after : List Symbol} {symbol : Symbol} {i k j start position : Nat}

/-! ## Growing -/

/-- The later run has all that the earlier one has found. -/
structure Keeps (run run' : Run) : Prop where
  seen : Sub run.seen run'.seen
  opened : Sub run.calls.opened run'.calls.opened
  returns : ∀ key, ∀ point ∈ run.calls.returns.get key, point ∈ run'.calls.returns.get key
  ends : ∀ key, ∀ stop ∈ run.calls.ends.get key, stop ∈ run'.calls.ends.get key
  splits : ∀ key, ∀ pivot ∈ run.splits.get key, pivot ∈ run'.splits.get key
  furthest : run.furthest ≤ run'.furthest

/-- What else is new is queued: it takes one place in both lists, and stays pending. No descriptor is taken. -/
structure Grows (run run' : Run) : Prop extends Keeps run run' where
  pending : ∀ d ∈ run.pending, d ∈ run'.pending
  queued : ∀ d ∈ run'.seen, d ∈ run.seen ∨ d ∈ run'.pending
  balance : run'.seen.size + run.pending.length = run.seen.size + run'.pending.length
  processed : run'.processed = run.processed

theorem Keeps.refl (run : Run) : Keeps run run :=
  ⟨Sub.refl _, Sub.refl _, fun _ _ h => h, fun _ _ h => h, fun _ _ h => h, Nat.le_refl _⟩

theorem Keeps.trans (h : Keeps run run') (h' : Keeps run' run'') : Keeps run run'' where
  seen := h.seen.trans h'.seen
  opened := h.opened.trans h'.opened
  returns key point hpoint := h'.returns key point (h.returns key point hpoint)
  ends key stop hstop := h'.ends key stop (h.ends key stop hstop)
  splits key pivot hpivot := h'.splits key pivot (h.splits key pivot hpivot)
  furthest := Nat.le_trans h.furthest h'.furthest

theorem Grows.refl (run : Run) : Grows run run :=
  ⟨.refl run, fun _ h => h, fun _ h => .inl h, rfl, rfl⟩

theorem Grows.trans (h : Grows run run') (h' : Grows run' run'') : Grows run run'' where
  toKeeps := h.toKeeps.trans h'.toKeeps
  pending d hd := h'.pending d (h.pending d hd)
  queued d hd := (h'.queued d hd).elim (fun hd => (h.queued d hd).imp (fun h => h) (h'.pending d)) .inr
  balance := by
    have := h.balance
    have := h'.balance
    omega
  processed := h'.processed.trans h.processed

theorem queue_of_seen (h : d ∈ run.seen) : run.queue d = run := by
  simp [queue, Std.TreeSet.contains_iff_mem.mpr h]

theorem queue_of_new (h : d ∉ run.seen) :
    run.queue d = { run with seen := run.seen.insert d, pending := d :: run.pending } := by
  simp [queue, mt Std.TreeSet.contains_iff_mem.mp h]

theorem queue_grows (run : Run) (d : Descriptor) : Grows run (run.queue d) := by
  by_cases hd : d ∈ run.seen
  · rw [queue_of_seen hd]
    exact .refl run
  · have hsize : (run.seen.insert d).size = run.seen.size + 1 := by
      rw [Std.TreeSet.size_insert, if_neg (mt Std.TreeSet.contains_iff_mem.mp hd)]
    rw [queue_of_new hd]
    refine ⟨⟨fun _ h => mem_insert_iff.mpr (.inr h), Sub.refl _, fun _ _ h => h, fun _ _ h => h, fun _ _ h => h,
      Nat.le_refl _⟩, fun _ h => List.mem_cons_of_mem d h, fun d' h => ?_, ?_, rfl⟩
    · rcases mem_insert_iff.mp h with rfl | hold
      · exact .inr List.mem_cons_self
      · exact .inl hold
    · simp only [hsize, List.length_cons]
      omega

@[simp] theorem mem_seen_queue {d' : Descriptor} : d' ∈ (run.queue d).seen ↔ d' = d ∨ d' ∈ run.seen := by
  by_cases hd : d ∈ run.seen
  · rw [queue_of_seen hd]
    exact ⟨.inr, fun h => h.elim (fun heq => heq ▸ hd) fun h => h⟩
  · rw [queue_of_new hd]
    exact mem_insert_iff

theorem mem_pending_queue {d' : Descriptor} (h : d' ∈ (run.queue d).pending) : d' = d ∨ d' ∈ run.pending := by
  by_cases hd : d ∈ run.seen
  · rw [queue_of_seen hd] at h
    exact .inr h
  · rw [queue_of_new hd] at h
    exact List.mem_cons.mp h

@[simp] theorem calls_queue (run : Run) (d : Descriptor) : (run.queue d).calls = run.calls := by
  by_cases hd : d ∈ run.seen
  · rw [queue_of_seen hd]
  · rw [queue_of_new hd]

@[simp] theorem splits_queue (run : Run) (d : Descriptor) : (run.queue d).splits = run.splits := by
  by_cases hd : d ∈ run.seen
  · rw [queue_of_seen hd]
  · rw [queue_of_new hd]

@[simp] theorem furthest_queue (run : Run) (d : Descriptor) : (run.queue d).furthest = run.furthest := by
  by_cases hd : d ∈ run.seen
  · rw [queue_of_seen hd]
  · rw [queue_of_new hd]

/-- The split has been recorded, if the symbols before `slot` have a node of their own. -/
def Recorded (job : Job α) (slot : StateId) (i k j : Nat) (run : Run) : Prop :=
  ((job.grammar.state slot).dot = 1 ∧ (job.grammar.state slot).isComplete = false) ∨ k ∈ run.splits.get (slot, i, j)

/-- A caller has been resumed after a symbol from `k` to `j`. -/
def Resumed (job : Job α) (slot : StateId) (i k j : Nat) (run : Run) : Prop :=
  ⟨slot, i, j⟩ ∈ run.seen ∧ run.Recorded job slot i k j

theorem Recorded.mono (h : run.Recorded job slot i k j) (hkeeps : Keeps run run') : run'.Recorded job slot i k j :=
  h.imp (fun h => h) (hkeeps.splits _ k)

theorem Resumed.mono (h : run.Resumed job slot i k j) (hkeeps : Keeps run run') : run'.Resumed job slot i k j :=
  ⟨hkeeps.seen _ h.1, h.2.mono hkeeps⟩

/-- The split of symbols that have a node of their own is among the splits. -/
theorem Recorded.mem_splits (hp : job.grammar.Regular) (h : run.Recorded job slot i k j)
    (hdot : job.grammar.AtDot slot id before after) (hown : HasOwnNode before after) :
    k ∈ run.splits.get (slot, i, j) := by
  apply h.resolve_left
  rintro ⟨hone, hincomplete⟩
  rw [hdot.dot_eq hp] at hone
  rw [hdot.isComplete_eq hp] at hincomplete
  rcases hown with rfl | htwo
  · cases hincomplete
  · omega

theorem recordSplit_grows (job : Job α) (slot : StateId) (i k j : Nat) (run : Run) :
    Grows run (run.recordSplit job slot i k j) := by
  unfold recordSplit
  dsimp only
  split
  · exact .refl run
  · exact ⟨⟨Sub.refl _, Sub.refl _, fun _ _ h => h, fun _ _ h => h, fun _ _ h => Multimap.mem_get_add.mpr (.inl h),
      Nat.le_refl _⟩, fun _ h => h, fun _ h => .inl h, rfl, rfl⟩

theorem recorded_recordSplit (job : Job α) (slot : StateId) (i k j : Nat) (run : Run) :
    (run.recordSplit job slot i k j).Recorded job slot i k j := by
  unfold recordSplit
  dsimp only
  split
  · rename_i hsingle
    exact .inl (by simpa using hsingle)
  · exact .inr (Multimap.mem_get_add.mpr (.inr ⟨rfl, rfl⟩))

@[simp] theorem calls_recordSplit (job : Job α) (slot : StateId) (i k j : Nat) (run : Run) :
    (run.recordSplit job slot i k j).calls = run.calls := by
  unfold recordSplit
  dsimp only
  split <;> rfl

/-! ## Soundness -/

variable [DecidableEq α]

/-- The nonterminal is asked for at the position by rules that the tests let start. -/
def Asked (job : Job α) (A : Nonterminal) (position : Nat) : Prop :=
  job.grammar.Asks job.tokens
    (fun rule i => ∃ id ∈ job.grammar.rulesFor rule.lhs, job.grammar.rule id = rule ∧ selects job id rule.lhs i = true)
    A position

/-- A rule that was started at `start` by a call derives it up to `position` with the symbols before its dot. -/
structure Following (job : Job α) (calls : Calls) (slot : StateId) (start position : Nat) (id : RuleId)
    (before after : List Symbol) : Prop where
  atDot : job.grammar.AtDot slot id before after
  useful : id ∈ job.grammar.rulesFor (job.grammar.rule id).lhs
  selected : selects job id (job.grammar.rule id).lhs start = true
  derives : job.grammar.DerivesSpan job.tokens before start position
  opened : ((job.grammar.rule id).lhs, start) ∈ calls.opened

/-- A descriptor follows a rule from its start, or from behind a nonterminal: terminals are passed on the way. -/
structure Queued (job : Job α) (calls : Calls) (d : Descriptor) (id : RuleId) (before after : List Symbol) : Prop
    extends Following job calls d.slot d.start d.position id before after where
  entry : ∀ t, before.getLast? ≠ some (.terminal t)

/-- Everything in the run is derived and was asked for. -/
structure Sound (job : Job α) (run : Run) : Prop where
  seen : ∀ {d}, d ∈ run.seen → ∃ id before after, Queued job run.calls d id before after
  pending : ∀ {d}, d ∈ run.pending → d ∈ run.seen
  opened : ∀ {A k}, (A, k) ∈ run.calls.opened → Asked job A k
  returns : ∀ {A k point}, point ∈ run.calls.returns.get (A, k) → ∃ slot id before after, point.1 = slot + 1 ∧
    Following job run.calls slot point.2 k id before (.nonterminal A :: after)
  ends : ∀ {A k stop}, stop ∈ run.calls.ends.get (A, k) →
    job.grammar.DerivesSpan job.tokens [.nonterminal A] k stop ∧ (A, k) ∈ run.calls.opened
  splits : ∀ {slot i j k}, k ∈ run.splits.get (slot, i, j) → ∃ id before after, job.grammar.AtDot slot id before after ∧
    id ∈ job.grammar.rulesFor (job.grammar.rule id).lhs ∧ HasOwnNode before after ∧
    job.grammar.SplitsAt job.tokens before i k j
  furthest : job.grammar.Reaches job.tokens run.furthest
  splits_le : ∀ {slot i j k}, k ∈ run.splits.get (slot, i, j) → j ≤ job.tokens.size

theorem Following.mono (h : Following job run.calls slot start position id before after) (hkeeps : Keeps run run') :
    Following job run'.calls slot start position id before after :=
  ⟨h.atDot, h.useful, h.selected, h.derives, hkeeps.opened _ h.opened⟩

theorem Following.step (h : Following job run.calls slot start position id before (symbol :: after))
    (hsymbol : job.grammar.DerivesSpan job.tokens [symbol] position j) :
    Following job run.calls (slot + 1) start j id (before ++ [symbol]) after :=
  ⟨h.atDot.step, h.useful, h.selected, h.derives.append hsymbol, h.opened⟩

/-- A rule that is followed asks for the nonterminal after its dot. -/
theorem Following.asks (hp : job.grammar.Regular) (hs : run.Sound job)
    (h : Following job run.calls slot start position id before (.nonterminal A :: after)) : Asked job A position :=
  (hs.opened h.opened).inner hp h.useful h.atDot.rhs_eq ⟨id, h.useful, rfl, h.selected⟩ h.derives

/-- A rule that is followed has reached its position. -/
theorem Following.reaches (hp : job.grammar.Regular) (hs : run.Sound job)
    (h : Following job run.calls slot start position id before after) : job.grammar.Reaches job.tokens position :=
  hp.reaches (hs.opened h.opened) h.useful h.atDot.rhs_eq h.derives

theorem Sound.queue (hs : run.Sound job) (h : Queued job run.calls d id before after) :
    (run.queue d).Sound job := by
  have hgrows := queue_grows run d
  refine ⟨fun {d'} hd' => ?_, fun {d'} hd' => ?_, fun {A k} hopened => ?_, fun {A k point} hpoint => ?_,
    fun {A k stop} hstop => ?_, fun {slot i j k} hpivot => ?_, ?_, fun {slot i j k} hpivot => ?_⟩
  · rcases mem_seen_queue.mp hd' with rfl | hold
    · exact ⟨id, before, after, h.mono hgrows.toKeeps, h.entry⟩
    · obtain ⟨id', before', after', h'⟩ := hs.seen hold
      exact ⟨id', before', after', h'.mono hgrows.toKeeps, h'.entry⟩
  · exact mem_seen_queue.mpr ((mem_pending_queue hd').imp (fun h => h) hs.pending)
  · rw [calls_queue] at hopened
    exact hs.opened hopened
  · rw [calls_queue] at hpoint
    obtain ⟨slot, id', before', after', heq, h'⟩ := hs.returns hpoint
    exact ⟨slot, id', before', after', heq, h'.mono hgrows.toKeeps⟩
  · rw [calls_queue] at hstop ⊢
    exact hs.ends hstop
  · rw [splits_queue] at hpivot
    exact hs.splits hpivot
  · rw [furthest_queue]
    exact hs.furthest
  · rw [splits_queue] at hpivot
    exact hs.splits_le hpivot

theorem Sound.recordSplit (hp : job.grammar.Regular) (hs : run.Sound job) (hdot : job.grammar.AtDot slot id before after)
    (hid : id ∈ job.grammar.rulesFor (job.grammar.rule id).lhs) (hempty : before = [] → after = [])
    (hsplit : job.grammar.SplitsAt job.tokens before i k j) (hj : j ≤ job.tokens.size) :
    (run.recordSplit job slot i k j).Sound job := by
  unfold Run.recordSplit
  dsimp only
  split
  · exact hs
  · rename_i hown
    have hown : HasOwnNode before after := by
      rw [hdot.dot_eq hp, hdot.isComplete_eq hp] at hown
      match before, after with
      | _, []               => exact .inl rfl
      | [], _ :: _          => exact absurd (hempty rfl) (List.cons_ne_nil _ _)
      | [_], _ :: _         => simp at hown
      | _ :: _ :: _, _ :: _ => exact .inr (by simp)
    refine ⟨hs.seen, hs.pending, hs.opened, hs.returns, hs.ends, fun {slot' i' j' k'} hpivot => ?_, hs.furthest,
      fun {slot' i' j' k'} hpivot => ?_⟩
    · rcases Multimap.mem_get_add.mp hpivot with hold | ⟨heq, rfl⟩
      · exact hs.splits hold
      · cases heq
        exact ⟨id, before, after, hdot, hid, hown, hsplit⟩
    · rcases Multimap.mem_get_add.mp hpivot with hold | ⟨heq, rfl⟩
      · exact hs.splits_le hold
      · cases heq
        exact hj

/-- Resuming a caller after a nonterminal from `k` to `j`. -/
theorem resume_spec (hp : job.grammar.Regular) (hs : run.Sound job)
    (h : Following job run.calls slot i k id before (.nonterminal A :: after))
    (hsymbol : job.grammar.DerivesSpan job.tokens [.nonterminal A] k j) :
    (run.resume job (slot + 1) i k j).Sound job ∧ Grows run (run.resume job (slot + 1) i k j) ∧
      (run.resume job (slot + 1) i k j).calls = run.calls ∧
      (run.resume job (slot + 1) i k j).Resumed job (slot + 1) i k j := by
  have hqueue := queue_grows run ⟨slot + 1, i, j⟩
  have hrecord := recordSplit_grows job (slot + 1) i k j (run.queue ⟨slot + 1, i, j⟩)
  have hsound : (run.queue ⟨slot + 1, i, j⟩).Sound job := hs.queue ⟨h.step hsymbol, by simp⟩
  have hj : j ≤ job.tokens.size := hsymbol.stop_le (h.reaches hp hs).le_size
  refine ⟨hsound.recordSplit hp h.atDot.step h.useful (by simp) (.last h.derives hsymbol) hj, hqueue.trans hrecord, ?_,
    hrecord.seen _ (mem_seen_queue.mpr (.inl rfl)), recorded_recordSplit job (slot + 1) i k j _⟩
  rw [resume, calls_recordSplit, calls_queue]

end Run
end ContextFree.Gll
