-- SUMMARY: Between any two descriptors, every caller of a call has been resumed at every end of it, and nothing is listed twice.
import ContextFree.Proofs.Gll.Schedules

/-!
# Meetings of callers and ends

A caller that comes after an end is resumed by its call, an end that comes after a caller resumes it, and a call that is not
open yet has no end to be resumed at. So at no point of a run, whatever its schedule, is there a caller and an end of the
same call that have not met. Return points and ends are listed under open calls only, each once.
-/
namespace ContextFree

/-- Adding a pair to a multimap lists no value of a key twice. -/
theorem Multimap.nodup_get_add {κ β : Type} [Ord κ] [Std.TransOrd κ] [Std.LawfulEqOrd κ] [DecidableEq κ] [DecidableEq β]
    {m : Multimap κ β} (h : ∀ key, (m.get key).toList.Nodup) (key : κ) (value : β) (key' : κ) :
    ((m.add key value).get key').toList.Nodup := by
  rw [get_add]
  split
  · rename_i hnew
    rw [Array.toList_push]
    refine (h key').append (List.nodup_singleton value) (List.disjoint_singleton.mpr fun hmem => ?_)
    exact hnew.2 (Array.mem_toList_iff.mp hmem)
  · exact h key'

namespace Gll

variable {α : Type}

/-- Return points are listed under open calls, and no call lists a return point or an end twice. -/
structure Calls.Listed (c : Calls) : Prop where
  opened : ∀ {call point}, point ∈ c.returns.get call → call ∈ c.opened
  returns : ∀ call, (c.returns.get call).toList.Nodup
  ends : ∀ call, (c.ends.get call).toList.Nodup

/-- A return point under a call that is open, or is opened on this occasion. -/
theorem Calls.Listed.addReturn {c : Calls} (h : c.Listed) {opened : Std.TreeSet Call} (hopened : Sub c.opened opened)
    {call : Call} (hcall : call ∈ opened) (point : ReturnPoint) :
    Calls.Listed ⟨opened, c.returns.add call point, c.ends⟩ where
  opened hpoint := by
    rcases Multimap.mem_get_add.mp hpoint with hold | ⟨rfl, -⟩
    · exact hopened _ (h.opened hold)
    · exact hcall
  returns := Multimap.nodup_get_add h.returns call point
  ends := h.ends

namespace Run

variable {job : Job α} {run : Run} {d : Descriptor} {A : Nonterminal} {slot : StateId}
  {start position : Nat} {taken : List Descriptor}

/-! ## What is listed once -/

@[simp] theorem calls_resume (job : Job α) (slot : StateId) (i k j : Nat) (run : Run) :
    (run.resume job slot i k j).calls = run.calls := by
  rw [resume, calls_recordSplit, calls_queue]

/-- Moves that leave the calls alone do so one after the other. -/
theorem calls_foldl {β : Type} {move : Run → β → Run} (hmove : ∀ run x, (move run x).calls = run.calls) (xs : List β)
    (run : Run) : (xs.foldl move run).calls = run.calls :=
  List.foldlRecOn (motive := fun r => r.calls = run.calls) xs move rfl fun r hr x _ => (hmove r x).trans hr

theorem Listed.finishCall (h : run.calls.Listed) (A : Nonterminal) (start position : Nat) :
    (run.finishCall job A start position).calls.Listed := by
  by_cases hknown : position ∈ run.calls.ends.get (A, start)
  · rw [finishCall_of_known hknown]
    exact h
  · rw [finishCall_of_new hknown, ← Array.foldl_toList, calls_foldl (fun r point => calls_resume job _ _ _ _ r)]
    exact ⟨h.opened, h.returns, Multimap.nodup_get_add h.ends (A, start) position⟩

variable [DecidableEq α]

theorem calls_startRules (job : Job α) (A : Nonterminal) (position : Nat) (run : Run) :
    (run.startRules job A position).calls = run.calls := by
  rw [startRules, ← Array.foldl_toList]
  refine calls_foldl (fun r rule => ?_) _ run
  split
  · exact calls_queue r _
  · rfl

theorem Listed.call (h : run.calls.Listed) (A : Nonterminal) (slot : StateId) (start position : Nat) :
    (run.call job A slot start position).calls.Listed := by
  by_cases hopen : (A, position) ∈ run.calls.opened
  · by_cases hknown : (slot, start) ∈ run.calls.returns.get (A, position)
    · rw [call_of_known hopen hknown]
      exact h
    · rw [call_of_open hopen hknown, ← Array.foldl_toList, calls_foldl (fun r stop => calls_resume job _ _ _ _ r)]
      exact h.addReturn (Sub.refl _) hopen (slot, start)
  · rw [call_of_closed hopen, calls_startRules]
    exact h.addReturn (fun _ hcall => mem_insert_iff.mpr (.inr hcall)) (mem_insert_iff.mpr (.inl rfl)) (slot, start)

theorem Listed.follow {rest : List Symbol} (h : run.calls.Listed) :
    (run.follow job start rest slot position).calls.Listed := by
  induction rest generalizing run slot position with
  | nil =>
    simp only [Run.follow]
    split
    · exact Listed.finishCall (by rwa [calls_recordSplit]) _ _ _
    · exact Listed.finishCall h _ _ _
  | cons symbol rest ih =>
    cases symbol with
    | terminal t =>
      simp only [Run.follow]
      split
      · exact h
      · exact ih (by rwa [calls_recordSplit])
    | nonterminal A => exact Listed.call h A (slot + 1) start position

theorem Schedule.listed (h : Schedule job taken run) : run.calls.Listed := by
  refine Steps.invariant (P := fun r : Run => r.calls.Listed) h ?_ ?_
  · rw [opening, calls_startRules]
    exact ⟨fun hpoint => by simp [Calls.openCall] at hpoint, fun call => by simp [Calls.openCall],
      fun call => by simp [Calls.openCall]⟩
  · rintro s d s' hs ⟨before, after, -, rfl⟩
    exact Listed.follow hs

/-! ## Meetings -/

/-- Every caller of a call has been resumed at every end of it: the descriptor is pending or has been taken, and the split is
recorded unless it is right after the first symbol of a longer rule. Only open calls have callers and ends, and each of
these is listed once. -/
structure Meets (job : Job α) (taken : List Descriptor) (run : Run) : Prop where
  queued : ∀ {A k slot i j}, (slot, i) ∈ run.calls.returns.get (A, k) → j ∈ run.calls.ends.get (A, k) →
    ⟨slot, i, j⟩ ∈ run.pending ∨ ⟨slot, i, j⟩ ∈ taken
  recorded : ∀ {A k slot i j}, (slot, i) ∈ run.calls.returns.get (A, k) → j ∈ run.calls.ends.get (A, k) →
    ¬ ((job.grammar.state slot).dot = 1 ∧ (job.grammar.state slot).isComplete = false) → k ∈ run.splits.get (slot, i, j)
  attached : ∀ {A k slot i}, (slot, i) ∈ run.calls.returns.get (A, k) → (A, k) ∈ run.calls.opened
  ended : ∀ {A k j}, j ∈ run.calls.ends.get (A, k) → (A, k) ∈ run.calls.opened
  returns_nodup : ∀ A k, (run.calls.returns.get (A, k)).toList.Nodup
  ends_nodup : ∀ A k, (run.calls.ends.get (A, k)).toList.Nodup

theorem Schedule.meets (hp : job.grammar.Regular) (h : Schedule job taken run) : run.Meets job taken := by
  have hsettled := (h.draining hp).toSettled
  refine ⟨fun hpoint hstop => ?_, fun hpoint hstop hlater => ?_, fun hpoint => h.listed.opened hpoint,
    fun hstop => (hsettled.sound.ends hstop).2, fun A k => h.listed.returns (A, k), fun A k => h.listed.ends (A, k)⟩
  · have hseen := (hsettled.met hpoint hstop).1
    exact (List.mem_append.mp (((h.lists hp).2 _).mpr hseen)).symm
  · exact (hsettled.met hpoint hstop).2.resolve_left hlater

end Run

variable [DecidableEq α]

/-- At every point of every run, under any schedule, callers and ends have met. The recognizer follows a schedule: after any
number of descriptors it is at such a point, and so it is when it ends. -/
theorem callers_meet_ends {p : Prepared α} (hp : p.Built) (config : Config) (input : Array α) (offset : Nat) :
    let job : Job α := { grammar := p, config, tokens := input.extract offset input.size }
    (∀ taken run, Run.Schedule job taken run → run.Meets job taken) ∧
    (∀ n progress, ∃ taken, Run.Schedule job taken ((Run.opening job).drain job n progress).2) ∧
    ∀ frequency?, (recognize job frequency?).2 =
      ((Run.opening job).drain job (descriptorBound p.states.size job.tokens.size)
        (Progress.start .gll job.tokens.size frequency?)).2 := by
  intro job
  have hregular : job.grammar.Regular := hp.regular
  have hstart : Run.Schedule job [] (Run.opening job) := .start
  refine ⟨fun taken run h => h.meets hregular, fun n progress => ?_, fun frequency? => rfl⟩
  obtain ⟨taken, htaken⟩ := hstart.drain n progress
  exact ⟨taken, htaken⟩

/-- The sample after seven descriptors: the call of `S` at 1 has ended at 2, where its caller is pending with its split. The caller
of `S` at 0 is pending at the end 0 without a split, since it is right after the first symbol of its rule. -/
theorem callers_meet_ends_sample :
    let run := ((Run.opening Sample.letters).drain Sample.letters 7 (Progress.start .gll 3 none)).2
    Sample.prepared.Built ∧ (∃ taken, Run.Schedule Sample.letters taken run ∧ run.Meets Sample.letters taken) ∧
    (2, 0) ∈ run.calls.returns.get (0, 1) ∧ 2 ∈ run.calls.ends.get (0, 1) ∧ ⟨2, 0, 2⟩ ∈ run.pending ∧
    1 ∈ run.splits.get (2, 0, 2) ∧
    (1, 0) ∈ run.calls.returns.get (0, 0) ∧ 0 ∈ run.calls.ends.get (0, 0) ∧ ⟨1, 0, 0⟩ ∈ run.pending ∧
    run.splits.get (1, 0, 0) = #[] := by
  intro run
  obtain ⟨hmeets, hdrain, -⟩ := callers_meet_ends Sample.prepared_built { prefixParsing := true } #['b', 'a', 'a', 'b'] 1
  obtain ⟨taken, htaken⟩ := hdrain 7 (Progress.start .gll 3 none)
  have hpoint : (2, 0) ∈ run.calls.returns.get (0, 1) := by decide +kernel
  have hstop : 2 ∈ run.calls.ends.get (0, 1) := by decide +kernel
  refine ⟨Sample.prepared_built, ⟨taken, htaken, hmeets taken run htaken⟩, hpoint, hstop, by decide +kernel, ?_,
    by decide +kernel, by decide +kernel, by decide +kernel, by decide +kernel⟩
  exact (hmeets taken run htaken).recorded hpoint hstop (by decide +kernel)

end Gll
end ContextFree
