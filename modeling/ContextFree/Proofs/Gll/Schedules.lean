-- SUMMARY: The order in which descriptors are taken changes nothing that a run by descriptors finds.
import ContextFree.Proofs.Loops
import ContextFree.Proofs.Outcomes

/-!
# Schedules

A schedule takes any pending descriptor at each step. A run that has ended is closed: whatever a descriptor of it leads to
is in it, whichever comes first, the caller or the end of the call. So every run, on its way under any schedule, stays
below every run that has ended under another, and runs that have ended are all the same.
-/
namespace ContextFree.Gll

variable {α : Type} [DecidableEq α] {job : Job α}

namespace Run

variable {run run' last : Run} {d : Descriptor} {A : Nonterminal} {slot : StateId} {i k j start position : Nat}
  {taken : List Descriptor}

/-- Any pending descriptor is taken and processed, and the others are left. -/
def Takes (job : Job α) (run : Run) (d : Descriptor) (run' : Run) : Prop :=
  ∃ before after, run.pending = before ++ d :: after ∧ run' = run.step job d (before ++ after)

/-- The runs that come from the opening by taking these descriptors one after the other. -/
def Schedule (job : Job α) : List Descriptor → Run → Prop :=
  Steps (Takes job) (opening job)

/-! ## Below a run that has ended -/

theorem Keeps.queue (h : Keeps run last) (hd : d ∈ last.seen) : Keeps (run.queue d) last where
  seen d' hd' := (mem_seen_queue.mp hd').elim (fun heq => heq ▸ hd) (h.seen d')
  opened := by rw [calls_queue]; exact h.opened
  returns := by rw [calls_queue]; exact h.returns
  ends := by rw [calls_queue]; exact h.ends
  splits := by rw [splits_queue]; exact h.splits
  furthest := by rw [furthest_queue]; exact h.furthest

omit [DecidableEq α] in
theorem Keeps.recordSplit (h : Keeps run last) (hrecorded : last.Recorded job slot i k j) :
    Keeps (run.recordSplit job slot i k j) last := by
  unfold Run.recordSplit
  dsimp only
  split
  · exact h
  · rename_i hown
    have hpivot : k ∈ last.splits.get (slot, i, j) := hrecorded.resolve_left (by simpa using hown)
    refine ⟨h.seen, h.opened, h.returns, h.ends, fun key pivot hmem => ?_, h.furthest⟩
    rcases Multimap.mem_get_add.mp hmem with hold | ⟨rfl, rfl⟩
    · exact h.splits key pivot hold
    · exact hpivot

omit [DecidableEq α] in
theorem Keeps.resume (h : Keeps run last) (hresumed : last.Resumed job slot i k j) :
    Keeps (run.resume job slot i k j) last :=
  (h.queue hresumed.1).recordSplit hresumed.2

/-- Calls that the later run has as well. -/
theorem Keeps.withCalls {calls : Calls} (h : Keeps run last) (hopened : Sub calls.opened last.calls.opened)
    (hreturns : ∀ key, ∀ point ∈ calls.returns.get key, point ∈ last.calls.returns.get key)
    (hends : ∀ key, ∀ stop ∈ calls.ends.get key, stop ∈ last.calls.ends.get key) : Keeps { run with calls } last :=
  ⟨h.seen, hopened, hreturns, hends, h.splits, h.furthest⟩

theorem mem_get_of_add {κ β : Type} [Ord κ] [Std.TransOrd κ] [Std.LawfulEqOrd κ] [DecidableEq κ] [DecidableEq β]
    {m m' : Multimap κ β} {key : κ} {value : β} (h : ∀ key, ∀ x ∈ m.get key, x ∈ m'.get key) (hnew : value ∈ m'.get key) :
    ∀ key', ∀ x ∈ (m.add key value).get key', x ∈ m'.get key' := by
  intro key' x hx
  rcases Multimap.mem_get_add.mp hx with hold | ⟨rfl, rfl⟩
  · exact h key' x hold
  · exact hnew

theorem Keeps.startRules (h : Keeps run last) (hlast : last.Settled job) (hopened : (A, position) ∈ last.calls.opened) :
    Keeps (run.startRules job A position) last := by
  rw [Run.startRules, ← Array.foldl_toList]
  refine List.foldlRecOn (motive := fun r => Keeps r last) _ _ h fun r hr id hid => ?_
  split
  · rename_i hselects
    exact hr.queue (hlast.started hopened (Array.mem_toList_iff.mp hid) hselects)
  · exact hr

/-- A caller is resumed at ends that the later run has, so the later run has resumed it there, too. -/
theorem Keeps.call (h : Keeps run last) (hlast : last.Settled job) (hopened : (A, position) ∈ last.calls.opened)
    (hpoint : (slot, start) ∈ last.calls.returns.get (A, position)) :
    Keeps (run.call job A slot start position) last := by
  have hreturns := mem_get_of_add h.returns hpoint
  by_cases hopen : (A, position) ∈ run.calls.opened
  · by_cases hknown : (slot, start) ∈ run.calls.returns.get (A, position)
    · rw [call_of_known hopen hknown]
      exact h
    · rw [call_of_open hopen hknown, ← Array.foldl_toList]
      refine List.foldlRecOn (motive := fun r => Keeps r last) _ _ (h.withCalls h.opened hreturns h.ends)
        fun r hr stop hstop => ?_
      exact hr.resume (hlast.met hpoint (h.ends _ stop (Array.mem_toList_iff.mp hstop)))
  · rw [call_of_closed hopen]
    refine Keeps.startRules (h.withCalls (fun call hcall => ?_) hreturns h.ends) hlast hopened
    exact (mem_insert_iff.mp hcall).elim (fun heq => heq ▸ hopened) (h.opened call)

/-- An end resumes callers that the later run has, so the later run has resumed them there, too. -/
theorem Keeps.finishCall (h : Keeps run last) (hlast : last.Settled job)
    (hend : position ∈ last.calls.ends.get (A, start)) : Keeps (run.finishCall job A start position) last := by
  by_cases hknown : position ∈ run.calls.ends.get (A, start)
  · rw [finishCall_of_known hknown]
    exact h
  · rw [finishCall_of_new hknown, ← Array.foldl_toList]
    refine List.foldlRecOn (motive := fun r => Keeps r last) _ _
      (h.withCalls h.opened h.returns (mem_get_of_add h.ends hend)) fun r hr point hpoint => ?_
    exact hr.resume (hlast.met (h.returns _ point (Array.mem_toList_iff.mp hpoint)) hend)

/-- Following a rule leads to nothing but its traces. -/
theorem Keeps.follow {rest : List Symbol} (h : Keeps run last) (hlast : last.Settled job)
    (hfollowed : last.Followed job start rest slot position) :
    Keeps (run.follow job start rest slot position) last := by
  induction rest generalizing run slot position with
  | nil =>
    obtain ⟨hrecorded, hend⟩ := hfollowed
    simp only [Run.follow]
    split
    · rename_i hzero
      exact (h.recordSplit (hrecorded (by simpa using hzero))).finishCall hlast hend
    · exact h.finishCall hlast hend
  | cons symbol rest ih =>
    cases symbol with
    | terminal t =>
      simp only [Run.follow]
      split
      · exact h
      · rename_i hpos
        obtain ⟨hrecorded, hle, hrest⟩ := hfollowed (Nat.pos_of_ne_zero (by simpa using hpos))
        have hrecord := h.recordSplit hrecorded
        exact ih ⟨hrecord.seen, hrecord.opened, hrecord.returns, hrecord.ends, hrecord.splits,
          Nat.max_le.mpr ⟨hrecord.furthest, hle⟩⟩ hrest
    | nonterminal A => exact h.call hlast hfollowed.1 hfollowed.2

/-! ## Schedules -/

theorem Takes.perm (h : Takes job run d run') :
    ∃ pending, run.pending.Perm (d :: pending) ∧ run' = run.step job d pending := by
  obtain ⟨before, after, hpending, rfl⟩ := h
  exact ⟨before ++ after, hpending ▸ List.perm_middle, rfl⟩

theorem Draining.takes (hp : job.grammar.Regular) (h : run.Draining job) (htakes : Takes job run d run') :
    run'.Draining job := by
  obtain ⟨pending, hperm, rfl⟩ := htakes.perm
  exact (h.step hp hperm).1

theorem Schedule.draining (hp : job.grammar.Regular) (h : Schedule job taken run) : run.Draining job :=
  Steps.invariant h (opening_spec hp).1 fun hrun => hrun.takes hp

theorem Keeps.step (hp : job.grammar.Regular) (h : Keeps run last) (hlast : last.Finished job) (hrun : run.Draining job)
    (htakes : Takes job run d run') : Keeps run' last := by
  obtain ⟨pending, hperm, rfl⟩ := htakes.perm
  have hseen : d ∈ run.seen := hrun.sound.pending (hperm.mem_iff.mpr List.mem_cons_self)
  obtain ⟨id, before, after, hqueued⟩ := hrun.sound.seen hseen
  have htaken : Keeps { run with pending, processed := run.processed + 1 } last :=
    ⟨h.seen, h.opened, h.returns, h.ends, h.splits, h.furthest⟩
  rw [Run.step, process_eq hp hqueued.atDot]
  exact htaken.follow hlast.toSettled (hlast.traced d (h.seen d hseen) hqueued.atDot)

/-- A run stays below every run that has ended. -/
theorem Schedule.keeps (hp : job.grammar.Regular) (h : Schedule job taken run) (hlast : last.Finished job) :
    Keeps run last := by
  have hopening : Keeps (opening job) last := by
    refine Keeps.startRules ⟨fun d hd => ?_, fun call hcall => ?_, fun key point hpoint => ?_, fun key stop hstop => ?_,
      fun key pivot hpivot => ?_, Nat.zero_le _⟩ hlast.toSettled hlast.start
    · exact absurd hd Std.TreeSet.not_mem_emptyc
    · rcases mem_insert_iff.mp hcall with rfl | hold
      · exact hlast.start
      · exact absurd hold Std.TreeSet.not_mem_emptyc
    · simp [Calls.openCall] at hpoint
    · simp [Calls.openCall] at hstop
    · simp at hpivot
  refine (Steps.invariant (P := fun r => r.Draining job ∧ Keeps r last) h ⟨(opening_spec hp).1, hopening⟩ ?_).2
  rintro s x s' ⟨hdraining, hkeeps⟩ hstep
  exact ⟨hdraining.takes hp hstep, hkeeps.step hp hlast hdraining hstep⟩

/-- As many descriptors have been taken as were counted. -/
theorem Schedule.processed_eq (hp : job.grammar.Regular) (h : Schedule job taken run) : run.processed = taken.length := by
  induction h with
  | start => exact (opening_spec hp).2.1
  | next hsteps hstep ih =>
    obtain ⟨pending, hperm, rfl⟩ := hstep.perm
    obtain ⟨-, hgrows⟩ := (Schedule.draining hp hsteps).step hp hperm
    rw [hgrows.processed, List.length_append, List.length_singleton, ih]

/-- What has been queued has been taken or is pending. -/
theorem Schedule.covers (hp : job.grammar.Regular) (h : Schedule job taken run) :
    ∀ d ∈ run.seen, d ∈ taken ++ run.pending := by
  induction h with
  | start => exact (opening_spec hp).2.2
  | @next taken s s' d hsteps hstep ih =>
    obtain ⟨pending, hperm, rfl⟩ := hstep.perm
    obtain ⟨-, hgrows⟩ := (Schedule.draining hp hsteps).step hp hperm
    intro d' hd'
    rw [List.append_assoc, List.singleton_append]
    rcases hgrows.queued d' hd' with hold | hnew
    · rcases List.mem_append.mp (ih d' hold) with htaken | hpending
      · exact List.mem_append_left _ htaken
      · rcases List.mem_cons.mp (hperm.mem_iff.mp hpending) with rfl | hrest
        · exact List.mem_append_right _ List.mem_cons_self
        · exact List.mem_append_right _ (List.mem_cons_of_mem _ (hgrows.pending d' hrest))
    · exact List.mem_append_right _ (List.mem_cons_of_mem _ hnew)

/-- Every descriptor that was queued is taken once or pending once. -/
theorem Schedule.lists (hp : job.grammar.Regular) (h : Schedule job taken run) :
    (taken ++ run.pending).Nodup ∧ ∀ d, d ∈ taken ++ run.pending ↔ d ∈ run.seen := by
  have hcounted := (h.draining hp).counted
  have hlists := nodup_of_covers (l := taken ++ run.pending) (fun d hd => h.covers hp d (mem_members.mp hd)) (by
    rw [List.length_append, card_members, ← h.processed_eq hp, hcounted])
  exact ⟨hlists.1, fun d => (hlists.2 d).trans mem_members⟩

theorem Schedule.inSpace (hp : job.grammar.Regular) (h : Schedule job taken run) (hd : d ∈ taken) :
    InSpace job.grammar.states.size job.tokens.size d.rank :=
  (h.draining hp).sound.descriptor_le hp (((h.lists hp).2 d).mp (List.mem_append_left _ hd))

theorem Schedule.length_le (hp : job.grammar.Regular) (h : Schedule job taken run) :
    taken.length ≤ job.grammar.states.size * (job.tokens.size + 1) * (job.tokens.size + 2) / 2 := by
  have hrank : Function.Injective Descriptor.rank := fun d d' heq => by
    cases d; cases d'; simpa [Descriptor.rank] using heq
  rw [← List.length_map Descriptor.rank]
  refine length_le_of_inSpace ((h.lists hp).1.of_append_left.map hrank) fun x hx => ?_
  obtain ⟨d, hd, rfl⟩ := List.mem_map.mp hx
  exact h.inSpace hp hd

/-- Draining is a schedule: the latest descriptor comes first. -/
theorem Schedule.drain (h : Schedule job taken run) (fuel : Nat) (progress : Progress) :
    ∃ more, Schedule job (taken ++ more) (run.drain job fuel progress).2 := by
  induction fuel generalizing taken run progress with
  | zero => exact ⟨[], by rw [List.append_nil]; exact h⟩
  | succ fuel ih =>
    simp only [Run.drain]
    cases hpending : run.pending with
    | nil => exact ⟨[], by rw [List.append_nil]; exact h⟩
    | cons d pending =>
      have hstep : Takes job run d (run.step job d pending) := ⟨[], pending, hpending, rfl⟩
      obtain ⟨more, hmore⟩ := ih (.next h hstep) (progress.tick (run.step job d pending).furthest)
      refine ⟨d :: more, ?_⟩
      rw [List.append_cons]
      exact hmore

/-- Every schedule can be brought to an end. -/
theorem Schedule.exists_end (hp : job.grammar.Regular) (h : Schedule job taken run) :
    ∃ more last, Schedule job (taken ++ more) last ∧ last.pending = [] := by
  let bound := descriptorBound job.grammar.states.size job.tokens.size
  obtain ⟨more, hmore⟩ := h.drain (bound + run.pending.length) (Progress.start .gll job.tokens.size none)
  obtain ⟨-, hnone⟩ := (h.draining hp).drain hp (bound + run.pending.length) (Progress.start .gll job.tokens.size none)
    (Nat.le_add_right _ _)
  exact ⟨more, _, hmore, hnone⟩

/-- The recognizer follows a schedule to its end. -/
theorem exists_schedule_recognize (hp : job.grammar.Regular) (frequency? : Option Nat) :
    ∃ taken, Schedule job taken (recognize job frequency?).2 ∧ (recognize job frequency?).2.pending = [] := by
  have hstart : Schedule job [] (opening job) := .start
  obtain ⟨hopening, hprocessed, -⟩ := opening_spec hp
  have hcounted := hopening.counted
  obtain ⟨-, hnone⟩ := hopening.drain hp (descriptorBound job.grammar.states.size job.tokens.size)
    (Progress.start .gll job.tokens.size frequency?) (by omega)
  obtain ⟨taken, htaken⟩ := hstart.drain (descriptorBound job.grammar.states.size job.tokens.size)
    (Progress.start .gll job.tokens.size frequency?)
  exact ⟨taken, htaken, hnone⟩

/-- Runs that have found the same. -/
structure SameFindings (run run' : Run) : Prop where
  seen : ∀ d, d ∈ run.seen ↔ d ∈ run'.seen
  opened : ∀ call, call ∈ run.calls.opened ↔ call ∈ run'.calls.opened
  returns : ∀ call point, point ∈ run.calls.returns.get call ↔ point ∈ run'.calls.returns.get call
  ends : ∀ call stop, stop ∈ run.calls.ends.get call ↔ stop ∈ run'.calls.ends.get call
  splits : ∀ stretch pivot, pivot ∈ run.splits.get stretch ↔ pivot ∈ run'.splits.get stretch
  furthest : run.furthest = run'.furthest

theorem Keeps.sameFindings (h : Keeps run run') (h' : Keeps run' run) : run.SameFindings run' where
  seen d := ⟨h.seen d, h'.seen d⟩
  opened call := ⟨h.opened call, h'.opened call⟩
  returns call point := ⟨h.returns call point, h'.returns call point⟩
  ends call stop := ⟨h.ends call stop, h'.ends call stop⟩
  splits stretch pivot := ⟨h.splits stretch pivot, h'.splits stretch pivot⟩
  furthest := Nat.le_antisymm h.furthest h'.furthest

/-! ## Outcomes -/

/-- Forests of runs that have ended have the same content. -/
theorem Finished.forests_alike (hp : job.grammar.Regular) (h : run.Finished job) (h' : run'.Finished job) (offset : Nat) :
    Option.Rel Forest.SameContent (outcomeOf job run offset).forest (outcomeOf job run' offset).forest := by
  have haccepted : acceptedEnd? job.config job.tokens.size (run.calls.ends.get (job.grammar.start, 0)) =
      acceptedEnd? job.config job.tokens.size (run'.calls.ends.get (job.grammar.start, 0)) := Option.ext fun stop => by
    rw [h.acceptedEnd?_eq_some_iff hp, h'.acceptedEnd?_eq_some_iff hp]
  simp only [outcomeOf, Option.map_map, ← haccepted]
  cases haccepted? : acceptedEnd? job.config job.tokens.size (run.calls.ends.get (job.grammar.start, 0)) with
  | none => exact .none
  | some stop =>
    obtain ⟨hend, hstop⟩ := acceptedEnd?_spec haccepted?
    obtain ⟨hend', -⟩ := acceptedEnd?_spec (haccepted.symm.trans haccepted?)
    exact .some (Forest.finish_sameContent
      ((h.extract_exact hp hstop hend).sameBelow hp (h'.extract_exact hp hstop hend')))

theorem Finished.outcomes_alike (hp : job.grammar.Regular) (h : run.Finished job) (h' : run'.Finished job) (offset : Nat) :
    (outcomeOf job run offset).Agrees (outcomeOf job run' offset) := by
  obtain ⟨furthest, stop?, hgreatest, hstop, hsuccess, hreports⟩ := h.thorough hp offset
  obtain ⟨furthest', stop?', hgreatest', hstop', hsuccess', hreports'⟩ := h'.thorough hp offset
  obtain rfl : furthest = furthest' := hgreatest.unique hgreatest'
  obtain rfl : stop? = stop?' := Option.ext fun stop => by rw [hstop, hstop']
  exact hreports.agrees hreports' (Bool.eq_iff_iff.mpr (hsuccess.trans hsuccess'.symm))

end Run

/-- Every schedule ends, after no more steps than there can be descriptors. All that have ended have found the same, so
that their outcomes agree, their numbers of work items with them, and their forests have the same content. The recognizer
follows one of them, and what it returns is the outcome of that one. -/
theorem schedules_agree {p : Prepared α} (hp : p.Built) (config : Config) (input : Array α) (offset : Nat) :
    let job : Job α := { grammar := p, config, tokens := input.extract offset input.size }
    (∀ taken run, Run.Schedule job taken run →
      taken.length ≤ p.states.size * (job.tokens.size + 1) * (job.tokens.size + 2) / 2 ∧
      ((∀ d run', ¬ Run.Takes job run d run') → run.pending = []) ∧
      ∃ more last, Run.Schedule job (taken ++ more) last ∧ last.pending = []) ∧
    (∀ taken run taken' run', Run.Schedule job taken run → Run.Schedule job taken' run' →
      run.pending = [] → run'.pending = [] →
      run.SameFindings run' ∧
      (outcomeOf job run offset).Agrees (outcomeOf job run' offset) ∧
      (outcomeOf job run offset).metrics.workItems = (outcomeOf job run' offset).metrics.workItems ∧
      Option.Rel Forest.SameContent (outcomeOf job run offset).forest (outcomeOf job run' offset).forest) ∧
    ∀ frequency?, ∃ taken run, Run.Schedule job taken run ∧ run.pending = [] ∧
      (parse p config frequency? input offset).1 = outcomeOf job run offset := by
  intro job
  have hregular : job.grammar.Regular := hp.regular
  refine ⟨fun taken run h => ⟨h.length_le hregular, fun hstuck => ?_, h.exists_end hregular⟩,
    fun taken run taken' run' h h' hnone hnone' => ?_, fun frequency? => ?_⟩
  · cases hpending : run.pending with
    | nil => rfl
    | cons d pending => exact absurd ⟨[], pending, hpending, rfl⟩ (hstuck d _)
  · have hfinished := (h.draining hregular).finished hnone
    have hfinished' := (h'.draining hregular).finished hnone'
    have hkeeps := h.keeps hregular hfinished'
    have hkeeps' := h'.keeps hregular hfinished
    refine ⟨hkeeps.sameFindings hkeeps', hfinished.outcomes_alike hregular hfinished' offset, ?_,
      hfinished.forests_alike hregular hfinished' offset⟩
    calc run.processed
        = run.seen.size := hfinished.counted
      _ = run'.seen.size := Nat.le_antisymm hkeeps.seen.size_le hkeeps'.seen.size_le
      _ = run'.processed := hfinished'.counted.symm
  · obtain ⟨taken, htaken, hnone⟩ := Run.exists_schedule_recognize hregular frequency?
    exact ⟨taken, _, htaken, hnone, outcome_parse p config frequency? input offset⟩

end ContextFree.Gll

namespace ContextFree.Sample

open Gll (Job Run)

/-- Descriptors taken in the order in which they were queued. -/
def oldestFirst (job : Job Char) : (fuel : Nat) → Run → Run
  | 0,        run => run
  | fuel + 1, run =>
    match run.pending.reverse with
    | []        => run
    | d :: rest => oldestFirst job fuel (run.step job d rest.reverse)

theorem schedule_oldestFirst {job : Job Char} {taken : List Gll.Descriptor} {run : Run} (h : Run.Schedule job taken run)
    (fuel : Nat) : ∃ taken', Run.Schedule job taken' (oldestFirst job fuel run) := by
  induction fuel generalizing taken run with
  | zero => exact ⟨taken, h⟩
  | succ fuel ih =>
    simp only [oldestFirst]
    cases hpending : run.pending.reverse with
    | nil => exact ⟨taken, h⟩
    | cons d rest =>
      refine ih (.next h ⟨rest.reverse, [], ?_, by rw [List.append_nil]⟩)
      rw [← List.reverse_reverse run.pending, hpending, List.reverse_cons]

/-- The sample over two letters, where a prefix counts. -/
def letters : Job Char :=
  { grammar := prepared, config := { prefixParsing := true }, tokens := #['b', 'a', 'a', 'b'].extract 1 4 }

end ContextFree.Sample

namespace ContextFree.Gll

/-- Taken in the order in which they were queued, the descriptors of the sample lead to the same ends of the start symbol in
another order. -/
theorem schedules_agree_sample :
    let run := (recognize Sample.letters none).2
    let run' := Sample.oldestFirst Sample.letters 20 (Run.opening Sample.letters)
    Sample.prepared.Built ∧ run.calls.ends.get (0, 0) = #[0, 1, 2] ∧ run'.calls.ends.get (0, 0) = #[1, 0, 2] ∧
    run.SameFindings run' ∧ (outcomeOf Sample.letters run' 1).metrics.workItems = 20 ∧
    Option.Rel Forest.SameContent (outcomeOf Sample.letters run 1).forest (outcomeOf Sample.letters run' 1).forest := by
  intro run run'
  have hregular : Sample.letters.grammar.Regular := Sample.prepared_built.regular
  have hstart : Run.Schedule Sample.letters [] (Run.opening Sample.letters) := .start
  obtain ⟨taken, htaken, hnone⟩ := Run.exists_schedule_recognize hregular none
  obtain ⟨taken', htaken'⟩ := Sample.schedule_oldestFirst hstart 20
  obtain ⟨-, hagree, -⟩ := schedules_agree Sample.prepared_built { prefixParsing := true } #['b', 'a', 'a', 'b'] 1
  obtain ⟨hfound, -, -, hforests⟩ := hagree taken run taken' run' htaken htaken' hnone (by decide +kernel)
  exact ⟨Sample.prepared_built, by decide +kernel, by decide +kernel, hfound, by decide +kernel, hforests⟩

end ContextFree.Gll
