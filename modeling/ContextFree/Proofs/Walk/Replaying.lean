-- SUMMARY: When producing the last tree again gives the same tree and leaves the walker as it was, and a forest where it does not.
import ContextFree.Proofs.Walk.Renumbering
import ContextFree.Proofs.Walk.Steady

/-!
# Replaying

The last tree is produced again by a walk along its choices. The walker remembers by then all that the first walk has learned. Over
a steady forest the second walk goes the same way: it asks the selector nothing, learns nothing and reports the same
events. So the walker stands where it stood, and nobody can tell from later replies whether there was a replay.

Over other forests an escape may be looked for anew with other results. Then the second walk comes to choices in another order,
and the plan does not fit.
-/
namespace ContextFree

variable {α σ : Type}

namespace Tour

variable [DecidableEq α] {f : Forest α} {tokens : Array α} {trimmed : Identity → Prop} {selector : Selector σ}
  {s s' : Tour α σ} {safe : NodeId → Prop} {made rest : List Choice}

/-- A tour in lockstep with another one that remembers what that one does next learns nothing. -/
theorem Sheltered.memory_step (h : s.Sheltered f safe) (hf : f.Exact tokens trimmed) (hshelter : f.Shelter safe)
    (hwithin : s.Within f) (hinstep : InStep made rest s s')
    (halike : (s.step f selector).walk.Alike (s'.step f selector).walk)
    (hgrows : (s.step f selector).walk.memory.Grows s'.walk.memory) :
    (s'.step f selector).walk.memory = s'.walk.memory := by
  rcases step_cases f selector s' with ⟨-, heq⟩ | ⟨id, tasks, -, -, heq⟩ | ⟨id, tasks, htasks', hterminal, heq⟩ |
    ⟨id, family?, tasks, htasks', heq⟩
  · rw [heq]
  · rw [heq]
    rfl
  · have htasks := hinstep.tasks.symm.trans htasks'
    obtain ⟨hid, -⟩ := List.forall_mem_cons.mp (htasks ▸ hwithin.tasks)
    have hsame := hinstep.choose_eq halike htasks hterminal
    rw [step_descend htasks hterminal] at hgrows
    rw [heq]
    exact (hinstep.alike.arrive id).memory_choose hwithin.memory (h.few hf hshelter hid htasks hterminal) hsame hgrows
  · have htasks := hinstep.tasks.symm.trans htasks'
    rw [heq]
    cases family? with
    | none => rfl
    | some i =>
      rw [step_leave htasks] at hgrows
      exact WalkMemory.complete_of_mem (hgrows.productive _ (mem_insert_iff.mpr (.inl rfl)))

end Tour

namespace Walker

variable [DecidableEq α] {f : Forest α} {tokens : Array α} {trimmed : Identity → Prop} {selector : Selector σ}
  {safe : NodeId → Prop} {v w : Walker α σ} {root : NodeId} {plan : List Choice}

namespace Clear

variable {choices : List Choice} (h : v.Clear f selector root plan) (hf : f.Exact tokens trimmed) (hshelter : f.Shelter safe)
  (hroots : f.roots = [root]) (hroot : root < f.size) (hforest : w.forest = f)
  (hgrows : (v.visited root plan).memory.Grows w.memory) (hchoices : choices = (v.visited root plan).trace.reverse)

include h hf hshelter hroots hroot hforest hgrows hchoices

/-- A walk along all choices of a clear walk is in lockstep with it to the end, and asks the selector nothing. -/
theorem inStep (k : Nat) :
    Tour.InStep choices [] ((v.tour root plan).after f selector k) ((w.tour root choices).after f selector k) ∧
      ((v.tour root plan).after f selector (k + 1)).walk.Alike ((w.tour root choices).after f selector (k + 1)).walk ∧
      ((w.tour root choices).after f selector (k + 1)).walk.selector =
        ((w.tour root choices).after f selector k).walk.selector ∧
      ((w.tour root choices).after f selector (k + 1)).walk.notes =
        ((w.tour root choices).after f selector k).walk.notes := by
  obtain ⟨n, hn⟩ := h.reaches hf hroot
  have hstart := inStep_tour (w := w) (hforest.trans h.forest_eq.symm) root plan choices []
  rw [List.append_nil] at hstart
  have hkeep : ∀ e ∈ choices, e.reselect = false := by
    have hkeep := Tour.keep_of_mem_trace (f := f) (s := v.tour root plan) selector rfl n
    rw [hn] at hkeep
    exact fun e he => hkeep e (List.mem_reverse.mp (hchoices ▸ he))
  have hmade : ∀ k, ((v.tour root plan).after f selector k).walk.trace.reverse <+: choices := by
    intro k
    obtain ⟨d, hd⟩ := Tour.reaches_of_halted (s := v.tour root plan) (m := n) (by rw [hn]) k
    have hsuffix := Tour.trace_suffix f selector ((v.tour root plan).after f selector k) d
    rw [hd, hn] at hsuffix
    exact hchoices ▸ List.reverse_prefix.mpr hsuffix
  have hescape : ∀ k, Tour.InStep choices [] ((v.tour root plan).after f selector k)
      ((w.tour root choices).after f selector k) → Tour.EscapesAlike f _ _ := h.escapesAlike hf hshelter hroots hroot hgrows
  have hk := hstart.after hkeep hescape (hmade k)
  exact ⟨hk, (hk.alike_step hkeep (hescape k hk) (hmade (k + 1))).2⟩

/-- On the way the second walk asks nobody and learns nothing. -/
theorem quiet (k : Nat) :
    ((w.tour root choices).after f selector k).walk.memory = w.memory ∧
      ((w.tour root choices).after f selector k).walk.selector = w.selectorMemory ∧
      ((w.tour root choices).after f selector k).walk.notes = #[] := by
  induction k with
  | zero => exact ⟨rfl, rfl, rfl⟩
  | succ k ih =>
    obtain ⟨hmemory, hselector, hnotes⟩ := ih
    obtain ⟨hk, halike, hselector', hnotes'⟩ := h.inStep hf hshelter hroots hroot hforest hgrows hchoices k
    refine ⟨?_, hselector'.trans hselector, hnotes'.trans hnotes⟩
    have hwithin := h.within hroot
    obtain ⟨n, hn⟩ := h.reaches hf hroot
    have hrest := (Tour.reaches_of_halted (s := v.tour root plan) (m := n) (by rw [hn]) (k + 1)).grows
    rw [hn] at hrest
    have hlearned := ((sheltered_tour hf hroots hroot v plan).after hf hshelter hwithin k).memory_step hf hshelter
      (hwithin.reaches hf ⟨k, rfl⟩) hk halike (hmemory ▸ hrest.trans hgrows)
    exact hlearned.trans hmemory

/-- The second walk never comes to an open node. -/
theorem replay_clear : (w.tour root choices).ClearFrom f selector 0 := by
  intro k _ hretraces
  obtain ⟨hk, halike, -⟩ := h.inStep hf hshelter hroots hroot hforest hgrows hchoices k
  exact h.clear k (Nat.zero_le _) (hk.retraces halike hretraces)

/-- The second walk ends as the first one did, and leaves the walker as it was. -/
theorem visited_replay (hselector : w.selector = selector) :
    (v.visited root plan).Alike (w.visited root choices) ∧ (w.visited root choices).memory = w.memory ∧
      (w.visited root choices).selector = w.selectorMemory ∧ (w.visited root choices).notes = #[] := by
  obtain ⟨n, hn⟩ := h.reaches hf hroot
  obtain ⟨hinstep, -⟩ := h.inStep hf hshelter hroots hroot hforest hgrows hchoices n
  have hquiet := h.quiet hf hshelter hroots hroot hforest hgrows hchoices n
  have hwalk : ((w.tour root choices).after f selector n).walk = w.visited root choices := by
    subst hforest hselector
    obtain ⟨n', hn'⟩ := tour_reaches_visited hf hroot choices
    have hhalted : ((w.tour root choices).after w.forest w.selector n).tasks = [] := by rw [hinstep.tasks, hn]
    rw [Tour.eq_of_halted hhalted (by rw [hn']), hn']
  rw [hwalk] at hquiet
  refine ⟨?_, hquiet⟩
  have halike := hinstep.alike
  rwa [hn, hwalk] at halike

end Clear

/-! ## Calls -/

/-- A replay of what a clear walk produced produces it again, without a note, and leaves the walker as it was. -/
theorem Clear.replay_eq (h : v.Clear f selector root plan) (hf : f.Exact tokens trimmed) (hshelter : f.Shelter safe)
    (hroots : f.roots = [root]) (hroot : root < f.size) (hforest : w.forest = f) (hselector : w.selector = selector)
    (hgrows : (v.visited root plan).memory.Grows w.memory)
    (hlast : w.last? = some (0, (v.visited root plan).trace.reverse)) :
    w.replay = ⟨.ok (produce ((v.visited root plan).emit (.endTree (v.visited root plan).madeChoice))), [], w⟩ := by
  obtain ⟨halike, hmemory, hmemory', hnotes⟩ :=
    h.visited_replay hf hshelter hroots hroot hforest hgrows rfl hselector
  have hproduce : produce ((w.visited root (v.visited root plan).trace.reverse).emit
      (.endTree (w.visited root (v.visited root plan).trace.reverse).madeChoice)) =
      produce ((v.visited root plan).emit (.endTree (v.visited root plan).madeChoice)) := by
    simp only [produce, Walk.emit, halike.events, halike.madeChoice, halike.derivation]
  have hlearn : w.learn ((w.visited root (v.visited root plan).trace.reverse).emit
      (.endTree (w.visited root (v.visited root plan).trace.reverse).madeChoice)) = w := by
    simp only [learn, Walk.emit, hmemory, hmemory']
  rw [replay, hlast]
  simp only [walk_eq (hforest.symm ▸ hroots), hproduce, hlearn]
  simp only [Walk.emit, hnotes, Array.toList_empty]

omit [DecidableEq α] in
theorem Reached.call (h : Reached f selector w) (c : Call) : Reached f selector (w.call c).2 := by
  cases c with
  | hasMore => exact h
  | next => exact h.next
  | replay => exact h.replay
  | reset => exact h.reset
  | remaining => exact h

namespace Reached

variable (hf : f.Exact tokens trimmed) (hsteady : f.Steady)

include hf hsteady

theorem walker_replay (h : Reached f selector w) : w.replay.walker = w := by
  obtain ⟨root, hroots, hroot, -⟩ := hf.root
  obtain ⟨safe, hshelter⟩ := hsteady.exists_shelter hf
  have hrecalls := h.recalls hf hshelter hroots hroot
  cases hlast : w.last? with
  | none => rw [Walker.replay, hlast]
  | some last =>
    obtain ⟨first, choices⟩ := last
    obtain ⟨rfl, v, plan, hclear, rfl, hgrows⟩ := hrecalls.last hlast
    rw [hclear.replay_eq hf hshelter hroots hroot (h.lawful hf).forest_eq (h.orderly hf).selector_eq hgrows hlast]

/-- What was produced last is what a replay produces. -/
theorem replay_next (h : Reached f selector w) {produced : Produced α} (hproduced : w.next.result = .ok produced) :
    w.next.walker.replay = ⟨.ok produced, [], w.next.walker⟩ := by
  obtain ⟨root, hroots, hroot, -⟩ := hf.root
  obtain ⟨safe, hshelter⟩ := hsteady.exists_shelter hf
  have hopen := exhausted_of_ok hproduced
  have hlawful := h.lawful hf
  have hclear := (h.recalls hf hshelter hroots hroot).clear hf hshelter hroots hroot hlawful (h.orderly hf)
  obtain ⟨hresult, hnext⟩ := next_cases (hlawful.forest_eq ▸ hroots) (hlawful.root_eq hroots hopen) hopen
  obtain rfl := Except.ok.inj (hproduced.symm.trans hresult)
  have hkept : w.next.walker.memory = (w.visited root w.plan).memory ∧
      w.next.walker.last? = some (0, (w.visited root w.plan).trace.reverse) := by
    rcases hnext with ⟨later, c, earlier, -, -, hnext⟩ | hnext <;> rw [hnext] <;> exact ⟨rfl, rfl⟩
  exact hclear.replay_eq hf hshelter hroots hroot (h.next.lawful hf).forest_eq (h.next.orderly hf).selector_eq
    (hkept.1 ▸ .refl _) hkept.2

/-- Calls for the last tree give it, however many there are. -/
theorem replies_replicate (h : Reached f selector w) {produced : Produced α} (hproduced : w.next.result = .ok produced)
    (n : Nat) :
    w.next.walker.replies (List.replicate n .replay) = List.replicate n (.tree (.ok produced.events) []) := by
  induction n with
  | zero => rfl
  | succ n ih =>
    rw [List.replicate_succ, List.replicate_succ, replies, Walker.call, h.replay_next hf hsteady hproduced, ih]
    rfl

/-- Leaving out a replay leaves out its reply and changes no other one. -/
theorem eraseIdx_replies (h : Reached f selector w) (before after : List Call) :
    (w.replies (before ++ .replay :: after)).eraseIdx before.length = w.replies (before ++ after) := by
  induction before generalizing w with
  | nil =>
    rw [List.nil_append, List.nil_append, replies, List.length_nil, List.eraseIdx_zero, List.tail_cons, Walker.call,
      h.walker_replay hf hsteady]
  | cons c before ih =>
    rw [List.cons_append, List.cons_append, replies, replies, List.length_cons, List.eraseIdx_cons_succ, ih (h.call c)]

end Reached
end Walker

namespace Sample

/-- `S → R X Q P R`, `R → ε | Q | W`, `W → P`, `Q → P`, `P → X` and `X → P | Q | R`. Everything derives nothing, and all but `S` derive each
other. A walk comes to `X` on several paths, and the three families of `X` lead to nodes that may be open. -/
def crossroads : Prepared Char :=
  prepareNamed ["S", "P", "Q", "R", "W", "X"]
    [(0, [.nonterminal 3, .nonterminal 5, .nonterminal 2, .nonterminal 1, .nonterminal 3]), (3, []), (3, [.nonterminal 2]),
      (3, [.nonterminal 4]), (4, [.nonterminal 1]), (2, [.nonterminal 1]), (1, [.nonterminal 5]), (5, [.nonterminal 1]),
      (5, [.nonterminal 2]), (5, [.nonterminal 3])]

end Sample

namespace Recognizer

variable [DecidableEq α] [Quote α]

/-- Over a steady forest, after any calls and whatever the selector answers, a replay leaves the walker as it is. What is produced is
produced again, with the same events and without a note, by as many replays as follow. Leaving out a replay changes no
other reply. A walker that is new or has been reset has nothing to replay. -/
theorem replay_repeats (r : Recognizer α) (hp : r.grammar.Built) (input : Array α) (offset : Nat) {f : Forest α}
    (hf : (r.parseFrom input offset).outcome.forest = some f) (hsteady : f.Steady) (selector : Selector σ) {w : Walker α σ}
    (hw : Walker.Reached f selector w) :
    w.replay.walker = w ∧
    (∀ produced, w.next.result = .ok produced → ∀ n,
      w.next.walker.replies (List.replicate n .replay) = List.replicate n (.tree (.ok produced.events) [])) ∧
    (∀ before after, (w.replies (before ++ .replay :: after)).eraseIdx before.length = w.replies (before ++ after)) ∧
    (Walker.new f selector).replay.reply = .tree (.error .noTreeSelected) [] ∧
    w.reset.replay.reply = .tree (.error .noTreeSelected) [] := by
  obtain ⟨-, -, trimmed, hexact⟩ := r.exists_exact hp input offset hf
  exact ⟨hw.walker_replay hexact hsteady, fun _ hproduced n => hw.replies_replicate hexact hsteady hproduced n,
    hw.eraseIdx_replies hexact hsteady, rfl, rfl⟩

/-- The detour needs escapes and is steady: its third tree is produced again as often as wanted. -/
theorem replay_repeats_detour : ∃ (f : Forest Char) (w : Walker Char Unit) (produced : Walker.Produced Char),
    (parseFrom ⟨Sample.detour, .earley {}, none⟩ #[] 0).outcome.forest = some f ∧ f.isInfinite = true ∧ ¬ f.NeedsNoEscape ∧
    w.produced = 2 ∧ w.next.result = .ok produced ∧
    w.next.walker.replies [.replay, .replay] = [.tree (.ok produced.events) [], .tree (.ok produced.events) []] ∧
    w.next.walker.replay.walker = w.next.walker := by
  have hread : (parseFrom ⟨Sample.detour, .earley {}, none⟩ #[] 0).outcome.forest.map (fun f =>
      let w := (Walker.new f .sequential).after 2
      (f.isInfinite, decide f.NeedsNoEscape, decide f.Steady, w.produced, w.next.result.isOk)) =
      some (true, false, true, 2, true) := by decide +kernel
  obtain ⟨f, hf, hfacts⟩ := Option.map_eq_some_iff.mp hread
  simp only [Prod.mk.injEq, decide_eq_true_eq, decide_eq_false_iff_not] at hfacts
  obtain ⟨hinfinite, hescape, hsteady, hcount, hok⟩ := hfacts
  have hw : Walker.Reached f Selector.sequential ((Walker.new f .sequential).after 2) := .next (.next .new)
  cases hresult : ((Walker.new f .sequential).after 2).next.result with
  | error e => simp [hresult, Except.isOk, Except.toBool] at hok
  | ok produced =>
    have hreplays := replay_repeats ⟨Sample.detour, .earley {}, none⟩ (Sample.built_prepareNamed _ _) #[] 0 hf hsteady
      .sequential hw
    have hreplay := replay_repeats ⟨Sample.detour, .earley {}, none⟩ (Sample.built_prepareNamed _ _) #[] 0 hf hsteady
      .sequential hw.next
    exact ⟨f, _, produced, hf, hinfinite, hescape, hcount, hresult, hreplays.2.1 produced hresult 2, hreplay.1⟩

/-- Over the crossroads, a replay of the third tree produces another tree. The first escape from `X` leads to `P`, which is open when
the walk comes from there. The third walk then escapes by `R`, and later, on another path, by `Q`. Its replay finds `Q`
completed and takes it at the earlier place. -/
theorem replay_differs : Sample.crossroads.Built ∧ ∃ (f : Forest Char) (produced replayed : Walker.Produced Char),
    (parseFrom ⟨Sample.crossroads, .earley {}, none⟩ #[] 0).outcome.forest = some f ∧
    ((Walker.new f .sequential).after 2).next.result = .ok produced ∧
    ((Walker.new f .sequential).after 2).next.walker.replay.result = .ok replayed ∧
    replayed.events ≠ produced.events := by
  have hread : (parseFrom ⟨Sample.crossroads, .earley {}, none⟩ #[] 0).outcome.forest.map (fun f =>
      let w := (Walker.new f .sequential).after 2
      (w.next.result.isOk, w.next.walker.replay.result.isOk,
        decide (w.next.walker.replay.result.toOption.map (·.events) = w.next.result.toOption.map (·.events)))) =
      some (true, true, false) := by decide +kernel
  obtain ⟨f, hf, hfacts⟩ := Option.map_eq_some_iff.mp hread
  simp only [Prod.mk.injEq, decide_eq_false_iff_not] at hfacts
  obtain ⟨hok, hok', hne⟩ := hfacts
  refine ⟨Sample.built_prepareNamed _ _, f, ?_⟩
  cases hproduced : ((Walker.new f .sequential).after 2).next.result with
  | error e => simp [hproduced, Except.isOk, Except.toBool] at hok
  | ok produced =>
    cases hreplayed : ((Walker.new f .sequential).after 2).next.walker.replay.result with
    | error e => simp [hreplayed, Except.isOk, Except.toBool] at hok'
    | ok replayed =>
      refine ⟨produced, replayed, hf, rfl, rfl, fun heq => hne ?_⟩
      rw [hproduced, hreplayed]
      exact congrArg some heq

end Recognizer
end ContextFree
