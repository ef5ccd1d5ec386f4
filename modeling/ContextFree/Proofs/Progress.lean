-- SUMMARY: Every parse that is monitored reports its progress once per block of positions.
import ContextFree.Proofs.Earley.Passes
import ContextFree.Proofs.Gll.Schedules
import ContextFree.Proofs.Progress.Blocks
import ContextFree.Proofs.WriteOnce

/-!
# Progress reports

One method ticks at each position that it visits, before it closes the set there. The other one ticks after each descriptor, at
the furthest position that a terminal has reached so far; many descriptors leave that as it is. Both tick inside the
tokens, and nothing else that they note is a report.
-/
namespace ContextFree

variable {frequency total : Nat} {ticks : List Nat} {algorithm : Algorithm} {p : Progress}

/-! ## Recognition by item sets -/

namespace Earley

variable {α : Type} [DecidableEq α] {job : Job α} {position : Nat} {run run' : Run} {positions : List Nat}

/-- Close the set at a position and, unless it is the last one, scan it. Gives the position to visit next, if there is one. -/
def Run.visit (job : Job α) (position : Nat) (run : Run) : Option Nat × Run :=
  let run := run.close job position
  if position == job.tokens.size then (none, run)
  else
    let run := run.scan job position
    (run.nextPosition? position, run)

/-- What recognition comes to by visiting these positions one after the other, with the position to visit next. -/
def Visited (job : Job α) : List Nat → Option Nat × Run → Prop :=
  Steps (fun s position s' => s.1 = some position ∧ s' = s.2.visit job position)
    (some 0, (Run.init job).predict job job.grammar.start 0)

/-- A visit passes through all items of the set. -/
theorem Passes.exists_visit (hp : job.grammar.Regular) {taken : List (Option Spot)} {next : Nat}
    (h : Passes job taken ⟨position, 0, ∅, run⟩) (hvisit : run.visit job position = (some next, run')) :
    ∃ taken', Passes job taken' ⟨next, 0, ∅, run'⟩ := by
  obtain ⟨more, ⟨position', cursor, empties, closed⟩, hmore, hposition, hnone, hclosed⟩ :=
    h.exists_closed hp (job.grammar.states.size * (position + 1)) (by dsimp only; omega)
  dsimp only at hposition hnone hclosed
  obtain rfl := hposition.symm
  simp only [Run.visit, Run.close, ← hclosed] at hvisit
  split at hvisit
  · cases hvisit
  · rename_i hsize
    obtain ⟨hnext, rfl⟩ := Prod.mk.inj hvisit
    refine ⟨taken ++ more ++ [none], .next hmore ?_⟩
    simp only [Pass.next?, hnone, if_neg hsize, hnext, Option.map_some]

theorem Visited.exists_passes (hp : job.grammar.Regular) (h : Visited job positions (some position, run)) :
    ∃ taken, Passes job taken ⟨position, 0, ∅, run⟩ := by
  refine Steps.invariant (P := fun s => ∀ position, s.1 = some position → ∃ taken, Passes job taken ⟨position, 0, ∅, s.2⟩)
    h ?_ ?_ position rfl
  · rintro _ ⟨⟩
    exact ⟨[], .start⟩
  · rintro ⟨next?, run⟩ position s' hpasses ⟨hposition, rfl⟩ next hnext
    obtain ⟨taken, htaken⟩ := hpasses position hposition
    exact htaken.exists_visit hp (Prod.ext hnext rfl)

theorem Visited.le_size (hp : job.grammar.Regular) (h : Visited job positions (some position, run)) :
    position ≤ job.tokens.size := by
  obtain ⟨taken, htaken⟩ := h.exists_passes hp
  exact (htaken.ready hp).le_size

theorem Visited.forall_le_size (hp : job.grammar.Regular) {s : Option Nat × Run} (h : Visited job positions s) :
    ∀ x ∈ positions, x ≤ job.tokens.size := by
  refine Steps.forall_mem h fun {taken s x s'} hsteps hstep => ?_
  obtain ⟨next?, run⟩ := s
  obtain ⟨rfl, -⟩ := hstep
  exact Visited.le_size hp hsteps

/-- Recognition ticks at each position that it visits. -/
theorem Visited.recognizeFrom (hp : job.grammar.Regular) (fuel : Nat) (checkpoint? : Option Nat)
    (h : Visited job positions (some position, run)) (hticked : p.Ticked algorithm frequency total positions)
    (hfuel : job.tokens.size < position + fuel) :
    ∃ positions', Visited job positions' (none, (recognizeFrom job fuel position checkpoint? p run).run) ∧
      (recognizeFrom job fuel position checkpoint? p run).progress.Ticked algorithm frequency total positions' := by
  induction fuel generalizing positions position checkpoint? p run with
  | zero =>
    have hle := h.le_size hp
    omega
  | succ fuel ih =>
    have hvisited : Visited job (positions ++ [position]) (run.visit job position) := .next h ⟨rfl, rfl⟩
    -- A checkpoint is noted, but it is not a report.
    have hnoted : ∀ reached : Bool, Progress.Ticked algorithm frequency total (positions ++ [position])
        (if reached then (p.tick position).note (.checkpoint (job.offset + position)) else p.tick position) := by
      intro reached
      split
      · exact (hticked.tick position).note rfl
      · exact hticked.tick position
    simp only [Earley.recognizeFrom]
    by_cases hsize : (position == job.tokens.size) = true
    · simp only [Run.visit, if_pos hsize] at hvisited ⊢
      exact ⟨_, hvisited, hnoted _⟩
    · simp only [Run.visit, if_neg hsize] at hvisited ⊢
      cases hnext : ((run.close job position).scan job position).nextPosition? position with
      | none =>
        rw [hnext] at hvisited
        exact ⟨_, hvisited, hnoted _⟩
      | some next =>
        rw [hnext] at hvisited
        have hlt : position < next := (List.mem_range'_1.mp (List.mem_of_find?_eq_some hnext)).1
        exact ih _ hvisited (hnoted _) (by omega)

/-- Recognition visits positions to the end, and its counter has ticked at each of them. -/
theorem Visited.exists_recognize (hp : job.grammar.Regular) (frequency : Nat) :
    ∃ positions, ∃ progress : Progress, Visited job positions (none, (recognize job (some frequency)).run) ∧
      progress.Ticked .earley frequency job.tokens.size positions ∧
      (recognize job (some frequency)).progress = progress.finish := by
  have hstart : Visited job [] (some 0, (Run.init job).predict job job.grammar.start 0) := .start
  obtain ⟨positions, hvisited, hticked⟩ := hstart.recognizeFrom hp (job.tokens.size + 1) none
    (Progress.ticked_start .earley frequency job.tokens.size) (by omega)
  exact ⟨positions, _, hvisited, hticked, rfl⟩

end Earley

/-! ## Recognition by descriptors -/

namespace Gll

variable {α : Type} [DecidableEq α] {job : Job α} {run : Run} {furthest : List Nat}

/-- The latest pending descriptor is taken, and then this is the furthest position. -/
def Run.Comes (job : Job α) (run : Run) (x : Nat) (run' : Run) : Prop :=
  ∃ d pending, run.pending = d :: pending ∧ run' = run.step job d pending ∧ x = run'.furthest

/-- What recognition comes to by taking descriptors, with the furthest position after each of them. -/
def Advanced (job : Job α) : List Nat → Run → Prop :=
  Steps (Run.Comes job) (Run.opening job)

theorem Advanced.draining (hp : job.grammar.Regular) (h : Advanced job furthest run) : run.Draining job := by
  refine Steps.invariant h (Run.opening_spec hp).1 fun {run x run'} hrun hcomes => ?_
  obtain ⟨d, pending, hpending, rfl, -⟩ := hcomes
  exact (hrun.step hp (.of_eq hpending)).1

theorem Advanced.forall_le_size (hp : job.grammar.Regular) (h : Advanced job furthest run) :
    ∀ x ∈ furthest, x ≤ job.tokens.size := by
  refine Steps.forall_mem h fun {taken s x s'} hsteps hcomes => ?_
  have hnext : Advanced job (taken ++ [x]) s' := .next hsteps hcomes
  obtain ⟨d, pending, -, -, rfl⟩ := hcomes
  exact (hnext.draining hp).sound.furthest.le_size

/-- Recognition ticks after each descriptor, at the furthest position. -/
theorem Advanced.drain (h : Advanced job furthest run) (hticked : p.Ticked algorithm frequency total furthest) (fuel : Nat) :
    ∃ furthest', Advanced job furthest' (run.drain job fuel p).2 ∧
      (run.drain job fuel p).1.Ticked algorithm frequency total furthest' := by
  induction fuel generalizing furthest run p with
  | zero => exact ⟨furthest, h, hticked⟩
  | succ fuel ih =>
    simp only [Run.drain]
    cases hpending : run.pending with
    | nil => exact ⟨furthest, h, hticked⟩
    | cons d pending =>
      have hcomes : Run.Comes job run (run.step job d pending).furthest (run.step job d pending) :=
        ⟨d, pending, hpending, rfl, rfl⟩
      exact ih (.next h hcomes) (hticked.tick _)

/-- Recognition takes descriptors to the end, and its counter has ticked after each of them. -/
theorem Advanced.exists_recognize (hp : job.grammar.Regular) (frequency : Nat) :
    ∃ furthest, ∃ progress : Progress, Advanced job furthest (recognize job (some frequency)).2 ∧
      (recognize job (some frequency)).2.pending = [] ∧
      progress.Ticked .gll frequency job.tokens.size furthest ∧ (recognize job (some frequency)).1 = progress.finish := by
  have hstart : Advanced job [] (Run.opening job) := .start
  obtain ⟨furthest, hadvanced, hticked⟩ := hstart.drain (Progress.ticked_start .gll frequency job.tokens.size)
    (descriptorBound job.grammar.states.size job.tokens.size)
  obtain ⟨-, -, hnone⟩ := Run.exists_schedule_recognize hp (some frequency)
  exact ⟨furthest, _, hadvanced, hnone, hticked, rfl⟩

end Gll

/-! ## What a monitor hears -/

variable {α : Type} [DecidableEq α] [Quote α]

/-- Everything that was reported on the way to an answer, whether it is among the notes or recorded. -/
def Answer.heard {α : Type} (a : Answer α) : List Report :=
  a.notes.filterMap Note.report? ++ a.recorded.getD []

omit [DecidableEq α] [Quote α] in
/-- No other note of a parse is a report. -/
theorem reports_parsed {notes : List Note} {verdict : Note} (hverdict : verdict.report? = none) (f? : Option (Forest α))
    (created : Nat) : (notes ++ [verdict] ++ (f?.map (·.finishedNote created)).toList).filterMap Note.report? =
      notes.filterMap Note.report? := by
  have hforest : (f?.map (·.finishedNote created)).toList.filterMap Note.report? = [] := by
    cases f? <;> rfl
  simp [hverdict, hforest]

theorem Earley.reports_parse (p : Prepared α) (config : Config) (frequency? : Option Nat) (input : Array α) (offset : Nat) :
    (parse p config frequency? input offset).2.filterMap Note.report? =
      (recognize ⟨p, config, input.extract offset input.size, offset⟩ frequency?).progress.reports := by
  refine reports_parsed ?_ _ _
  split <;> rfl

omit [Quote α] in
theorem Gll.reports_parse (p : Prepared α) (config : Config) (frequency? : Option Nat) (input : Array α) (offset : Nat) :
    (parse p config frequency? input offset).2.filterMap Note.report? =
      (recognize ⟨p, config, input.extract offset input.size⟩ frequency?).1.reports :=
  reports_parsed rfl _ _

/-- Of a run over so many tokens that ticked at these positions, its beginning is heard first and its end last, and between them
the positions that were reported, which are those that come to a new block. -/
structure Blockwise (algorithm : Algorithm) (frequency total : Nat) (ticks reported : List Nat) (heard : List Report) :
    Prop where
  heard_eq : heard =
    .starting algorithm total :: (reported.map (.progress algorithm · total) ++ [.finished algorithm])
  silent : frequency = 0 → reported = []
  increasing : reported.Pairwise (· < ·)
  le_total : ∀ x ∈ reported, x ≤ total
  exact : 0 < frequency → reported = newBlocks frequency ticks

/-- What is heard tells what was reported. -/
theorem Blockwise.reported_eq {reported values : List Nat} (h : Blockwise algorithm frequency total ticks reported
    (.starting algorithm total :: (values.map (.progress algorithm · total) ++ [.finished algorithm]))) :
    reported = values := by
  have hvalues := List.append_cancel_right (List.cons.inj h.heard_eq).2
  have hinjective : Function.Injective fun x => Report.progress algorithm x total := by
    intro x y heq
    cases heq
    rfl
  exact (hinjective.list_map hvalues).symm

theorem Progress.Ticked.blockwise (h : p.Ticked algorithm frequency total ticks) (hle : ∀ x ∈ ticks, x ≤ total) :
    Blockwise algorithm frequency total ticks (newBlocks frequency ticks) p.finish.reports where
  heard_eq := h.reports_finish
  silent hzero := by rw [hzero, newBlocks_zero]
  increasing := pairwise_newBlocks frequency ticks
  le_total x hx := hle x (mem_of_mem_newBlocks hx)
  exact _ := rfl

namespace Sample

/-- `S → 'a'… 'b' S | 'a'… 'b'`, where the letters `a` are taken all at once. -/
def stretches : Prepared Char :=
  let g := Grammar.after [.nonterminal "S", .terminal ⟨"a", .exact 'a', true⟩, .terminal ⟨"b", .exact 'b', false⟩,
    .declare 0 [⟨.terminal 0, false⟩, ⟨.terminal 1, false⟩, ⟨.nonterminal 0, false⟩],
    .declare 0 [⟨.terminal 0, false⟩, ⟨.terminal 1, false⟩]]
  match Prepared.ofGrammar g 0 with
  | .ok p    => p
  | .error _ => prepared

theorem built_stretches : stretches.Built := by
  unfold stretches
  dsimp only
  split
  · rename_i hok
    exact ⟨_, 0, Grammar.built_after _, hok⟩
  · exact prepared_built

end Sample

namespace Recognizer

/-- A recording takes the reports out of the notes, and no monitor hears anything twice. -/
theorem heard_parseFrom (r : Recognizer α) (input : Array α) (offset : Nat) :
    (r.parseFrom input offset).heard =
      match r.method with
      | .earley config =>
        (Earley.parse r.grammar config (r.monitor.map Monitor.frequency) input offset).2.filterMap Note.report?
      | .gll config =>
        (Gll.parse r.grammar config (r.monitor.map Monitor.frequency) input offset).2.filterMap Note.report? := by
  have hrest : ∀ notes : List Note, (notes.filter (·.report?.isNone)).filterMap Note.report? = [] := by
    intro notes
    simp [List.filterMap_eq_nil_iff]
  obtain ⟨grammar, method, monitor⟩ := r
  cases method with
  | earley config =>
    rcases monitor with _ | _ | _
    · exact List.append_nil _
    · exact List.append_nil _
    · exact congrArg (· ++ _) (hrest _)
  | gll config =>
    rcases monitor with _ | _ | _
    · exact List.append_nil _
    · exact List.append_nil _
    · exact congrArg (· ++ _) (hrest _)

theorem earley_heard (p : Prepared α) (config : Earley.Config) (monitor : Monitor) (input : Array α) (offset : Nat) :
    (parseFrom ⟨p, .earley config, some monitor⟩ input offset).heard =
      (Earley.recognize ⟨p, config, input.extract offset input.size, offset⟩ (some monitor.frequency)).progress.reports := by
  rw [heard_parseFrom]
  exact Earley.reports_parse p config _ input offset

theorem gll_heard (p : Prepared α) (config : Gll.Config) (monitor : Monitor) (input : Array α) (offset : Nat) :
    (parseFrom ⟨p, .gll config, some monitor⟩ input offset).heard =
      (Gll.recognize ⟨p, config, input.extract offset input.size⟩ (some monitor.frequency)).1.reports := by
  rw [heard_parseFrom]
  exact Gll.reports_parse p config _ input offset

/-- Whoever listens to a parse hears its beginning first and its end last, and between them one report per block: with a
positive frequency the ticks whose quotient by it is positive and larger than at all ticks before, and with the frequency
zero nothing. The ticks of one method are the positions that it visits, those of the other the furthest position after each
descriptor. Whatever the frequency, no sum of the counter leaves the machine word if the number of tokens is below half of
its size. -/
theorem reports_once_per_block {p : Prepared α} (hp : p.Built) (monitor : Monitor) (input : Array α) (offset : Nat) :
    let tokens := input.extract offset input.size
    let frequency := monitor.frequency
    (∀ config,
      let job : Earley.Job α := { grammar := p, config, tokens, offset }
      let halt := Earley.recognize job (some frequency)
      ∃ positions reported, Earley.Visited job positions (none, halt.run) ∧
        Blockwise .earley frequency tokens.size positions reported
          (parseFrom ⟨p, .earley config, some monitor⟩ input offset).heard ∧
        (tokens.size < 2 ^ 63 → positions.foldlM (due? frequency) frequency = some halt.progress.next)) ∧
    (∀ config,
      let job : Gll.Job α := { grammar := p, config, tokens }
      let found := Gll.recognize job (some frequency)
      ∃ furthest reported, Gll.Advanced job furthest found.2 ∧ found.2.pending = [] ∧
        Blockwise .gll frequency tokens.size furthest reported
          (parseFrom ⟨p, .gll config, some monitor⟩ input offset).heard ∧
        (tokens.size < 2 ^ 63 → furthest.foldlM (due? frequency) frequency = some found.1.next)) := by
  intro tokens frequency
  refine ⟨fun config => ?_, fun config => ?_⟩
  · intro job halt
    have hregular : job.grammar.Regular := hp.regular
    obtain ⟨positions, progress, hvisited, hticked, hprogress⟩ := Earley.Visited.exists_recognize hregular frequency
    have hle := hvisited.forall_le_size hregular
    refine ⟨positions, newBlocks frequency positions, hvisited, ?_, fun hword => ?_⟩
    · rw [earley_heard, hprogress]
      exact hticked.blockwise hle
    · rw [hprogress]
      exact hticked.counted_finish hle hword
  · intro job found
    have hregular : job.grammar.Regular := hp.regular
    obtain ⟨furthest, progress, hadvanced, hnone, hticked, hprogress⟩ := Gll.Advanced.exists_recognize hregular frequency
    have hle := hadvanced.forall_le_size hregular
    refine ⟨furthest, newBlocks frequency furthest, hadvanced, hnone, ?_, fun hword => ?_⟩
    · rw [gll_heard, hprogress]
      exact hticked.blockwise hle
    · rw [hprogress]
      exact hticked.counted_finish hle hword

/-- Of seven letters, the first four are taken at once, so that two blocks begin without a report. One method reports the end of
these letters and the beginning of the next block, the other one the ends of the stretches. -/
theorem reports_once_per_block_stretches :
    let input := #['b', 'a', 'a', 'a', 'a', 'b', 'a', 'b']
    let job : Earley.Job Char := { grammar := Sample.stretches, config := {}, tokens := input.extract 1 8, offset := 1 }
    let job' : Gll.Job Char := { grammar := Sample.stretches, config := {}, tokens := input.extract 1 8 }
    Sample.stretches.Built ∧
    (∃ positions, Earley.Visited job positions (none, (Earley.recognize job (some 2)).run) ∧
      newBlocks 2 positions = [4, 6] ∧ positions.foldlM (due? 2) 2 = some 8) ∧
    (∃ furthest, Gll.Advanced job' furthest (Gll.recognize job' (some 2)).2 ∧
      newBlocks 2 furthest = [5, 7] ∧ furthest.foldlM (due? 2) 2 = some 8) ∧
    ∃ positions, Earley.Visited job positions (none, (Earley.recognize job (some (2 ^ 64 - 1))).run) ∧
      newBlocks (2 ^ 64 - 1) positions = [] ∧ positions.foldlM (due? (2 ^ 64 - 1)) (2 ^ 64 - 1) = some (2 ^ 64 - 1) := by
  intro input job job'
  have hbuilt := Sample.built_stretches
  have hword : (input.extract 1 input.size).size < 2 ^ 63 := by decide
  obtain ⟨positions, reported, hvisited, hblocks, hcounted⟩ := (reports_once_per_block hbuilt (.recording 2) input 1).1 {}
  have hheard : (parseFrom ⟨Sample.stretches, .earley {}, some (.recording 2)⟩ input 1).heard =
      .starting .earley 7 :: ([4, 6].map (.progress .earley · 7) ++ [.finished .earley]) := by decide +kernel
  obtain ⟨furthest, reported', hadvanced, -, hblocks', hcounted'⟩ :=
    (reports_once_per_block hbuilt (.logging 2) input 1).2 {}
  have hheard' : (parseFrom ⟨Sample.stretches, .gll {}, some (.logging 2)⟩ input 1).heard =
      .starting .gll 7 :: ([5, 7].map (.progress .gll · 7) ++ [.finished .gll]) := by decide +kernel
  obtain ⟨rare, reported'', hrare, hblocks'', hcounted''⟩ :=
    (reports_once_per_block hbuilt (.recording (2 ^ 64 - 1)) input 1).1 {}
  have hheard'' : (parseFrom ⟨Sample.stretches, .earley {}, some (.recording (2 ^ 64 - 1))⟩ input 1).heard =
      .starting .earley 7 :: ([].map (.progress .earley · 7) ++ [.finished .earley]) := by decide +kernel
  rw [hheard] at hblocks
  rw [hheard'] at hblocks'
  rw [hheard''] at hblocks''
  refine ⟨hbuilt, ⟨positions, hvisited, ?_, ?_⟩, ⟨furthest, hadvanced, ?_, ?_⟩, ⟨rare, hrare, ?_, ?_⟩⟩
  · exact (hblocks.exact (by decide)).symm.trans hblocks.reported_eq
  · exact (hcounted hword).trans (by decide +kernel)
  · exact (hblocks'.exact (by decide)).symm.trans hblocks'.reported_eq
  · exact (hcounted' hword).trans (by decide +kernel)
  · exact (hblocks''.exact (by decide)).symm.trans hblocks''.reported_eq
  · exact (hcounted'' hword).trans (by decide +kernel)

end Recognizer
end ContextFree
