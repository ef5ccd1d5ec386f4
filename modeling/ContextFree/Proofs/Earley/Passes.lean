-- SUMMARY: Recognition by item sets as one loop: it takes every item once, and it ends.
import ContextFree.Proofs.Earley.Recognition
import ContextFree.Proofs.Loops

/-!
# Passes

Recognition takes the items of a set one after the other, while others join it, and goes on to the next set that has items
when there are no more. What it has taken at any time is what the sets before its position hold, and the items before the
cursor in the set at its position. No item leaves a set or moves in it, so none is taken twice, and none is left at the
end.
-/
namespace ContextFree.Earley

variable {α : Type} [DecidableEq α] {job : Job α}

/-- An item without its node: a state, where its rule began, and the position of the set. -/
abbrev Spot := StateId × Nat × Nat

/-- Where recognition stands: before the item at `cursor` in the set at `position`. -/
structure Pass where
  position : Nat
  cursor : Nat
  empties : Std.TreeMap Nonterminal NodeId
  run : Run

namespace Pass

def first (job : Job α) : Pass :=
  ⟨0, 0, ∅, (Run.init job).predict job job.grammar.start 0⟩

/-- Process the item at the cursor or, if there is none, scan the set and go on to the next one that has items. Gives the
item that was taken, if it was one. -/
def next? (job : Job α) (pass : Pass) : Option (Option Spot × Pass) :=
  match (pass.run.set pass.position).items[pass.cursor]? with
  | some item =>
    let (empties, run) := pass.run.processItem job pass.position item pass.empties
    some (some (item.state, item.origin, pass.position), ⟨pass.position, pass.cursor + 1, empties, run⟩)
  | none =>
    if pass.position == job.tokens.size then none
    else
      let run := pass.run.scan job pass.position
      (run.nextPosition? pass.position).map fun next => (none, ⟨next, 0, ∅, run⟩)

/-- The run after a pass that was the last one. -/
def last (job : Job α) (pass : Pass) : Run :=
  if pass.position == job.tokens.size then pass.run else pass.run.scan job pass.position

end Pass

/-- The passes that recognition comes to, with the items taken on the way and a gap for every set that was scanned. -/
def Passes (job : Job α) : List (Option Spot) → Pass → Prop :=
  Steps (fun pass x pass' => pass.next? job = some (x, pass')) (Pass.first job)

/-! ## Items of a run -/

theorem take_succ_of_prefix {β : Type} {l l' : List β} {n : Nat} {x : β} (h : l <+: l') (hx : l[n]? = some x) :
    l'.take (n + 1) = l.take n ++ [x] := by
  obtain ⟨hlt, -⟩ := List.getElem?_eq_some_iff.mp hx
  obtain ⟨rest, rfl⟩ := h
  rw [List.take_append_of_le_length hlt, List.take_add_one, hx]
  rfl

namespace Run

variable {run run' : Run} {position : Nat}

/-- The items at a position, in their order. -/
def spots (run : Run) (position : Nat) : List Spot :=
  (run.set position).items.toList.map fun item => (item.state, item.origin, position)

/-- The items at all positions before this one. -/
def spotsBelow (run : Run) (position : Nat) : List Spot :=
  (List.range position).flatMap run.spots

theorem spotsBelow_succ (run : Run) (position : Nat) :
    run.spotsBelow (position + 1) = run.spotsBelow position ++ run.spots position := by
  simp [spotsBelow, List.range_succ]

theorem spotsBelow_congr (h : ∀ j < position, run'.set j = run.set j) :
    run'.spotsBelow position = run.spotsBelow position := by
  rw [spotsBelow, spotsBelow, List.flatMap_def, List.flatMap_def]
  congr 1
  exact List.map_congr_left fun j hj => by rw [spots, spots, h j (List.mem_range.mp hj)]

theorem spotsBelow_skip {next : Nat} (hle : position ≤ next)
    (hempty : ∀ j, position ≤ j → j < next → ∀ item, item ∉ (run.set j).items) :
    run.spotsBelow next = run.spotsBelow position := by
  induction next, hle using Nat.le_induction with
  | base => rfl
  | succ next hle ih =>
    have hnone : (run.set next).items = #[] :=
      Array.eq_empty_iff_forall_not_mem.mpr (hempty next hle (Nat.lt_succ_self next))
    rw [spotsBelow_succ, ih fun j hj hlt => hempty j hj (Nat.lt_succ_of_lt hlt), spots, hnone]
    exact List.append_nil _

theorem mem_spots {state origin j : Nat} :
    (state, origin, j) ∈ run.spots position ↔ j = position ∧ run.Visits state origin position := by
  simp only [spots, List.mem_map, Array.mem_toList_iff, Prod.mk.injEq, Visits]
  constructor
  · rintro ⟨⟨_, _, node⟩, hitem, rfl, rfl, rfl⟩
    exact ⟨rfl, node, hitem⟩
  · rintro ⟨rfl, node, hitem⟩
    exact ⟨_, hitem, rfl, rfl, rfl⟩

theorem mem_spotsBelow {state origin j : Nat} :
    (state, origin, j) ∈ run.spotsBelow position ↔ j < position ∧ run.Visits state origin j := by
  simp only [spotsBelow, List.mem_flatMap, List.mem_range, mem_spots]
  constructor
  · rintro ⟨_, hlt, rfl, hvisits⟩
    exact ⟨hlt, hvisits⟩
  · rintro ⟨hlt, hvisits⟩
    exact ⟨j, hlt, rfl, hvisits⟩

theorem Sound.nodup_spotsBelow (hp : job.grammar.Regular) (hs : run.Sound job) (position : Nat) :
    (run.spotsBelow position).Nodup := by
  refine List.nodup_flatMap.mpr ⟨fun j _ => ?_, List.nodup_range.imp fun {i j} hne => ?_⟩
  · refine (hs.filed j).nodup.map_on fun a ha b hb heq => ?_
    exact hs.item_unique hp (Array.mem_toList_iff.mp ha) (Array.mem_toList_iff.mp hb)
      (congrArg Prod.fst heq) (congrArg (fun spot => spot.2.1) heq)
  · rintro ⟨state, origin, k⟩ hi hj
    exact hne ((mem_spots.mp hi).1.symm.trans (mem_spots.mp hj).1)

theorem Sound.inSpace (hp : job.grammar.Regular) (hs : run.Sound job) {spot : Spot}
    (hspot : spot ∈ run.spotsBelow position) : InSpace job.grammar.states.size job.tokens.size spot := by
  obtain ⟨state, origin, j⟩ := spot
  obtain ⟨-, node, hitem⟩ := mem_spotsBelow.mp hspot
  obtain ⟨id, before, after, hok⟩ := hs.item hitem
  exact ⟨hok.atDot.lt_size hp, hok.derives.le, hs.le_of_mem hitem⟩

end Run

namespace Pass

variable {pass pass' : Pass} {x : Option Spot} {taken : List (Option Spot)}

/-! ## One step -/

/-- A step processes the item at the cursor or, if there is none, scans a set that is not the last one. -/
theorem next?_cases (h : pass.next? job = some (x, pass')) :
    (∃ item, (pass.run.set pass.position).items[pass.cursor]? = some item ∧
      x = some (item.state, item.origin, pass.position) ∧
      pass' = ⟨pass.position, pass.cursor + 1, (pass.run.processItem job pass.position item pass.empties).1,
        (pass.run.processItem job pass.position item pass.empties).2⟩) ∨
    (∃ next, (pass.run.set pass.position).items[pass.cursor]? = none ∧
      (pass.run.scan job pass.position).nextPosition? pass.position = some next ∧ x = none ∧
      pass' = ⟨next, 0, ∅, pass.run.scan job pass.position⟩) := by
  unfold next? at h
  split at h
  · rename_i item hitem
    cases h
    exact .inl ⟨item, hitem, rfl, rfl⟩
  · rename_i hnone
    split at h
    · cases h
    · obtain ⟨next, hnext, heq⟩ := Option.map_eq_some_iff.mp h
      cases heq
      exact .inr ⟨next, hnone, hnext, rfl, rfl⟩

/-- The items before the cursor have had their consequences, and the position is one of the input. -/
structure Ready (job : Job α) (pass : Pass) : Prop where
  closing : Run.Closing job pass.position pass.cursor pass.empties pass.run
  le_size : pass.position ≤ job.tokens.size

theorem ready_first (hp : job.grammar.Regular) : (first job).Ready job := by
  obtain ⟨hs, hpredicted⟩ := sound_init job
  obtain ⟨hs', hpredicted', -⟩ :=
    Run.predict_spec hp hs hpredicted (Nat.zero_le _) (Nat.zero_le _) (A := job.grammar.start) .start
  exact ⟨Run.Closing.start hs' hpredicted', Nat.zero_le _⟩

theorem Ready.next (hp : job.grammar.Regular) (h : pass.Ready job) (hnext : pass.next? job = some (x, pass')) :
    pass'.Ready job := by
  rcases next?_cases hnext with ⟨item, hitem, -, rfl⟩ | ⟨next, -, hposition, -, rfl⟩
  · exact ⟨(h.closing.processItem hp h.le_size hitem).1, h.le_size⟩
  · obtain ⟨hs, hgrows, hsame, -⟩ := Run.scan_spec hp h.closing.sound pass.position
    obtain ⟨-, hreaches, -⟩ := Run.nextPosition?_of_some hp hs hposition
    exact ⟨Run.Closing.start hs (h.closing.predicted.of_same hgrows hsame), hreaches.le_size⟩

/-- The items that have been processed when recognition stands here. -/
def processed (pass : Pass) : List Spot :=
  pass.run.spotsBelow pass.position ++ (pass.run.spots pass.position).take pass.cursor

/-- A step processes what it takes, once. -/
theorem Ready.processed_next (hp : job.grammar.Regular) (h : pass.Ready job)
    (hnext : pass.next? job = some (x, pass')) : pass'.processed = pass.processed ++ x.toList := by
  rcases next?_cases hnext with ⟨item, hitem, rfl, rfl⟩ | ⟨next, hnone, hposition, rfl, rfl⟩
  · have hgrows := (h.closing.processItem hp h.le_size hitem).2
    have hspot : (pass.run.spots pass.position)[pass.cursor]? = some (item.state, item.origin, pass.position) := by
      rw [Run.spots, List.getElem?_map, Array.getElem?_toList, hitem]
      rfl
    have hprefix := (hgrows.items pass.position).map fun item => (item.state, item.origin, pass.position)
    simp only [processed, List.append_assoc]
    rw [Run.spotsBelow_congr fun j hj => hgrows.same j (Nat.ne_of_lt hj)]
    congr 1
    exact take_succ_of_prefix hprefix hspot
  · obtain ⟨hs, hgrows, -, -⟩ := Run.scan_spec hp h.closing.sound pass.position
    obtain ⟨hlt, -, hempty⟩ := Run.nextPosition?_of_some hp hs hposition
    have hall : (pass.run.spots pass.position).length ≤ pass.cursor := by
      simpa [Run.spots] using hnone
    simp only [processed, List.take_zero, List.append_nil, Option.toList_none]
    have hsame : ∀ j < pass.position + 1, (pass.run.scan job pass.position).set j = pass.run.set j := fun j hj =>
      hgrows.same j (Nat.not_lt.mpr (Nat.le_of_lt_succ hj))
    rw [Run.spotsBelow_skip hlt hempty, Run.spotsBelow_congr hsame, Run.spotsBelow_succ, List.take_of_length_le hall]

/-! ## All steps -/

end Pass

namespace Passes

variable {pass pass' : Pass} {x : Option Spot} {taken : List (Option Spot)}

theorem ready (hp : job.grammar.Regular) (h : Passes job taken pass) : pass.Ready job :=
  Steps.invariant h (Pass.ready_first hp) fun hpass => hpass.next hp

/-- What has been taken is what has been processed, in that order. -/
theorem taken_eq (hp : job.grammar.Regular) (h : Passes job taken pass) : taken.reduceOption = pass.processed := by
  induction h with
  | start => rfl
  | @next taken pass pass' x hsteps hnext ih =>
    rw [List.reduceOption_append, ih, (ready hp hsteps).processed_next hp hnext, List.reduceOption_singleton]

theorem taken_sublist (hp : job.grammar.Regular) (h : Passes job taken pass) :
    taken.reduceOption.Sublist (pass.run.spotsBelow (pass.position + 1)) := by
  rw [h.taken_eq hp, Run.spotsBelow_succ]
  exact (List.take_sublist _ _).append_left _

theorem nodup (hp : job.grammar.Regular) (h : Passes job taken pass) : taken.reduceOption.Nodup := by
  exact ((h.ready hp).closing.sound.nodup_spotsBelow hp (pass.position + 1)).sublist (h.taken_sublist hp)

theorem inSpace (hp : job.grammar.Regular) (h : Passes job taken pass) {spot : Spot} (hspot : spot ∈ taken.reduceOption) :
    InSpace job.grammar.states.size job.tokens.size spot := by
  have hbelow : spot ∈ pass.run.spotsBelow (pass.position + 1) := (h.taken_sublist hp).subset hspot
  exact (h.ready hp).closing.sound.inSpace hp hbelow

theorem workItems_eq (h : Passes job taken pass) : pass.run.workItems = taken.reduceOption.length := by
  induction h with
  | start => exact Run.workItems_predict job _ 0 _
  | next _ hnext ih =>
    rw [List.reduceOption_append, List.length_append, List.reduceOption_singleton, ← ih]
    rcases Pass.next?_cases hnext with ⟨item, -, rfl, rfl⟩ | ⟨next, -, -, rfl, rfl⟩
    · exact Run.workItems_processItem job _ item _ _
    · exact Run.workItems_scan job _ _

/-- Every set that is scanned leads to a later one. -/
theorem length_le_add_position (hp : job.grammar.Regular) (h : Passes job taken pass) :
    taken.length ≤ taken.reduceOption.length + pass.position := by
  induction h with
  | start => exact Nat.zero_le _
  | next hsteps hnext ih =>
    rw [List.reduceOption_append, List.length_append, List.length_append, List.length_singleton,
      List.reduceOption_singleton]
    rcases Pass.next?_cases hnext with ⟨item, -, rfl, rfl⟩ | ⟨next, -, hposition, rfl, rfl⟩
    · simp only [Option.toList_some, List.length_singleton]
      omega
    · obtain ⟨hs, -⟩ := Run.scan_spec hp (ready hp hsteps).closing.sound _
      have hlt := (Run.nextPosition?_of_some hp hs hposition).1
      simp only [Option.toList_none, List.length_nil]
      omega

theorem length_le (hp : job.grammar.Regular) (h : Passes job taken pass) :
    taken.length ≤ job.grammar.states.size * (job.tokens.size + 1) * (job.tokens.size + 2) / 2 + job.tokens.size := by
  have hitems := length_le_of_inSpace (h.nodup hp) fun _ hspot => h.inSpace hp hspot
  have hlength := h.length_le_add_position hp
  have hposition := (h.ready hp).le_size
  omega

/-! ## The end -/

/-- When there is no next pass, all items of the chart have been taken. -/
theorem mem_taken_iff (hp : job.grammar.Regular) (h : Passes job taken pass) (hend : pass.next? job = none)
    {state origin j : Nat} : (state, origin, j) ∈ taken.reduceOption ↔ (pass.last job).Visits state origin j := by
  obtain ⟨hclosing, hle⟩ := h.ready hp
  have hitems : (pass.run.set pass.position).items[pass.cursor]? = none := by
    unfold Pass.next? at hend
    split at hend
    · cases hend
    · assumption
  have hall : (pass.run.spots pass.position).length ≤ pass.cursor := by
    simpa [Run.spots] using hitems
  -- The last run has the same items up to the position, and none after it.
  have hlast : (∀ i ≤ pass.position, (pass.last job).set i = pass.run.set i) ∧
      ∀ i, pass.position < i → ∀ item, item ∉ ((pass.last job).set i).items := by
    simp only [Pass.next?, hitems] at hend
    unfold Pass.last
    split
    · rename_i hsize
      obtain heq : pass.position = job.tokens.size := by simpa using hsize
      exact ⟨fun _ _ => rfl, fun i hi item hitem => absurd (hclosing.sound.le_of_mem hitem) (by omega)⟩
    · rename_i hsize
      rw [if_neg hsize, Option.map_eq_none_iff] at hend
      obtain ⟨hs, hgrows, -, -⟩ := Run.scan_spec hp hclosing.sound pass.position
      exact ⟨fun i hi => hgrows.same i (Nat.not_lt.mpr hi), fun i => Run.nextPosition?_of_none hs hend⟩
  rw [h.taken_eq hp, Pass.processed, List.take_of_length_le hall, ← Run.spotsBelow_succ,
    ← Run.spotsBelow_congr fun i hi => hlast.1 i (Nat.le_of_lt_succ hi), Run.mem_spotsBelow]
  refine ⟨fun hspot => hspot.2, fun hvisits => ⟨?_, hvisits⟩⟩
  obtain ⟨node, hitem⟩ := hvisits
  by_contra hlt
  exact hlast.2 j (by omega) _ hitem

/-- Closing the set at the position takes the items that are left in it. -/
theorem exists_closed (hp : job.grammar.Regular) (fuel : Nat) (h : Passes job taken pass)
    (hfuel : job.grammar.states.size * (pass.position + 1) ≤ pass.cursor + fuel) :
    ∃ more pass', Passes job (taken ++ more) pass' ∧ pass'.position = pass.position ∧
      (pass'.run.set pass'.position).items[pass'.cursor]? = none ∧
      pass'.run = pass.run.closeFrom job pass.position fuel pass.cursor pass.empties := by
  induction fuel generalizing taken pass with
  | zero =>
    have hsize := (h.ready hp).closing.sound.size_items_le hp pass.position
    refine ⟨[], pass, by rwa [List.append_nil], rfl, ?_, rfl⟩
    exact Array.getElem?_eq_none (Nat.le_trans hsize hfuel)
  | succ fuel ih =>
    cases hitem : (pass.run.set pass.position).items[pass.cursor]? with
    | none => exact ⟨[], pass, by rwa [List.append_nil], rfl, hitem, by simp only [Run.closeFrom, hitem]⟩
    | some item =>
      have hnext : pass.next? job = some (some (item.state, item.origin, pass.position),
          ⟨pass.position, pass.cursor + 1, (pass.run.processItem job pass.position item pass.empties).1,
            (pass.run.processItem job pass.position item pass.empties).2⟩) := by
        simp only [Pass.next?, hitem]
      obtain ⟨more, pass', hmore, hposition, hnone, hrun⟩ := ih (.next h hnext) (by dsimp only; omega)
      refine ⟨_ :: more, pass', by rwa [List.append_cons], hposition, hnone, ?_⟩
      rw [hrun]
      simp only [Run.closeFrom, hitem]

/-- Recognition takes items until there is no next pass. -/
theorem exists_last (hp : job.grammar.Regular) (fuel : Nat) {position : Nat} {run : Run} (checkpoint? : Option Nat)
    (progress : Progress) (h : Passes job taken ⟨position, 0, ∅, run⟩) (hfuel : job.tokens.size < position + fuel) :
    ∃ more pass', Passes job (taken ++ more) pass' ∧ pass'.next? job = none ∧
      pass'.last job = (recognizeFrom job fuel position checkpoint? progress run).run := by
  induction fuel generalizing taken position run checkpoint? progress with
  | zero =>
    have hle := (h.ready hp).le_size
    dsimp only at hle
    omega
  | succ fuel ih =>
    obtain ⟨more, ⟨position', cursor, empties, closed⟩, hmore, hposition, hnone, hclosed⟩ :=
      h.exists_closed hp (job.grammar.states.size * (position + 1)) (by dsimp only; omega)
    dsimp only at hposition hnone hclosed
    obtain rfl := hposition.symm
    simp only [recognizeFrom, Run.close, ← hclosed]
    by_cases hsize : (position == job.tokens.size) = true
    · refine ⟨more, _, hmore, ?_, ?_⟩
      · simp only [Pass.next?, hnone, if_pos hsize]
      · simp only [Pass.last, if_pos hsize]
    · simp only [if_neg hsize]
      cases hnext : (closed.scan job position).nextPosition? position with
      | none =>
        refine ⟨more, _, hmore, ?_, ?_⟩
        · simp only [Pass.next?, hnone, if_neg hsize, hnext, Option.map_none]
        · simp only [Pass.last, if_neg hsize]
      | some next =>
        have hstep : Passes job (taken ++ more ++ [none]) ⟨next, 0, ∅, closed.scan job position⟩ := by
          refine .next hmore ?_
          simp only [Pass.next?, hnone, if_neg hsize, hnext, Option.map_some]
        obtain ⟨hs, -⟩ := Run.scan_spec hp (hmore.ready hp).closing.sound position
        have hlt := (Run.nextPosition?_of_some hp hs hnext).1
        obtain ⟨more', pass', hmore', hend, hlast⟩ := ih _ _ hstep (by omega)
        refine ⟨more ++ [none] ++ more', pass', ?_, hend, hlast⟩
        rwa [← List.append_assoc, ← List.append_assoc]

/-- The recognizer passes through the items to the end. -/
theorem exists_recognize (hp : job.grammar.Regular) (frequency? : Option Nat) :
    ∃ taken pass, Passes job taken pass ∧ pass.next? job = none ∧ pass.last job = (recognize job frequency?).run := by
  have hstart : Passes job [] (Pass.first job) := .start
  obtain ⟨taken, pass, htaken, hend, hlast⟩ := hstart.exists_last hp (job.tokens.size + 1) none
    (Progress.start .earley job.tokens.size frequency?) (by omega)
  exact ⟨taken, pass, htaken, hend, hlast⟩

end Passes
end ContextFree.Earley
