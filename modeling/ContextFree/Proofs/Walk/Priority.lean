-- SUMMARY: A walker that chooses by priority tries the families at each choice point best first, and reports ties.
import ContextFree.Proofs.WriteOnce
import ContextFree.Proofs.Walk.Ranking
import ContextFree.Proofs.Walk.Replaying
import Mathlib.Data.List.Destutter

/-!
# Best first

A choice point is a node with several admissible families together with the choices that lead to it. From one tree to the next a
walker keeps its first choices, makes one of them anew and forgets the later ones, so at each choice point it goes through
families one after the other. If it chooses by priority, these are the admissible families of the node in the order of their
ranking, and all of them. A tree is reported with a tie if at one of its choice points another family of the same priority was
left when its family was first taken.
-/
namespace ContextFree

open Odometer

variable {α : Type} {id root : NodeId} {i j : Nat}

/-! ## One walk -/

namespace Tour

/-- All choices planned and made are graded, and a tie is noted if one of those made has one. -/
structure Graded (f : Forest α) (s : Tour α Unit) : Prop where
  plan : ∀ c ∈ s.walk.plan, c.Graded f
  trace : ∀ c ∈ s.walk.trace, c.Graded f
  madeChoice : s.walk.madeChoice = s.walk.trace.any Choice.ambiguous

end Tour

theorem Walk.madeChoice_depart {σ : Type} (f : Forest α) (id : NodeId) (family? : Option Nat) (w : Walk α σ) :
    (w.depart f id family?).madeChoice = w.madeChoice := by
  cases family? <;> rfl

/-- If no walk needs an escape, all nodes are safe. -/
theorem Forest.NeedsNoEscape.shelter [DecidableEq α] {f : Forest α} {tokens : Array α} {trimmed : Identity → Prop}
    (h : f.NeedsNoEscape) (hf : f.Exact tokens trimmed) : f.Shelter fun _ => True where
  upward _ _ _ _ := trivial
  admissible hid _ hne hpos := h.admissible_ne_nil hf hid hne hpos
  few _ hsafe := absurd trivial hsafe

namespace Tour

variable [DecidableEq α] {f : Forest α} {tokens : Array α} {trimmed : Identity → Prop} {s : Tour α Unit}

theorem Graded.step (h : s.Graded f) (hf : f.Exact tokens trimmed) (hwithin : s.Within f)
    (hsheltered : s.Sheltered f fun _ => True) : (s.step f .byPriority).Graded f := by
  rcases step_cases f .byPriority s with ⟨-, heq⟩ | ⟨id, tasks, -, -, heq⟩ | ⟨id, tasks, htasks, hterminal, heq⟩ |
    ⟨id, family?, tasks, -, heq⟩
  · rwa [heq]
  · rw [heq]
    exact ⟨h.plan, h.trace, h.madeChoice⟩
  · obtain ⟨hid, -⟩ := List.forall_mem_cons.mp (htasks ▸ hwithin.tasks)
    have husable : (s.walk.arrive f id).usableFamilies f id = f.admissible id :=
      (hsheltered.ready htasks trivial).usableFamilies_eq hf hid
    rw [heq, descend]
    cases hlist : f.admissible id with
    | nil =>
      obtain ⟨memory, hescape⟩ := (s.walk.arrive f id).escape_spec f id
      simp only [Walk.choose_none (husable.trans hlist), hescape]
      exact ⟨h.plan, h.trace, h.madeChoice⟩
    | cons i rest =>
      by_cases hrest : rest = []
      · subst hrest
        rw [Walk.choose_one (husable.trans hlist)]
        exact ⟨h.plan, h.trace, h.madeChoice⟩
      · have hne : f.admissible id ≠ [] := by simp [hlist]
        have htwo : 2 ≤ ((s.walk.arrive f id).usableFamilies f id).length := by
          rw [husable, hlist, List.length_cons]
          exact Nat.succ_le_succ (List.length_pos_iff.mpr hrest)
        have hgraded : ((s.walk.arrive f id).makeChoice f .byPriority id (f.admissible id)).1.Graded f :=
          Walk.makeChoice_graded hne h.plan
        have hmade : (s.walk.arrive f id).madeChoice = (s.walk.arrive f id).trace.any Choice.ambiguous := h.madeChoice
        obtain ⟨-, -, memory, notes, hwalk⟩ :=
          (s.walk.arrive f id).makeChoice_spec f .byPriority id hne (f.nodup_admissible id)
        rw [Walk.choose_several htwo, husable]
        simp only [Walk.record, Walk.follow, hwalk]
        refine ⟨fun c hc => h.plan c (List.mem_of_mem_tail hc), List.forall_mem_cons.mpr ⟨hgraded, h.trace⟩, ?_⟩
        rw [List.any_cons, ← hmade]
        exact Bool.or_comm ..
  · rw [heq]
    refine ⟨?_, ?_, ?_⟩
    · rw [Walk.plan_depart]
      exact h.plan
    · rw [Walk.trace_depart]
      exact h.trace
    · rw [Walk.madeChoice_depart, Walk.trace_depart]
      exact h.madeChoice

theorem Graded.after (h : s.Graded f) (hf : f.Exact tokens trimmed) (hescape : f.NeedsNoEscape) (hwithin : s.Within f)
    (hsheltered : s.Sheltered f fun _ => True) (n : Nat) : (s.after f .byPriority n).Graded f := by
  induction n with
  | zero => exact h
  | succ n ih =>
    exact ih.step hf (hwithin.reaches hf ⟨n, rfl⟩) (hsheltered.after hf (hescape.shelter hf) hwithin n)

end Tour

/-! ## Walkers -/

namespace Walker

variable [DecidableEq α] {f : Forest α} {tokens : Array α} {trimmed : Identity → Prop} {w : Walker α Unit}

/-- A walk along a graded plan makes graded choices, and reports a tie if one of them has one. -/
theorem visited_graded (hf : f.Exact tokens trimmed) (hescape : f.NeedsNoEscape) (hroots : f.roots = [root])
    (hroot : root < f.size) (hlawful : w.Lawful f) (horderly : w.Orderly f .byPriority)
    (hplan : ∀ c ∈ w.plan, c.Graded f) :
    (∀ c ∈ (w.visited root w.plan).trace, c.Graded f) ∧
      (w.visited root w.plan).madeChoice = (w.visited root w.plan).trace.any Choice.ambiguous := by
  obtain rfl := hlawful.forest_eq
  obtain ⟨n, hn⟩ := tour_reaches_visited hf hroot w.plan
  have hstart : (w.tour root w.plan).Graded w.forest := ⟨hplan, fun _ hc => absurd hc List.not_mem_nil, rfl⟩
  have hgraded := hstart.after hf hescape (within_tour hroot horderly.memory hlawful.plan)
    (sheltered_tour hf hroots hroot w w.plan) n
  rw [← horderly.selector_eq, hn] at hgraded
  exact ⟨hgraded.trace, hgraded.madeChoice⟩

/-- Walkers that choose by priority plan graded choices. -/
theorem Reached.graded (hf : f.Exact tokens trimmed) (hescape : f.NeedsNoEscape) (h : Reached f .byPriority w) :
    ∀ c ∈ w.plan, c.Graded f := by
  obtain ⟨root, hroots, hroot, -⟩ := hf.root
  induction h with
  | new => exact fun c hc => absurd hc List.not_mem_nil
  | @next w hw ih =>
    cases hopen : w.exhausted with
    | true =>
      rw [next_of_exhausted hopen]
      exact ih
    | false =>
      have hlawful := hw.lawful hf
      obtain ⟨htrace, -⟩ := visited_graded hf hescape hroots hroot hlawful (hw.orderly hf) ih
      obtain ⟨-, ⟨later, c, earlier, hsplit, hc, hnext⟩ | hnext⟩ :=
        next_cases (hlawful.forest_eq ▸ hroots) (hlawful.root_eq hroots hopen) hopen
      · rw [hsplit] at htrace
        obtain ⟨hgraded, hearlier⟩ := List.forall_mem_cons.mp (List.forall_mem_append.mp htrace).2
        rw [hnext]
        refine List.forall_mem_append.mpr ⟨fun e he => hearlier e (List.mem_reverse.mp he), ?_⟩
        exact List.forall_mem_singleton.mpr (hgraded.renew hc)
      · rw [hnext]
        exact fun c hc => absurd hc List.not_mem_nil
  | @replay w _ ih =>
    unfold Walker.replay
    split <;> exact ih
  | reset => exact fun c hc => absurd hc List.not_mem_nil

/-- Since this selector has no memory, calls lead to no other walkers than calls for the next tree do. -/
theorem Reached.exists_after (hf : f.Exact tokens trimmed) (hsteady : f.Steady) (h : Reached f .byPriority w) :
    ∃ n, w = (Walker.new f .byPriority).after n := by
  induction h with
  | new => exact ⟨0, rfl⟩
  | next _ ih =>
    obtain ⟨n, rfl⟩ := ih
    exact ⟨n + 1, rfl⟩
  | replay hw ih =>
    rw [hw.walker_replay hf hsteady]
    exact ih
  | @reset w hw _ =>
    refine ⟨0, ?_⟩
    rw [Walker.reset, (hw.lawful hf).forest_eq, (hw.orderly hf).selector_eq]
    rfl

end Walker

/-! ## Trees -/

/-- The choices of a tree that is walked by priority after some others: they are graded, and have passed the other trees and no
more. -/
structure Unfolding.Ranks (f : Forest α) (root : NodeId) (us : List Unfolding) (u : Unfolding) (entries : List Choice) :
    Prop where
  steps : entries.map Choice.step = f.choices u.listing
  sound : ∀ e ∈ entries, e.Sound f.admissible ∧ e.reselect = false
  graded : ∀ e ∈ entries, e.Graded f
  mem_iff : ∀ v ∈ f.unfoldings root, v ∈ us ↔ Passed entries (f.choices v.listing)

namespace Walker

/-- The steps of a walk are read off its derivation. -/
theorem steps_of_derivation {steps steps' : List (NodeId × Nat)}
    (h : (steps.map fun (id, i) => (id, some i)) = steps'.map fun (id, i) => (id, some i)) : steps = steps' := by
  have hinjective : Function.Injective fun (id, i) => ((id, some i) : NodeId × Option Nat) := by
    rintro ⟨id, i⟩ ⟨id', i'⟩ heq
    cases heq
    rfl
  exact hinjective.list_map h

variable [DecidableEq α] {f : Forest α} {tokens : Array α} {trimmed : Identity → Prop} {σ : Type}

theorem eq_of_derivation (hf : f.Exact tokens trimmed) (hroot : root < f.size) {u v : Unfolding}
    (hu : u ∈ f.unfoldings root) (hv : v ∈ f.unfoldings root)
    (h : (u.listing.map fun (id, i) => (id, some i)) = v.listing.map fun (id, i) => (id, some i)) : u = v :=
  hf.eq_of_choices hroot hu hv (congrArg f.choices (steps_of_derivation h))

/-- The trees of a walker in their order, each with the walker that has produced those before it. -/
theorem Enumerated.exists_trees (hf : f.Exact tokens trimmed) (hplain : f.NoEmptyLoops) (hroots : f.roots = [root])
    (hroot : root < f.size) (selector : Selector σ) :
    ∃ us : List Unfolding, us.length = f.count root ∧ us.Nodup ∧ (∀ u, u ∈ us ↔ u ∈ f.unfoldings root) ∧
      ∀ n u, us[n]? = some u → Enumerated f root (us.take n) ((Walker.new f selector).after n) ∧
        ∃ produced, ((Walker.new f selector).after n).next.result = .ok produced ∧
          produced.derivation = u.listing.map fun (id, i) => (id, some i) := by
  obtain ⟨us, hlength, hus, hproduced⟩ := Enumerated.after hf hplain hroots hroot selector (f.count root)
  rw [Nat.min_self] at hlength
  have hcomplete := hus.complete ((hus.exhausted_iff hf hplain hroots hroot).mpr hlength)
  refine ⟨us, hlength, hus.nodup, fun u => ⟨hus.subset u, hcomplete u⟩, fun n u hu => ⟨?_, hproduced n u hu⟩⟩
  obtain ⟨vs, hlength', hvs, hproduced'⟩ := Enumerated.after hf hplain hroots hroot selector n
  have hn : n < us.length := (List.getElem?_eq_some_iff.mp hu).1
  -- the first trees do not depend on how many are asked for
  have htake : us.take n = vs := by
    refine List.ext_getElem (by rw [List.length_take]; omega) fun k hk hk' => ?_
    rw [List.length_take] at hk
    rw [List.getElem_take]
    have hk : k < us.length := by omega
    obtain ⟨produced, hresult, hderivation⟩ := hproduced k us[k] (List.getElem?_eq_getElem hk)
    obtain ⟨produced', hresult', hderivation'⟩ := hproduced' k vs[k] (List.getElem?_eq_getElem hk')
    obtain rfl := Except.ok.inj (hresult.symm.trans hresult')
    exact eq_of_derivation hf hroot (hus.subset _ (List.getElem_mem hk)) (hvs.subset _ (List.getElem_mem hk'))
      (hderivation.symm.trans hderivation')
  rw [htake]
  exact hvs

/-- What a walker that chooses by priority produces next: the choices are graded and have passed what was produced before, and
the last event says whether one of them has a tie. -/
theorem Enumerated.ranks (hf : f.Exact tokens trimmed) (hplain : f.NoEmptyLoops) (hroots : f.roots = [root])
    (hroot : root < f.size) {w : Walker α Unit} {us : List Unfolding} {u : Unfolding} {produced : Produced α}
    (hw : Reached f .byPriority w) (hus : Enumerated f root us w) (hresult : w.next.result = .ok produced)
    (hu : u ∈ f.unfoldings root) (hderivation : produced.derivation = u.listing.map fun (id, i) => (id, some i)) :
    ∃ entries, u.Ranks f root us entries ∧
      produced.events.getLast? = some (.endTree (entries.any Choice.ambiguous)) := by
  have hopen := exhausted_of_ok hresult
  have hlawful := hw.lawful hf
  obtain ⟨hfirst, hstanding⟩ := hus.standing hopen
  obtain ⟨hgraded, hties⟩ := visited_graded hf hplain.needsNoEscape hroots hroot hlawful (hw.orderly hf)
    (hw.graded hf hplain.needsNoEscape)
  obtain rfl := hus.forest_eq
  obtain ⟨v, hv, entries, hmade, hsteps, htrace, hwalked⟩ :=
    walk_traces hf hplain.needsNoEscape hroots hroot hstanding.admissible
  obtain ⟨hnext, -⟩ := next_of_open hopen
  rw [hfirst] at hnext
  obtain rfl := Except.ok.inj (hresult.symm.trans hnext)
  obtain rfl := eq_of_derivation hf hroot hu hv (hderivation.symm.trans hwalked)
  rw [walk_eq hroots] at htrace
  have htrace : (w.visited root w.plan).trace = entries.reverse := htrace
  refine ⟨entries, ⟨hsteps, hmade.sound hstanding.planned, fun e he => ?_, fun v hv => ?_⟩, ?_⟩
  · exact hgraded e (htrace ▸ List.mem_reverse.mpr he)
  · rw [hstanding.mem_iff v hv, hmade.passed_iff hstanding.planned (hsteps ▸ hstanding.fits u hu)]
  · rw [walk_eq hroots, hties, htrace, List.any_reverse, produce, Walk.emit, Array.toList_push, List.getLast?_append]
    rfl

end Walker

/-! ## Choice points -/

namespace Forest

/-- The family that an unfolding takes at the choice point to which the given choices lead, if it comes there. -/
def taken (f : Forest α) (steps : List (NodeId × Nat)) (id : NodeId) (u : Unfolding) : Option Nat :=
  (f.admissible id).find? fun i => (steps ++ [(id, i)]).isPrefixOf (f.choices u.listing)

/-- The families that some unfoldings, one after the other, take at a choice point. -/
def tries (f : Forest α) (us : List Unfolding) (steps : List (NodeId × Nat)) (id : NodeId) : List Nat :=
  us.filterMap (f.taken steps id)

/-- At one of its choice points an unfolding takes a family while another one of the same priority is left: among those taken
there before the family is taken for the first time, the other one is missing. -/
def Ties (f : Forest α) (us : List Unfolding) (u : Unfolding) : Prop :=
  ∃ steps id i j, f.taken steps id u = some i ∧ j ∈ f.admissible id ∧ j ≠ i ∧ f.priorityOf id j = f.priorityOf id i ∧
    j ∉ (f.tries us steps id).takeWhile (· ≠ i)

/-- The sequences part at a node, where the first one takes a family that is ranked before that of the second. -/
def Precedes (f : Forest α) (left right : List (NodeId × Nat)) : Prop :=
  ∃ common id i j rest rest', left = common ++ (id, i) :: rest ∧ right = common ++ (id, j) :: rest' ∧ f.Before id i j

variable {f : Forest α} {left right steps : List (NodeId × Nat)}

theorem Precedes.cons (h : f.Precedes left right) (step : NodeId × Nat) : f.Precedes (step :: left) (step :: right) := by
  obtain ⟨common, id, i, j, rest, rest', rfl, rfl, hbefore⟩ := h
  exact ⟨step :: common, id, i, j, rest, rest', rfl, rfl, hbefore⟩

/-- At a choice point of both, the first of two sequences takes the same family or one that is ranked before. -/
theorem Precedes.eq_or_before (h : f.Precedes left right) (hleft : steps ++ [(id, i)] <+: left)
    (hright : steps ++ [(id, j)] <+: right) : i = j ∨ f.Before id i j := by
  obtain ⟨common, id', i', j', rest, rest', rfl, rfl, hbefore⟩ := h
  induction steps generalizing common with
  | nil =>
    rw [List.nil_append] at hleft hright
    cases common with
    | nil =>
      rw [List.nil_append, List.cons_prefix_cons] at hleft hright
      cases hleft.1
      cases hright.1
      exact .inr hbefore
    | cons step common =>
      rw [List.cons_append, List.cons_prefix_cons] at hleft hright
      cases hleft.1.trans hright.1.symm
      exact .inl rfl
  | cons step steps ih =>
    rw [List.cons_append] at hleft hright
    cases common with
    | nil =>
      rw [List.nil_append, List.cons_prefix_cons] at hleft hright
      cases hleft.1.symm.trans hright.1
      exact absurd hbefore hbefore.asymm
    | cons step' common =>
      rw [List.cons_append, List.cons_prefix_cons] at hleft hright
      exact ih common hleft.2 hright.2

end Forest

/-- Of the other admissible families, those that were tried are those ranked before the one chosen. -/
theorem Choice.Graded.mem_tried_iff {f : Forest α} {c : Choice} (h : c.Graded f) (hsound : c.Sound f.admissible)
    (hadmissible : i ∈ f.admissible c.node) (hne : i ≠ c.chosen) : i ∈ c.tried ↔ f.Before c.node i c.chosen := by
  obtain ⟨rest, hrest⟩ := h.ranked
  have hpairwise := f.pairwise_ranked c.node
  have hmem := (f.perm_ranked c.node).mem_iff.mpr hadmissible
  rw [← hrest, hsound.tried_eq, List.reverse_cons, List.append_assoc, List.singleton_append, List.pairwise_append,
    List.pairwise_cons] at hpairwise
  rw [← hrest, List.mem_append, List.mem_reverse] at hmem
  constructor
  · intro htried
    have htail := (hsound.mem_tried.mp htried).resolve_right hne
    exact hpairwise.2.2 i (List.mem_reverse.mpr htail) c.chosen List.mem_cons_self
  · intro hbefore
    exact hmem.resolve_right fun hlater => hbefore.asymm (hpairwise.2.1.1 i hlater)

namespace Forest.Exact

variable [DecidableEq α] {f : Forest α} {tokens : Array α} {trimmed : Identity → Prop} {ids : List NodeId}
  {us : List Unfolding} {steps rest : List (NodeId × Nat)}

/-- Nodes with derivations have unfoldings. -/
theorem exists_unfolds (h : f.Exact tokens trimmed) (hplain : f.NoEmptyLoops) (hids : ∀ id ∈ ids, id < f.size)
    (hcounts : ∀ id ∈ ids, 0 < f.count id) : ∃ us, Unfolds f us ids := by
  induction ids with
  | nil => exact ⟨[], .nil⟩
  | cons id ids ih =>
    obtain ⟨hid, hids⟩ := List.forall_mem_cons.mp hids
    obtain ⟨hcount, hcounts⟩ := List.forall_mem_cons.mp hcounts
    have hcard : (f.unfoldings id).encard ≠ 0 := by
      rw [h.encard_unfoldings hplain hid]
      exact_mod_cast hcount.ne'
    obtain ⟨u, hu⟩ := Set.encard_ne_zero.mp hcard
    obtain ⟨us, hus⟩ := ih hids hcounts
    exact ⟨u :: us, Unfolds.cons_iff.mpr ⟨hu, hus⟩⟩

/-- At each of its choices, an unfolding could have taken any other admissible family. -/
theorem exists_branch (h : f.Exact tokens trimmed) (hplain : f.NoEmptyLoops) (hus : Unfolds f us ids)
    (hids : ∀ id ∈ ids, id < f.size) (hchoices : f.choices (Unfolding.listingAll us) = steps ++ (id, i) :: rest)
    (hj : j ∈ f.admissible id) :
    ∃ vs rest', Unfolds f vs ids ∧ f.choices (Unfolding.listingAll vs) = steps ++ (id, j) :: rest' := by
  induction hus generalizing steps rest with
  | nil => simp [Unfolding.listingAll, choices] at hchoices
  | @leaf id' us ids hempty _ ih =>
    obtain ⟨vs, rest', hvs, hchoices'⟩ := ih (List.forall_mem_cons.mp hids).2 hchoices
    exact ⟨.leaf id' :: vs, rest', .leaf hempty hvs, hchoices'⟩
  | @node id' i' family children us ids hget hloop hchildren hus ihChildren ih =>
    obtain ⟨hid, hids⟩ := List.forall_mem_cons.mp hids
    rw [choices_node] at hchoices
    rcases split_append hchoices with ⟨mid, hhere, -⟩ | ⟨steps, rfl, hinner⟩
    · -- the choice is at the node itself
      have htwo : 2 ≤ (f.admissible id').length := by
        by_contra hone
        rw [choices, List.filter_cons_of_neg (by simpa using hone)] at hhere
        simp at hhere
      rw [choices_singleton htwo] at hhere
      obtain ⟨rfl, rfl, rfl⟩ : steps = [] ∧ id' = id ∧ i' = i := by
        cases steps with
        | nil => exact ⟨rfl, Prod.mk.inj (List.cons.inj hhere).1⟩
        | cons step steps => simp at hhere
      obtain ⟨family', hget', hloop', hcounts⟩ := mem_admissible.mp hj
      obtain ⟨children', hchildren'⟩ := h.exists_unfolds hplain
        (fun child hchild => h.child_lt hid (Array.mem_of_getElem? hget') hchild) hcounts
      refine ⟨.node id' j children' :: us, f.choices (Unfolding.listingAll children') ++ f.choices (Unfolding.listingAll us),
        .node hget' (by simpa [isLoop] using hloop') hchildren' hus, ?_⟩
      rw [choices_node, choices_singleton htwo]
      rfl
    · rcases split_append hinner with ⟨mid, hbelow, -⟩ | ⟨steps, rfl, hlater⟩
      · obtain ⟨children', rest', hchildren', hchoices'⟩ := ihChildren
          (fun child hchild => h.child_lt hid (Array.mem_of_getElem? hget) hchild) hbelow
        refine ⟨.node id' i' children' :: us, rest' ++ f.choices (Unfolding.listingAll us),
          .node hget hloop hchildren' hus, ?_⟩
        rw [choices_node, hchoices', List.append_assoc, List.append_assoc]
        rfl
      · obtain ⟨vs, rest', hvs, hchoices'⟩ := ih hids hlater
        refine ⟨.node id' i' children :: vs, rest', .node hget hloop hchildren hvs, ?_⟩
        rw [choices_node, hchoices', List.append_assoc, List.append_assoc]

end Forest.Exact

namespace Unfolding.Ranks

variable {f : Forest α} {us : List Unfolding} {u v : Unfolding} {entries : List Choice}

/-- What was passed precedes the choices. -/
theorem precedes_of_passed (hsound : ∀ e ∈ entries, e.Sound f.admissible ∧ e.reselect = false)
    (hgraded : ∀ e ∈ entries, e.Graded f) {steps : List (NodeId × Nat)} (h : Passed entries steps) :
    f.Precedes steps (entries.map Choice.step) := by
  induction entries generalizing steps with
  | nil => exact absurd h id
  | cons e entries ih =>
    obtain ⟨⟨he, hkeep⟩, hrest⟩ := List.forall_mem_cons.mp hsound
    obtain ⟨hgrade, hgrades⟩ := List.forall_mem_cons.mp hgraded
    match steps, h with
    | (id, i) :: steps, ⟨hnode, hchoice⟩ =>
      subst hnode
      rcases hchoice with hmem | ⟨rfl, hpassed⟩
      · rw [Choice.passed_of_keep hkeep] at hmem
        have htried := he.mem_tried.mpr (.inl hmem)
        have hne : i ≠ e.chosen := fun heq => he.chosen_notMem (heq ▸ hmem)
        exact ⟨[], e.node, i, e.chosen, steps, _, rfl, rfl, (hgrade.mem_tried_iff he (he.subset htried) hne).mp htried⟩
      · exact (ih hrest hgrades hpassed).cons _

theorem precedes (h : u.Ranks f root us entries) (hv : v ∈ us) (hmem : v ∈ f.unfoldings root) :
    f.Precedes (f.choices v.listing) (f.choices u.listing) :=
  h.steps ▸ precedes_of_passed h.sound h.graded ((h.mem_iff v hmem).mp hv)

end Unfolding.Ranks

/-! ## Best first -/

namespace Forest

section

variable {f : Forest α} {steps : List (NodeId × Nat)} {u : Unfolding}

theorem prefix_of_taken (h : f.taken steps id u = some i) : steps ++ [(id, i)] <+: f.choices u.listing := by
  have hfirst := List.find?_some h
  exact List.isPrefixOf_iff_prefix.mp hfirst

/-- A sequence makes one choice at a choice point. -/
theorem taken_of_prefix (hadmissible : i ∈ f.admissible id) (h : steps ++ [(id, i)] <+: f.choices u.listing) :
    f.taken steps id u = some i := by
  cases hfind : f.taken steps id u with
  | none =>
    have hno := List.find?_eq_none.mp hfind i hadmissible
    exact absurd (List.isPrefixOf_iff_prefix.mpr h) hno
  | some j =>
    have heq := (List.prefix_of_prefix_length_le (prefix_of_taken hfind) h (by simp)).eq_of_length (by simp)
    simpa using heq

/-- In a list by rank, the families before the first occurrence of one are those ranked before it. -/
theorem mem_takeWhile_iff {families : List Nat} (h : families.Pairwise fun i j => i = j ∨ f.Before id i j)
    (hi : i ∈ families) (hj : j ∈ families) (hne : j ≠ i) : j ∈ families.takeWhile (· ≠ i) ↔ f.Before id j i := by
  obtain ⟨before, after, rfl, hfirst⟩ := List.eq_append_cons_of_mem hi
  have hbefore : (before ++ i :: after).takeWhile (· ≠ i) = before := by
    have hother : ∀ k ∈ before, decide (k ≠ i) = true := fun k hk => decide_eq_true (ne_of_mem_of_not_mem hk hfirst)
    rw [List.takeWhile_append_of_pos hother, List.takeWhile_cons_of_neg (by simp), List.append_nil]
  rw [List.pairwise_append, List.pairwise_cons] at h
  rw [hbefore]
  constructor
  · exact fun hmem => (h.2.2 j hmem i List.mem_cons_self).resolve_left hne
  · intro hrank
    rw [List.mem_append, List.mem_cons] at hj
    refine hj.resolve_right fun hlater => ?_
    exact hrank.asymm ((h.2.1.1 j (hlater.resolve_left hne)).resolve_left (Ne.symm hne))

end

/-- All trees of a root in an order in which choices by priority lead to them. -/
structure BestFirst (f : Forest α) (root : NodeId) (us : List Unfolding) : Prop where
  mem_iff : ∀ u, u ∈ us ↔ u ∈ f.unfoldings root
  ranks : ∀ {n : Nat} {u : Unfolding}, us[n]? = some u → ∃ entries, u.Ranks f root (us.take n) entries

namespace BestFirst

variable {f : Forest α} {us : List Unfolding} {u : Unfolding} {steps : List (NodeId × Nat)}

theorem pairwise (h : f.BestFirst root us) :
    us.Pairwise fun u v => f.Precedes (f.choices u.listing) (f.choices v.listing) := by
  refine List.pairwise_iff_getElem.mpr fun m n hm hn hlt => ?_
  obtain ⟨entries, hranks⟩ := h.ranks (List.getElem?_eq_getElem hn)
  exact hranks.precedes (List.mem_take_iff_getElem.mpr ⟨m, by omega, rfl⟩) ((h.mem_iff _).mp (List.getElem_mem hm))

/-- At a choice point, families are taken by rank. -/
theorem pairwise_tries (h : f.BestFirst root us) (steps : List (NodeId × Nat)) (id : NodeId) :
    (f.tries us steps id).Pairwise fun i j => i = j ∨ f.Before id i j := by
  refine List.pairwise_filterMap.mpr (h.pairwise.imp fun hprecedes i hi j hj => ?_)
  exact hprecedes.eq_or_before (prefix_of_taken hi) (prefix_of_taken hj)

variable [DecidableEq α] {tokens : Array α} {trimmed : Identity → Prop}

/-- At a choice point, every admissible family is taken. -/
theorem mem_tries_iff (h : f.BestFirst root us) (hf : f.Exact tokens trimmed) (hplain : f.NoEmptyLoops) (hroot : root < f.size)
    (hu : u ∈ us) (hi : f.taken steps id u = some i) : j ∈ f.tries us steps id ↔ j ∈ f.admissible id := by
  rw [tries, List.mem_filterMap]
  constructor
  · rintro ⟨v, -, hj⟩
    exact List.mem_of_find?_eq_some hj
  · intro hj
    obtain ⟨rest, hrest⟩ := prefix_of_taken hi
    have hchoices : f.choices (Unfolding.listingAll [u]) = steps ++ (id, i) :: rest := by
      rw [Unfolding.listingAll, Unfolding.listingAll, List.append_nil, ← hrest, List.append_assoc]
      rfl
    obtain ⟨vs, rest', hvs, hchoices'⟩ := hf.exists_branch hplain ((h.mem_iff u).mp hu)
      (List.forall_mem_singleton.mpr hroot) hchoices hj
    obtain ⟨v, rfl⟩ : ∃ v, vs = [v] := by
      cases hvs with
      | leaf _ hnil => cases hnil; exact ⟨_, rfl⟩
      | node _ _ _ hnil => cases hnil; exact ⟨_, rfl⟩
    rw [Unfolding.listingAll, Unfolding.listingAll, List.append_nil] at hchoices'
    exact ⟨v, (h.mem_iff v).mpr hvs, taken_of_prefix hj ⟨rest', by simp [hchoices']⟩⟩

/-- At a choice point, leaving out repetitions, the families are taken in the order of the ranking. -/
theorem destutter_tries (h : f.BestFirst root us) (hf : f.Exact tokens trimmed) (hplain : f.NoEmptyLoops)
    (hroot : root < f.size) (hu : u ∈ us) (hi : f.taken steps id u = some i) :
    (f.tries us steps id).destutter (· ≠ ·) = f.ranked id := by
  have := f.antisymm_before id
  have hpairwise := h.pairwise_tries steps id
  have hperm : (f.tries us steps id).dedup.Perm (f.admissible id) := by
    rw [List.perm_ext_iff_of_nodup (List.nodup_dedup _) (f.nodup_admissible id)]
    intro j
    rw [List.mem_dedup, h.mem_tries_iff hf hplain hroot hu hi]
  rw [hpairwise.destutter_eq_dedup]
  exact eq_ranked hperm (hpairwise.sublist (List.dedup_sublist _))

/-- One of the choices of a tree has a tie if at one of its choice points another family of the same priority was left. -/
theorem any_ambiguous_iff (h : f.BestFirst root us) (hf : f.Exact tokens trimmed) (hplain : f.NoEmptyLoops)
    (hroot : root < f.size) (hu : u ∈ us) {vs : List Unfolding} {entries : List Choice} (hranks : u.Ranks f root vs entries) :
    entries.any Choice.ambiguous = true ↔ f.Ties us u := by
  -- at the choice point of a choice, what was not tried is what is ranked after the family chosen
  have huntried : ∀ {steps e j}, e ∈ entries → f.taken steps e.node u = some e.chosen → j ∈ f.admissible e.node →
      j ≠ e.chosen → (j ∉ e.tried ↔ j ∉ (f.tries us steps e.node).takeWhile (· ≠ e.chosen)) := by
    intro steps e j he htaken hj hne
    have hmem := fun {k} => h.mem_tries_iff (j := k) hf hplain hroot hu htaken
    rw [(hranks.graded e he).mem_tried_iff (hranks.sound e he).1 hj hne, mem_takeWhile_iff (h.pairwise_tries steps e.node)
      (hmem.mpr (List.mem_of_find?_eq_some htaken)) (hmem.mpr hj) hne]
  rw [List.any_eq_true]
  constructor
  · rintro ⟨e, he, hambiguous⟩
    obtain ⟨j, hj, htried, hequal⟩ := (hranks.graded e he).ambiguous.mp hambiguous
    obtain ⟨earlier, later, rfl⟩ := List.append_of_mem he
    have hsound := (hranks.sound e he).1
    have hchosen := List.mem_of_mem_head? hsound.head
    have htaken : f.taken (earlier.map Choice.step) e.node u = some e.chosen := by
      refine taken_of_prefix (hsound.subset hchosen) ⟨later.map Choice.step, ?_⟩
      rw [← hranks.steps, List.map_append, List.append_assoc]
      rfl
    have hne : j ≠ e.chosen := fun heq => htried (heq ▸ hchosen)
    exact ⟨_, e.node, e.chosen, j, htaken, hj, hne, hequal, (huntried he htaken hj hne).mp htried⟩
  · rintro ⟨steps, id, i, j, htaken, hj, hne, hequal, hnot⟩
    obtain ⟨rest, hrest⟩ := prefix_of_taken htaken
    rw [← hranks.steps, List.append_assoc] at hrest
    obtain ⟨earlier, later, rfl, -, hlater⟩ := List.map_eq_append_iff.mp hrest.symm
    obtain ⟨e, later, rfl, hstep, -⟩ := List.map_eq_cons_iff.mp hlater
    cases hstep
    have he : e ∈ earlier ++ e :: later := List.mem_append_right _ List.mem_cons_self
    exact ⟨e, he, (hranks.graded e he).ambiguous.mpr ⟨j, hj, (huntried he htaken hj hne).mpr hnot, hequal⟩⟩

end BestFirst
end Forest

namespace Sample

/-- `S → X X` and `X → A | B | C`, each of which derives `'a'`. The priority of `B` and of `C` is five, and `A` has none. -/
def contest : Prepared Char :=
  let g := Grammar.after [.nonterminal "S", .nonterminal "X", .nonterminal "A", .nonterminal "B", .nonterminal "C",
    .terminal ⟨"a", .exact 'a', false⟩, .declare 0 [⟨.nonterminal 1, false⟩, ⟨.nonterminal 1, false⟩],
    .declare 1 [⟨.nonterminal 2, false⟩], .declare 1 [⟨.nonterminal 3, false⟩], .declare 1 [⟨.nonterminal 4, false⟩],
    .declare 2 [⟨.terminal 0, false⟩], .declare 3 [⟨.terminal 0, false⟩], .declare 4 [⟨.terminal 0, false⟩],
    .setAttribute (.nonterminal 3) "priority" "5", .setAttribute (.nonterminal 4) "priority" " +5 "]
  match Prepared.ofGrammar g 0 with
  | .ok p    => p
  | .error _ => prepared

theorem built_contest : contest.Built := by
  unfold contest
  dsimp only
  split
  · rename_i hok
    exact ⟨_, 0, Grammar.built_after _, hok⟩
  · exact prepared_built

end Sample

namespace Recognizer

variable [DecidableEq α] [Quote α]

/-- Over a forest without loops over no input, a walker that chooses by priority produces the unfoldings of the root best first.
The priority of a family is the highest one among its children, or zero if none has one. At each choice point that one of the
trees comes to, the families are taken one after the other in the order of the ranking, and all of them. The last event of a
tree, produced anew or again, says whether it has a tie. Whatever was called before, the walker is where calls for the next
tree have led it. -/
theorem walker_best_first (r : Recognizer α) (hp : r.grammar.Built) (input : Array α) (offset : Nat) {f : Forest α}
    (hf : (r.parseFrom input offset).outcome.forest = some f) (hplain : f.NoEmptyLoops) :
    (∀ id i, f.priorities id i = ∅ ∧ f.priorityOf id i = 0 ∨ IsGreatest (f.priorities id i) (f.priorityOf id i)) ∧
    ∃ root, f.roots = [root] ∧ ∃ us : List Unfolding,
      us.length = f.total ∧ us.Nodup ∧ (∀ u, u ∈ us ↔ Unfolds f [u] [root]) ∧
      (∀ steps id, (∃ u ∈ us, (f.taken steps id u).isSome) → (f.tries us steps id).destutter (· ≠ ·) = f.ranked id) ∧
      (∀ n u, us[n]? = some u → ∃ produced madeChoice,
        ((Walker.new f .byPriority).after n).next.result = .ok produced ∧
        ((Walker.new f .byPriority).after (n + 1)).replay.result = .ok produced ∧
        produced.derivation = (u.listing.map fun (id, family) => (id, some family)) ∧
        produced.events.getLast? = some (.endTree madeChoice) ∧ (madeChoice = true ↔ f.Ties us u)) ∧
      ∀ w, Walker.Reached f .byPriority w → ∃ n, w = (Walker.new f .byPriority).after n := by
  obtain ⟨-, -, trimmed, hexact⟩ := r.exists_exact hp input offset hf
  obtain ⟨root, hroots, hroot, -⟩ := hexact.root
  have htotal : f.total = f.count root := by simp [Forest.total, hroots]
  have hsteady : f.Steady := .inl hplain.needsNoEscape
  have hreached : ∀ n, Walker.Reached f .byPriority ((Walker.new f .byPriority).after n) := .after .new
  obtain ⟨us, hlength, hnodup, hmem, htrees⟩ :=
    Walker.Enumerated.exists_trees hexact hplain hroots hroot Selector.byPriority
  have hbest : f.BestFirst root us := by
    refine ⟨hmem, fun {n u} hu => ?_⟩
    obtain ⟨hus, produced, hresult, hderivation⟩ := htrees n u hu
    obtain ⟨entries, hranks, -⟩ := hus.ranks hexact hplain hroots hroot (hreached n) hresult
      ((hmem u).mp (List.mem_of_getElem? hu)) hderivation
    exact ⟨entries, hranks⟩
  refine ⟨f.priorityOf_spec, root, hroots, us, hlength.trans htotal.symm, hnodup, hmem, ?_, ?_, ?_⟩
  · rintro steps id ⟨u, hu, hsome⟩
    obtain ⟨i, hi⟩ := Option.isSome_iff_exists.mp hsome
    exact hbest.destutter_tries hexact hplain hroot hu hi
  · intro n u hu
    have hu' := List.mem_of_getElem? hu
    obtain ⟨hus, produced, hresult, hderivation⟩ := htrees n u hu
    obtain ⟨entries, hranks, hlast⟩ :=
      hus.ranks hexact hplain hroots hroot (hreached n) hresult ((hmem u).mp hu') hderivation
    refine ⟨produced, _, hresult, ?_, hderivation, hlast, hbest.any_ambiguous_iff hexact hplain hroot hu' hranks⟩
    rw [Walker.after, (hreached n).replay_next hexact hsteady hresult]
  · exact fun w hw => hw.exists_after hexact hsteady

/-- After `C` for the first `X`, the second `X` of the contest is derived by `B`, by `C` and by `A`, in this order. The first of these
trees has a tie, the second has none: nothing as good as `C` is left there, nor was it for the first `X`. -/
theorem walker_best_first_contest : ∃ (f : Forest Char) (us : List Unfolding) (u v : Unfolding),
    (parseFrom ⟨Sample.contest, .earley {}, none⟩ #['a', 'a'] 0).outcome.forest = some f ∧ f.NoEmptyLoops ∧ us.length = 9 ∧
    (f.tries us [(4, 2)] 9).destutter (· ≠ ·) = [1, 2, 0] ∧ us[3]? = some u ∧ us[4]? = some v ∧ f.Ties us u ∧ ¬ f.Ties us v := by
  have hread : (parseFrom ⟨Sample.contest, .earley {}, none⟩ #['a', 'a'] 0).outcome.forest.map (fun f => decide (
      f.NoEmptyLoops ∧ f.total = 9 ∧ f.admissible 9 = [0, 1, 2] ∧ [0, 1, 2].map (f.priorityOf 9) = [0, 5, 5] ∧
      f.choices [(10, 0), (4, 2), (3, 0), (9, 1), (7, 0)] = [(4, 2), (9, 1)] ∧
      ((Walker.new f .byPriority).after 3).next.result.toOption.map Walker.Produced.derivation =
        some [(10, some 0), (4, some 2), (3, some 0), (9, some 1), (7, some 0)] ∧
      [3, 4].map (fun n => ((Walker.new f .byPriority).after n).next.result.toOption.bind (·.events.getLast?)) =
        [some (.endTree true), some (.endTree false)])) = some true := by decide +kernel
  obtain ⟨f, hf, hfacts⟩ := Option.map_eq_some_iff.mp hread
  obtain ⟨hplain, htotal, hadmissible, hpriorities, hchoices, hderived, hflags⟩ := of_decide_eq_true hfacts
  obtain ⟨-, root, -, us, hlength, -, -, htries, htrees, -⟩ := walker_best_first ⟨Sample.contest, .earley {}, none⟩
    Sample.built_contest #['a', 'a'] 0 hf hplain
  rw [htotal] at hlength
  have hu : us[3]? = some us[3] := List.getElem?_eq_getElem (by omega)
  have hv : us[4]? = some us[4] := List.getElem?_eq_getElem (by omega)
  obtain ⟨produced, tie, hresult, -, hderivation, hlast, htie⟩ := htrees 3 _ hu
  obtain ⟨produced', tie', hresult', -, -, hlast', htie'⟩ := htrees 4 _ hv
  simp only [List.map_cons, List.map_nil, hresult, hresult', Except.toOption, Option.map_some, Option.bind_some, hlast,
    hlast', List.cons.injEq, Option.some.injEq, Event.endTree.injEq, and_true] at hderived hflags
  have hlisting : us[3].listing = [(10, 0), (4, 2), (3, 0), (9, 1), (7, 0)] :=
    Walker.steps_of_derivation (hderivation.symm.trans hderived)
  have htaken : f.taken [(4, 2)] 9 us[3] = some 1 := by
    refine Forest.taken_of_prefix (by simp [hadmissible]) ?_
    rw [hlisting, hchoices]
    exact List.prefix_refl _
  have hranked : [1, 2, 0] = f.ranked 9 := by
    simp only [List.map_cons, List.map_nil, List.cons.injEq, and_true] at hpriorities
    refine Forest.eq_ranked (hadmissible ▸ by decide) ?_
    simp [Forest.Before, hpriorities]
  refine ⟨f, us, us[3], us[4], hf, hplain, hlength, ?_, hu, hv, htie.mp hflags.1, fun hties => ?_⟩
  · rw [hranked]
    exact htries _ _ ⟨us[3], List.getElem_mem _, by rw [htaken]; rfl⟩
  · exact Bool.false_ne_true (hflags.2.symm.trans (htie'.mpr hties))

end Recognizer
end ContextFree
