-- SUMMARY: A walker produces the unfoldings of the root one by one, each of them once, and then stops.
import ContextFree.Proofs.Forest.Unfoldings
import ContextFree.Proofs.Walk.Odometer
import ContextFree.Proofs.Walk.ParseTrees

/-!
# Enumeration

If no walk needs an escape, a walk follows admissible families only, so what it walks is an unfolding of the root. Its choices
are those of the unfolding: the nodes with several admissible families, in preorder. The choices of two unfoldings are
parallel, and different unfoldings differ in some choice. So the odometer of the walker runs through all unfoldings: what it has
passed are those produced before, and it stops when it has passed all of them.
-/
namespace ContextFree

open Odometer

variable {α σ : Type} {id : NodeId} {ids : List NodeId} {i : Nat} {us vs : List Unfolding}

/-! ## Choices of unfoldings -/

namespace Forest

/-- The steps at nodes with several admissible families. -/
def choices (f : Forest α) (steps : List (NodeId × Nat)) : List (NodeId × Nat) :=
  steps.filter fun step => 2 ≤ (f.admissible step.1).length

theorem choices_append (f : Forest α) (steps steps' : List (NodeId × Nat)) :
    f.choices (steps ++ steps') = f.choices steps ++ f.choices steps' :=
  List.filter_append ..

theorem choices_node (f : Forest α) (id : NodeId) (i : Nat) (children us : List Unfolding) :
    f.choices (Unfolding.listingAll (.node id i children :: us)) =
      f.choices [(id, i)] ++ (f.choices (Unfolding.listingAll children) ++ f.choices (Unfolding.listingAll us)) := by
  rw [← choices_append, ← choices_append]
  rfl

theorem choices_singleton {f : Forest α} (h : 2 ≤ (f.admissible id).length) : f.choices [(id, i)] = [(id, i)] :=
  List.filter_cons_of_pos (decide_eq_true h)

namespace Exact

variable [DecidableEq α] {f : Forest α} {tokens : Array α} {trimmed : Identity → Prop}

/-- Unfoldings use admissible families. -/
theorem admissible_of_unfolds (h : f.Exact tokens trimmed) (hid : id < f.size) {children : List Unfolding}
    (hu : Unfolds f (.node id i children :: us) (id :: ids)) : i ∈ f.admissible id := by
  cases hu with
  | node hget hloop hchildren =>
    refine mem_admissible.mpr ⟨_, hget, by simpa [isLoop] using hloop, ?_⟩
    exact h.count_pos_of_unfolds hchildren fun child hchild => h.child_lt hid (Array.mem_of_getElem? hget) hchild

theorem steps_admissible (h : f.Exact tokens trimmed) (hus : Unfolds f us ids) (hids : ∀ id ∈ ids, id < f.size) :
    ∀ step ∈ Unfolding.listingAll us, step.2 ∈ f.admissible step.1 := by
  induction hus with
  | nil => simp [Unfolding.listingAll]
  | leaf _ _ ih => simpa [Unfolding.listingAll, Unfolding.listing] using ih (List.forall_mem_cons.mp hids).2
  | node hget hloop hchildren hrest ihChildren ih =>
    obtain ⟨hid, hids⟩ := List.forall_mem_cons.mp hids
    have hi := h.admissible_of_unfolds hid (.node hget hloop hchildren hrest)
    have hbelow := ihChildren fun child hchild => h.child_lt hid (Array.mem_of_getElem? hget) hchild
    rw [Unfolding.listingAll, Unfolding.listing, List.cons_append, List.forall_mem_cons, List.forall_mem_append]
    exact ⟨hi, hbelow, ih hids⟩

/-- The choices of two unfoldings are parallel, and equal only if the unfoldings are. -/
theorem parallel (h : f.Exact tokens trimmed) (hus : Unfolds f us ids) (hvs : Unfolds f vs ids)
    (hids : ∀ id ∈ ids, id < f.size) :
    Parallel (f.choices (Unfolding.listingAll us)) (f.choices (Unfolding.listingAll vs)) ∧
      (f.choices (Unfolding.listingAll us) = f.choices (Unfolding.listingAll vs) → us = vs) := by
  induction hus generalizing vs with
  | nil =>
    cases hvs
    exact ⟨.nil, fun _ => rfl⟩
  | leaf hempty _ ih =>
    cases hvs with
    | leaf _ hvs =>
      obtain ⟨hparallel, hequal⟩ := ih hvs (List.forall_mem_cons.mp hids).2
      refine ⟨hparallel, fun heq => ?_⟩
      rw [hequal heq]
    | node hget => simp [hempty] at hget
  | @node id i family children us ids hget hloop hchildren hus ihChildren ih =>
    obtain ⟨hid, hids⟩ := List.forall_mem_cons.mp hids
    have hi := h.admissible_of_unfolds hid (.node hget hloop hchildren hus)
    cases hvs with
    | leaf hempty => simp [hempty] at hget
    | @node _ j family' children' vs _ hget' hloop' hchildren' hvs =>
      have hj := h.admissible_of_unfolds hid (.node hget' hloop' hchildren' hvs)
      obtain ⟨hparallel, hequal⟩ := ih hvs hids
      rw [choices_node, choices_node]
      by_cases hne : i = j
      · subst hne
        obtain rfl := Option.some.inj (hget.symm.trans hget')
        obtain ⟨hparallel', hequal'⟩ := ihChildren hchildren'
          fun child hchild => h.child_lt hid (Array.mem_of_getElem? hget) hchild
        refine ⟨(Parallel.refl _).append fun _ => hparallel'.append fun _ => hparallel, fun heq => ?_⟩
        obtain ⟨heq', heq⟩ := hparallel'.append_inj (List.append_cancel_left heq)
        rw [hequal' heq', hequal heq]
      · -- two families make the node a choice, and the choices part here
        have hpair : [i, j].Subperm (f.admissible id) := List.Nodup.subperm (by simp [hne]) (by simp [hi, hj])
        rw [choices_singleton hpair.length_le, choices_singleton hpair.length_le]
        refine ⟨.apart _ _ hne, fun heq => absurd ?_ hne⟩
        rw [List.singleton_append, List.singleton_append, List.cons.injEq, Prod.mk.injEq] at heq
        exact heq.1.2

variable {root : NodeId} {u v : Unfolding}

theorem parallel_choices (h : f.Exact tokens trimmed) (hroot : root < f.size) (hu : u ∈ f.unfoldings root)
    (hv : v ∈ f.unfoldings root) : Parallel (f.choices u.listing) (f.choices v.listing) := by
  simpa [Unfolding.listingAll] using (h.parallel hu hv (by simpa using hroot)).1

theorem eq_of_choices (h : f.Exact tokens trimmed) (hroot : root < f.size) (hu : u ∈ f.unfoldings root)
    (hv : v ∈ f.unfoldings root) (heq : f.choices u.listing = f.choices v.listing) : u = v := by
  have hsame := (h.parallel hu hv (by simpa using hroot)).2
  simpa using hsame (by simpa [Unfolding.listingAll] using heq)

theorem choices_admissible (h : f.Exact tokens trimmed) (hroot : root < f.size) (hu : u ∈ f.unfoldings root) :
    ∀ step ∈ f.choices u.listing, step.2 ∈ f.admissible step.1 := by
  have hsteps := h.steps_admissible hu (by simpa using hroot)
  rw [Unfolding.listingAll, Unfolding.listingAll, List.append_nil] at hsteps
  exact fun step hstep => hsteps step (List.mem_of_mem_filter hstep)

end Exact
end Forest

/-! ## Walks -/

namespace Walk

/-- From `w` to `w'`, the walk has followed the steps and made the choices that they call for. -/
structure Traces (f : Forest α) (steps : List (NodeId × Nat)) (entries : List Choice) (w w' : Walk α σ) : Prop where
  derivation : w'.derivation.toList = w.derivation.toList ++ steps.map fun (id, i) => (id, some i)
  made : Made f.admissible w.plan entries
  plan : w'.plan = w.plan.drop entries.length
  trace : w'.trace = entries.reverse ++ w.trace
  choices : entries.map Choice.step = f.choices steps

variable {f : Forest α} {selector : Selector σ} {depth : Nat} {w w₁ w₂ : Walk α σ} {steps steps' : List (NodeId × Nat)}
  {entries entries' : List Choice}

theorem Traces.refl (f : Forest α) (w : Walk α σ) : Traces f [] [] w w :=
  ⟨by simp, .nil _, rfl, rfl, rfl⟩

theorem Traces.trans (h : Traces f steps entries w w₁) (h' : Traces f steps' entries' w₁ w₂) :
    Traces f (steps ++ steps') (entries ++ entries') w w₂ where
  derivation := by rw [h'.derivation, h.derivation, List.map_append, List.append_assoc]
  made := h.made.append (h.plan ▸ h'.made)
  plan := by rw [h'.plan, h.plan, List.drop_drop, List.length_append]
  trace := by rw [h'.trace, h.trace, List.reverse_append, List.append_assoc]
  choices := by rw [List.map_append, h.choices, h'.choices, Forest.choices_append]

theorem Traces.leave (h : Traces f steps entries w w₁) (id : NodeId) (family? : Option Nat) :
    Traces f steps entries w (w₁.leave id family?) := by
  cases family? <;> exact ⟨h.derivation, h.made, h.plan, h.trace, h.choices⟩

theorem Traces.emit (h : Traces f steps entries w w₁) (event : Event α) : Traces f steps entries w (w₁.emit event) :=
  ⟨h.derivation, h.made, h.plan, h.trace, h.choices⟩

theorem Traces.of_emit {event : Event α} (h : Traces f steps entries (w.emit event) w₁) : Traces f steps entries w w₁ :=
  ⟨h.derivation, h.made, h.plan, h.trace, h.choices⟩

variable [DecidableEq α] {tokens : Array α} {trimmed : Identity → Prop}

/-- Where every admissible family is usable, a walk takes one of them and records it as a choice if there are several. -/
theorem choose_traces (hf : f.Exact tokens trimmed) (hid : id < f.size) (hne : f.admissible id ≠ [])
    (hlawful : w.Lawful f) (hready : w.Ready f depth id) (selector : Selector σ) :
    ∃ i ∈ f.admissible id, ((w.enter id).choose f selector id).1 = some i ∧
      ∃ entries, Traces f [(id, i)] entries w (((w.enter id).choose f selector id).2.follow id (some i)) := by
  have husable := hready.usableFamilies_eq hf hid
  obtain ⟨i, hi, hchosen⟩ := hlawful.exists_admissible hf hid hne hready selector
  refine ⟨i, hi, hchosen, ?_⟩
  obtain ⟨hkeeps, hcases⟩ := (w.enter id).choose_cases f selector id
  generalize (w.enter id).choose f selector id = chosen at hchosen hkeeps hcases
  have hderivation : (chosen.2.follow id (some i)).derivation.toList = w.derivation.toList ++ [(id, some i)] := by
    rw [follow, Array.toList_push, hkeeps.derivation]
    rfl
  rw [husable] at hcases
  rcases hcases with ⟨hnone, -⟩ | ⟨i', hone, -, hplan, htrace⟩ | ⟨htwo, e, hnode, hmakes, hchosen', hplan, htrace⟩
  · rw [hnone] at hi
    cases hi
  · have hno : f.choices [(id, i)] = [] := List.filter_cons_of_neg (by simp [hone])
    exact ⟨[], hderivation, .nil _, hplan, htrace, hno.symm⟩
  · obtain rfl := Option.some.inj (hchosen.symm.trans hchosen')
    refine ⟨[e], hderivation, .cons (hnode ▸ hmakes) (.nil _), ?_, htrace, ?_⟩
    · rw [List.length_singleton, List.drop_one]
      exact hplan
    · rw [Forest.choices_singleton htwo, ← hnode]
      rfl

/-- From `w` to `w'`, the walk has traced an unfolding of the node. It is lawful still, and on no new path. -/
structure Unrolls (f : Forest α) (id : NodeId) (w w' : Walk α σ) : Prop where
  traces : ∃ u entries, Unfolds f [u] [id] ∧ Traces f u.listing entries w w'
  lawful : w'.Lawful f
  onPath : ∀ {a}, a ∈ w'.onPath → a ∈ w.onPath

omit [DecidableEq α] in
/-- Visits of some nodes, one after the other, trace unfoldings of these nodes. -/
theorem children_traces {children : List NodeId} {visit : NodeId → Walk α σ → Walk α σ}
    (hvisit : ∀ c ∈ children, ∀ w' : Walk α σ, w'.Lawful f → (∀ {a}, a ∈ w'.onPath → a ∈ w.onPath) →
      Unrolls f c w' (visit c w')) (hlawful : w.Lawful f) :
    ∃ us entries, Unfolds f us children ∧
      Traces f (Unfolding.listingAll us) entries w (children.foldl (fun w child => visit child w) w) := by
  induction children generalizing w with
  | nil => exact ⟨[], [], .nil, .refl f w⟩
  | cons c children ih =>
    obtain ⟨⟨u, entries, hu, htraces⟩, hlawful', hpath⟩ := hvisit c List.mem_cons_self w hlawful fun ha => ha
    obtain ⟨us, entries', hus, htraces'⟩ := ih (fun c' hc' w' hw' hsub =>
      hvisit c' (List.mem_cons_of_mem c hc') w' hw' fun ha => hpath (hsub ha)) hlawful'
    exact ⟨u :: us, entries ++ entries', Unfolds.cons_iff.mpr ⟨hu, hus⟩, htraces.trans htraces'⟩

/-- At an inner node, a walk traces an unfolding of it. -/
theorem inside_traces (hf : f.Exact tokens trimmed) (hescape : f.NeedsNoEscape) (hid : id < f.size)
    (hinner : (f.node id).families ≠ #[])
    (hvisit : ∀ {c : NodeId} {w : Walk α σ}, c < f.size → w.Lawful f → w.Ready f depth c →
      Unrolls f c w (visit f selector depth c w))
    (hlawful : w.Lawful f) (hready : w.Ready f (depth + 1) id) :
    ∃ u entries, Unfolds f [u] [id] ∧ Traces f u.listing entries w (inside f selector depth id w) := by
  have hne := hescape.admissible_ne_nil hf hid hinner hready.count_pos
  obtain ⟨i, hi, hchosen, entries, htraces⟩ := choose_traces hf hid hne hlawful hready selector
  obtain ⟨family, hget, hloop, -⟩ := Forest.mem_admissible.mp hi
  obtain ⟨us, entries', hus, htraces'⟩ := children_traces
    (fun c hc w' hlawful' hsub => hvisit (hf.child_lt hid (Array.mem_of_getElem? hget) hc) hlawful'
      (hready.toChild hf hid hi (by rwa [Array.getD_eq_getD_getElem?, hget]) fun ha => mem_onPath_follow.mp (hsub ha)))
    (hlawful.follow selector id (some i))
  rw [inside_of_choose hchosen hget]
  refine ⟨.node id i us, entries ++ entries', .node hget (by simpa [Forest.isLoop] using hloop) hus .nil, ?_⟩
  exact (htraces.trans htraces').leave id (some i)

/-- A visit traces an unfolding of the node. -/
theorem visit_unrolls (hf : f.Exact tokens trimmed) (hescape : f.NeedsNoEscape) (selector : Selector σ) (depth : Nat)
    (hid : id < f.size) (hlawful : w.Lawful f) (hready : w.Ready f depth id) :
    Unrolls f id w (visit f selector depth id w) := by
  induction depth generalizing id w with
  | zero => exact absurd hready.rank_lt (Nat.not_lt_zero _)
  | succ depth ih =>
    have hrenders := visit_renders hf selector (depth + 1) hid hlawful fun _ => hready
    refine ⟨?_, hrenders.lawful, hrenders.onPath⟩
    rw [visit_succ]
    match hlabel : (f.node id).label with
    | .symbol (.terminal t) =>
      have hempty : (f.node id).families = #[] := (hf.isTerminal_iff hid).mp (by rw [hlabel]; rfl)
      exact ⟨.leaf id, [], .leaf hempty .nil, (Traces.refl f w).emit _⟩
    | .symbol (.nonterminal A) =>
      have hinner : (f.node id).families ≠ #[] := hf.families_ne_empty hid (by rw [hlabel]; rfl)
      obtain ⟨u, entries, hu, htraces⟩ := inside_traces hf hescape hid hinner (fun hc hw hr => ih hc hw hr)
        (hlawful.emit (.opening (f.grammar.grammar.nonterminalName A) (f.attributesOf id) (f.span id))) (hready.emit _)
      exact ⟨u, entries, hu, htraces.of_emit.emit _⟩
    | .state slot =>
      have hinner : (f.node id).families ≠ #[] := hf.families_ne_empty hid (by rw [hlabel]; rfl)
      exact inside_traces hf hescape hid hinner (fun hc hw hr => ih hc hw hr) hlawful hready

end Walk

/-! ## Walkers -/

namespace Walker

/-- The walker after some calls for the next tree. -/
def after (w : Walker α σ) : Nat → Walker α σ
  | 0     => w
  | n + 1 => (w.after n).next.walker

variable {w : Walker α σ}

theorem next_of_exhausted (h : w.exhausted = true) : w.next = ⟨.error .noMoreTrees, [], w⟩ := by
  rw [next, if_pos h]

/-- A walker that is not exhausted walks along its plan, and plans the next walk from what the walk has chosen. -/
theorem next_of_open (h : w.exhausted = false) :
    w.next.result = .ok (produce (w.walk w.root w.plan)) ∧
      ∃ w' : Walker α σ, w'.forest = w.forest ∧ w'.root = w.root ∧ w'.exhausted = false ∧ w'.produced = w.produced + 1 ∧
        w.next.walker = w'.planNext (w.walk w.root w.plan).trace := by
  let walked := w.walk w.root w.plan
  rw [next, if_neg (by simp [h])]
  refine ⟨rfl, { w.learn walked with produced := w.produced + 1, last? := some (w.root, walked.trace.reverse) }, ?_⟩
  exact ⟨rfl, rfl, h, rfl, rfl⟩

/-- The unfoldings that the plan has passed are the given ones. -/
structure Standing (f : Forest α) (root : NodeId) (us : List Unfolding) (plan : List Choice) : Prop where
  planned : Planned f.admissible plan
  fits : ∀ u ∈ f.unfoldings root, Fits plan (f.choices u.listing)
  mem_iff : ∀ u ∈ f.unfoldings root, u ∈ us ↔ Passed plan (f.choices u.listing)

/-- The walker has produced the given unfoldings of the root, each once. If it is exhausted, these are all; else its plan has
passed them and no others. -/
structure Enumerated (f : Forest α) (root : NodeId) (us : List Unfolding) (w : Walker α σ) : Prop where
  forest_eq : w.forest = f
  produced_eq : w.produced = us.length
  nodup : us.Nodup
  subset : ∀ u ∈ us, u ∈ f.unfoldings root
  complete : w.exhausted = true → ∀ u ∈ f.unfoldings root, u ∈ us
  standing : w.exhausted = false → w.root = 0 ∧ Standing f root us w.plan

variable [DecidableEq α] {f : Forest α} {tokens : Array α} {trimmed : Identity → Prop} {selector : Selector σ}
  {root : NodeId}

namespace Standing

variable {plan entries : List Choice} {u v : Unfolding}

omit [DecidableEq α] in
theorem admissible (h : Standing f root us plan) : ∀ c ∈ plan, c.chosen ∈ f.admissible c.node := by
  intro c hc
  have hsound := (h.planned.sound c hc).1
  exact hsound.subset (List.mem_of_mem_head? hsound.head)

omit [DecidableEq α] in
/-- What a walk along the plan unfolds is new. -/
theorem notMem (h : Standing f root us plan) (hu : u ∈ f.unfoldings root) (hmade : Made f.admissible plan entries)
    (hsteps : entries.map Choice.step = f.choices u.listing) : u ∉ us := by
  rw [h.mem_iff u hu, ← hmade.passed_iff h.planned (hsteps ▸ h.fits u hu), ← hsteps]
  exact not_passed_self (hmade.sound h.planned)

/-- After a walk along the plan, the walk is done with what it has unfolded and what was passed before. -/
theorem done_iff (h : Standing f root us plan) (hf : f.Exact tokens trimmed) (hroot : root < f.size)
    (hu : u ∈ f.unfoldings root) (hmade : Made f.admissible plan entries)
    (hsteps : entries.map Choice.step = f.choices u.listing) (hv : v ∈ f.unfoldings root) :
    Done entries (f.choices v.listing) ↔ v ∈ us ++ [u] := by
  rw [Done, hmade.passed_iff h.planned (hsteps ▸ h.fits u hu), ← h.mem_iff v hv, hsteps, List.mem_append,
    List.mem_singleton]
  exact or_congr_right ⟨fun heq => hf.eq_of_choices hroot hv hu heq, fun heq => heq ▸ rfl⟩

/-- Renewing the last choice of a walk that is not exhausted makes a plan that has passed the walk as well. -/
theorem renew (h : Standing f root us plan) (hf : f.Exact tokens trimmed) (hroot : root < f.size)
    (hu : u ∈ f.unfoldings root) {pre post : List Choice} {c : Choice} (hmade : Made f.admissible plan (pre ++ c :: post))
    (hsteps : (pre ++ c :: post).map Choice.step = f.choices u.listing) (hexhausted : ∀ e ∈ post, e.isExhausted = true)
    (hopen : c.isExhausted = false) : Standing f root (us ++ [u]) (pre ++ [c.renew]) := by
  have hsound := hmade.sound h.planned
  obtain ⟨hpre, hc⟩ := List.forall_mem_append.mp hsound
  have hparallel : ∀ v ∈ f.unfoldings root, Parallel ((pre ++ c :: post).map Choice.step) (f.choices v.listing) :=
    fun v hv => hsteps ▸ hf.parallel_choices hroot hu hv
  refine ⟨planned_renew hpre (List.forall_mem_cons.mp hc).1.1 hopen, fun v hv => fits_renew (hparallel v hv), ?_⟩
  intro v hv
  rw [passed_renew_iff hsound hexhausted (hparallel v hv) (hf.choices_admissible hroot hv)]
  exact (h.done_iff hf hroot hu hmade hsteps hv).symm

end Standing

/-- A walk along a plan walks an unfolding of the root and makes the choices of that unfolding. -/
theorem walk_traces (hf : w.forest.Exact tokens trimmed) (hescape : w.forest.NeedsNoEscape)
    (hroots : w.forest.roots = [root]) (hroot : root < w.forest.size) {plan : List Choice} (hplan : ∀ c ∈ plan, c.chosen ∈ w.forest.admissible c.node) :
    ∃ u ∈ w.forest.unfoldings root, ∃ entries, Made w.forest.admissible plan entries ∧
      entries.map Choice.step = w.forest.choices u.listing ∧ (w.walk 0 plan).trace = entries.reverse ∧
      (w.walk 0 plan).derivation.toList = u.listing.map fun (id, i) => (id, some i) := by
  obtain ⟨u, entries, hu, htraces⟩ := (Walk.visit_unrolls hf hescape w.selector _ hroot (w.lawful_begun hplan)
    (ready_begun hf hroots hroot plan)).traces
  rw [walk_eq hroots]
  refine ⟨u, hu, entries, htraces.made, htraces.choices, ?_, ?_⟩
  · exact htraces.trace.trans (List.append_nil _)
  · exact htraces.derivation

namespace Enumerated

omit [DecidableEq α] in
theorem new (hroots : f.roots = [root]) (selector : Selector σ) : Enumerated f root [] (Walker.new f selector) where
  forest_eq := rfl
  produced_eq := rfl
  nodup := .nil
  subset := by simp
  complete hexhausted := by simp [Walker.new, hroots] at hexhausted
  standing _ := ⟨rfl, .nil, fun _ _ => trivial, fun _ _ => iff_of_false List.not_mem_nil id⟩

/-- A walker that is not exhausted produces one unfolding more. -/
theorem next (h : Enumerated f root us w) (hf : f.Exact tokens trimmed) (hescape : f.NeedsNoEscape)
    (hroots : f.roots = [root]) (hroot : root < f.size) (hopen : w.exhausted = false) :
    ∃ u, Enumerated f root (us ++ [u]) w.next.walker ∧ ∃ produced, w.next.result = .ok produced ∧
      produced.derivation = u.listing.map fun (id, i) => (id, some i) := by
  obtain rfl := h.forest_eq
  obtain ⟨hfirst, hstanding⟩ := h.standing hopen
  obtain ⟨u, hu, entries, hmade, hsteps, htrace, hderivation⟩ :=
    walk_traces hf hescape hroots hroot hstanding.admissible
  obtain ⟨hresult, w', hforest, hfirst', hopen', hproduced, hwalker⟩ := next_of_open hopen
  rw [hfirst] at hresult hwalker hfirst'
  rw [htrace] at hwalker
  have hlength : w'.produced = (us ++ [u]).length := by rw [hproduced, h.produced_eq, List.length_append]; rfl
  have hnodup : (us ++ [u]).Nodup := h.nodup.append (List.nodup_singleton u)
    (List.disjoint_singleton.mpr (hstanding.notMem hu hmade hsteps))
  have hsubset : ∀ v ∈ us ++ [u], v ∈ w.forest.unfoldings root :=
    List.forall_mem_append.mpr ⟨h.subset, List.forall_mem_singleton.mpr hu⟩
  refine ⟨u, ?_, _, hresult, hderivation⟩
  rw [hwalker]
  rcases w'.planNext_cases entries.reverse with ⟨later, c, earlier, hsplit, hlater, hc, hnext⟩ | ⟨hall, hnext⟩
  · rw [hnext]
    obtain rfl : entries = earlier.reverse ++ c :: later.reverse := by
      rw [← List.reverse_reverse entries, hsplit]
      simp
    refine ⟨hforest, hlength, hnodup, hsubset, fun hexhausted => ?_, fun _ => ⟨hfirst', ?_⟩⟩
    · exact absurd (hopen'.symm.trans hexhausted) Bool.false_ne_true
    · exact hstanding.renew hf hroot hu hmade hsteps (fun e he => hlater e (List.mem_reverse.mp he)) hc
  · rw [hnext]
    refine ⟨hforest, hlength, hnodup, hsubset, fun _ v hv => ?_, fun hopen'' => ?_⟩
    · rw [← hstanding.done_iff hf hroot hu hmade hsteps hv]
      exact done_of_isExhausted (hmade.sound hstanding.planned) (fun e he => hall e (List.mem_reverse.mpr he))
        (hsteps ▸ hf.parallel_choices hroot hu hv) (hf.choices_admissible hroot hv)
    · simp [hfirst', hforest, hroots] at hopen''

omit [DecidableEq α] in
open Classical in
theorem encard_produced (h : Enumerated f root us w) : {u | u ∈ us}.encard = us.length := by
  rw [← List.coe_toFinset, Set.encard_coe_eq_coe_finsetCard, List.toFinset_card_of_nodup h.nodup]

theorem length_le (h : Enumerated f root us w) (hf : f.Exact tokens trimmed) (hroot : root < f.size) :
    us.length ≤ f.count root := by
  have hcard := (Set.encard_le_encard h.subset).trans (hf.encard_unfoldings_le hroot)
  exact Nat.cast_le.mp (h.encard_produced ▸ hcard)

/-- A walker is exhausted when it has produced as many trees as the count says. -/
theorem exhausted_iff (h : Enumerated f root us w) (hf : f.Exact tokens trimmed) (hplain : f.NoEmptyLoops)
    (hroots : f.roots = [root]) (hroot : root < f.size) : w.exhausted = true ↔ us.length = f.count root := by
  constructor
  · intro hexhausted
    have hall : {u | u ∈ us} = f.unfoldings root :=
      Set.ext fun u => ⟨h.subset u, h.complete hexhausted u⟩
    have hcard := h.encard_produced
    rw [hall, hf.encard_unfoldings hplain hroot] at hcard
    exact (Nat.cast_inj.mp hcard).symm
  · intro hlength
    by_contra hopen
    obtain ⟨u, hmore, -⟩ := h.next hf hplain.needsNoEscape hroots hroot (Bool.not_eq_true _ ▸ hopen)
    have hle := hmore.length_le hf hroot
    rw [List.length_append, hlength] at hle
    exact absurd hle (Nat.not_succ_le_self _)

theorem hasMore_iff (h : Enumerated f root us w) (hf : f.Exact tokens trimmed) (hplain : f.NoEmptyLoops)
    (hroots : f.roots = [root]) (hroot : root < f.size) : w.hasMore = true ↔ us.length < f.count root := by
  have hle := h.length_le hf hroot
  rw [hasMore, Bool.not_eq_true', ← Bool.not_eq_true, h.exhausted_iff hf hplain hroots hroot]
  exact ⟨Nat.lt_of_le_of_ne hle, Nat.ne_of_lt⟩

/-- What remains is the number of trees that have not been produced. -/
theorem remaining_eq (h : Enumerated f root us w) (hf : f.Exact tokens trimmed) (hplain : f.NoEmptyLoops)
    (hroots : f.roots = [root]) (hroot : root < f.size) : w.remaining = f.count root - us.length := by
  have htotal : w.forest.total = f.count root := by simp [h.forest_eq, Forest.total, hroots]
  rw [remaining, h.produced_eq, htotal]
  split
  · rename_i hexhausted
    rw [(h.exhausted_iff hf hplain hroots hroot).mp hexhausted, Nat.sub_self]
  · rfl

/-- After some calls, a walker has produced as many unfoldings, or all of them. -/
theorem after (hf : f.Exact tokens trimmed) (hplain : f.NoEmptyLoops) (hroots : f.roots = [root]) (hroot : root < f.size)
    (selector : Selector σ) (n : Nat) :
    ∃ us, us.length = min n (f.count root) ∧ Enumerated f root us ((Walker.new f selector).after n) ∧
      ∀ k u, us[k]? = some u → ∃ produced, ((Walker.new f selector).after k).next.result = .ok produced ∧
        produced.derivation = u.listing.map fun (id, i) => (id, some i) := by
  induction n with
  | zero => exact ⟨[], by simp, .new hroots selector, by simp⟩
  | succ n ih =>
    obtain ⟨us, hlength, hus, hproduced⟩ := ih
    cases hexhausted : ((Walker.new f selector).after n).exhausted with
    | true =>
      have hall := (hus.exhausted_iff hf hplain hroots hroot).mp hexhausted
      refine ⟨us, by omega, ?_, hproduced⟩
      rw [Walker.after, next_of_exhausted hexhausted]
      exact hus
    | false =>
      obtain ⟨u, hmore, hnext⟩ := hus.next hf hplain.needsNoEscape hroots hroot hexhausted
      have hle := hmore.length_le hf hroot
      have hsize : (us ++ [u]).length = us.length + 1 := List.length_append
      obtain rfl : us.length = n := by omega
      refine ⟨us ++ [u], by omega, hmore, fun k v hget => ?_⟩
      by_cases hk : k < us.length
      · exact hproduced k v (List.getElem?_append_left hk ▸ hget)
      · rw [List.getElem?_append_right (Nat.not_lt.mp hk), List.getElem?_singleton] at hget
        obtain ⟨hzero, hv⟩ := Option.ite_none_right_eq_some.mp hget
        obtain rfl : k = us.length := Nat.le_antisymm (Nat.sub_eq_zero_iff_le.mp hzero) (Nat.not_lt.mp hk)
        cases hv
        exact hnext

end Enumerated
end Walker

namespace Sample

/-- `S → S S | S | 'a'`: every node of `S` has a loop, and every node covers input. -/
def chains : Prepared Char :=
  prepare [(0, [.nonterminal 0, .nonterminal 0]), (0, [.nonterminal 0]), (0, [.terminal 0])]

/-- Answers with the number of questions asked before, which may be out of range or tried already. -/
def counting : Selector Nat where
  initial := 0
  select := fun _ _ asked => (⟨asked, true⟩, asked + 1)

end Sample

namespace Recognizer

variable [DecidableEq α] [Quote α]

/-- Over a forest without loops over no input, a walker enumerates the unfoldings of the root, whatever the selector does: each
once, all of them, as many as the total says, and then no more. Before each call, what remains is the number of trees
still to come. A forest without loops is such a forest. -/
theorem walker_enumerates (r : Recognizer α) (hp : r.grammar.Built) (input : Array α) (offset : Nat) {f : Forest α}
    (hf : (r.parseFrom input offset).outcome.forest = some f) (selector : Selector σ) :
    (f.isInfinite = false → f.NoEmptyLoops) ∧
    (f.NoEmptyLoops → ∃ root, f.roots = [root] ∧ ∃ us : List Unfolding,
      us.length = f.total ∧ (us.map Unfolding.listing).Nodup ∧ (∀ u, u ∈ us ↔ Unfolds f [u] [root]) ∧
      ∀ n, (((Walker.new f selector).after n).hasMore = true ↔ n < f.total) ∧
        ((Walker.new f selector).after n).remaining = f.total - n ∧
        (∀ u, us[n]? = some u → ∃ produced, ((Walker.new f selector).after n).next.result = .ok produced ∧
          produced.derivation = u.listing.map fun (id, family) => (id, some family)) ∧
        (f.total ≤ n → ((Walker.new f selector).after n).next.result = .error .noMoreTrees)) := by
  obtain ⟨-, -, trimmed, hexact⟩ := r.exists_exact hp input offset hf
  refine ⟨hexact.noEmptyLoops, fun hplain => ?_⟩
  obtain ⟨root, hroots, hroot, -⟩ := hexact.root
  have htotal : f.total = f.count root := by simp [Forest.total, hroots]
  rw [htotal]
  -- after as many calls as the total says, the walker has produced everything
  obtain ⟨us, hlength, hus, hproduced⟩ := Walker.Enumerated.after hexact hplain hroots hroot selector (f.count root)
  rw [Nat.min_self] at hlength
  have hexhausted := (hus.exhausted_iff hexact hplain hroots hroot).mpr hlength
  refine ⟨root, hroots, us, hlength, ?_, fun u => ⟨hus.subset u, hus.complete hexhausted u⟩, fun n => ?_⟩
  · refine (List.nodup_map_iff_inj_on hus.nodup).mpr fun u hu v hv heq => ?_
    exact hexact.eq_of_choices hroot (hus.subset u hu) (hus.subset v hv) (congrArg f.choices heq)
  · obtain ⟨vs, hlength', hvs, -⟩ := Walker.Enumerated.after hexact hplain hroots hroot selector n
    refine ⟨?_, ?_, fun u hu => hproduced n u hu, fun hn => ?_⟩
    · rw [hvs.hasMore_iff hexact hplain hroots hroot, hlength', min_lt_iff]
      exact or_iff_left (Nat.lt_irrefl _)
    · rw [hvs.remaining_eq hexact hplain hroots hroot, hlength']
      omega
    · rw [Nat.min_eq_right hn] at hlength'
      rw [Walker.next_of_exhausted ((hvs.exhausted_iff hexact hplain hroots hroot).mpr hlength')]

/-- The five sums of four letters, from a cyclic forest and a selector that counts up, whatever it is asked. -/
theorem walker_enumerates_chains : ∃ (f : Forest Char) (root : NodeId) (us : List Unfolding),
    (parseFrom ⟨Sample.chains, .earley {}, none⟩ #['a', 'a', 'a', 'a'] 0).outcome.forest = some f ∧ f.isInfinite = true ∧
    f.NoEmptyLoops ∧ us.length = 5 ∧ (∀ u, u ∈ us ↔ Unfolds f [u] [root]) ∧
    ((Walker.new f Sample.counting).after 3).remaining = 2 ∧
    ((Walker.new f Sample.counting).after 5).next.result = .error .noMoreTrees := by
  have hread : (parseFrom ⟨Sample.chains, .earley {}, none⟩ #['a', 'a', 'a', 'a'] 0).outcome.forest.map
      (fun f => (f.isInfinite, decide f.NoEmptyLoops, f.total)) = some (true, true, 5) := by decide +kernel
  obtain ⟨f, hf, hfacts⟩ := Option.map_eq_some_iff.mp hread
  simp only [Prod.mk.injEq, decide_eq_true_eq] at hfacts
  obtain ⟨hinfinite, hplain, htotal⟩ := hfacts
  obtain ⟨root, -, us, hlength, -, hus, hcalls⟩ := (walker_enumerates ⟨Sample.chains, .earley {}, none⟩
    (Sample.built_prepare _) #['a', 'a', 'a', 'a'] 0 hf Sample.counting).2 hplain
  rw [htotal] at hlength hcalls
  exact ⟨f, root, us, hf, hinfinite, hplain, hlength, hus, (hcalls 3).2.1, (hcalls 5).2.2.2 (Nat.le_refl 5)⟩

end Recognizer
end ContextFree
