-- SUMMARY: Every index that a walker uses is in range, whatever was called before and whatever the selector answers.
import ContextFree.Proofs.Ranges.Forests
import ContextFree.Proofs.Walk.Termination

/-!
# Ranges of walks

A walk goes from nodes to children of their families, so it comes to nodes of the forest only. The families by which it leaves
them are of three origins: they are computed from the node, they were planned for it by an earlier walk over the same
forest, or they are remembered as an escape from it. A plan is checked against the node of its next choice before it is
followed, and the memory is kept by node, so a family is never taken for one of another node.
-/
namespace ContextFree

variable {α σ : Type}

/-- All nodes and families that the walk holds are those of the forest. If the next task is a terminal, its atoms are a slice of
the tokens of the forest. If it is another node, the families among which the walk chooses are families of the node, and so is
the one that it takes, whose children are nodes. -/
structure Tour.InRange (f : Forest α) (selector : Selector σ) (s : Tour α σ) : Prop where
  tasks : ∀ task ∈ s.tasks, task.Within f
  memory : s.walk.memory.Within f
  plan : ∀ c ∈ s.walk.plan, (c.node, c.chosen) ∈ f.places
  trace : ∀ c ∈ s.walk.trace, (c.node, c.chosen) ∈ f.places
  slice : ∀ id tasks, s.tasks = .enter id :: tasks → (f.node id).isTerminal = true →
    (f.node id).left ≤ (f.node id).right ∧ (f.node id).right ≤ f.tokens.size
  usable : ∀ id tasks, s.tasks = .enter id :: tasks → ∀ i ∈ (s.walk.arrive f id).usableFamilies f id, (id, i) ∈ f.places
  chosen : ∀ id tasks, s.tasks = .enter id :: tasks → ∀ i ∈ ((s.walk.arrive f id).choose f selector id).1,
    (id, i) ∈ f.places ∧ ∀ child ∈ f.childrenBy id (some i), child < f.size

/-- A call for the next tree, or for the last one again, starts at a root of the forest. What it produces is what its walk comes
to in the end, and the walk is in range at every step. -/
structure Walker.InRange (f : Forest α) (selector : Selector σ) (w : Walker α σ) : Prop where
  memory : w.memory.Within f
  plan : ∀ c ∈ w.plan, (c.node, c.chosen) ∈ f.places
  next : w.hasMore = true → w.root < f.roots.length ∧
    (∃ walked, Tour.Reaches f selector (w.tour (f.roots.getD w.root 0) w.plan) ⟨[], walked⟩ ∧
      w.next.result = .ok (produce (walked.emit (.endTree walked.madeChoice)))) ∧
    ∀ s, Tour.Reaches f selector (w.tour (f.roots.getD w.root 0) w.plan) s → s.InRange f selector
  replay : ∀ root plan, w.last? = some (root, plan) → root < f.roots.length ∧
    (∃ walked, Tour.Reaches f selector (w.tour (f.roots.getD root 0) plan) ⟨[], walked⟩ ∧
      w.replay.result = .ok (produce (walked.emit (.endTree walked.madeChoice)))) ∧
    ∀ s, Tour.Reaches f selector (w.tour (f.roots.getD root 0) plan) s → s.InRange f selector

variable [DecidableEq α] {f : Forest α} {tokens : Array α} {trimmed : Identity → Prop} {selector : Selector σ}

theorem Tour.Within.inRange {s : Tour α σ} (hf : f.Exact tokens trimmed) (h : s.Within f) : s.InRange f selector := by
  have henter : ∀ {id tasks}, s.tasks = .enter id :: tasks → id < f.size := fun {id tasks} htasks =>
    h.tasks (.enter id) (htasks ▸ List.mem_cons_self)
  exact
    { tasks := h.tasks
      memory := h.memory
      plan := fun c hc => Forest.mem_places_of_admissible (h.lawful.plan c hc)
      trace := fun c hc => Forest.mem_places_of_admissible (h.lawful.trace c hc)
      slice := fun id tasks htasks _ => ⟨Derived.le (hf.derived (henter htasks)), hf.right_le (henter htasks)⟩
      usable := fun id tasks htasks i hi => by
        rw [Walk.usableFamilies_eq] at hi
        exact Forest.mem_places_of_admissible (List.mem_of_mem_filter hi)
      chosen := fun id tasks htasks i hi => by
        have hwithin := Walk.within_choose (w := s.walk.arrive f id) (henter htasks) h.memory h.lawful.plan selector
        exact ⟨hwithin.1 i hi, fun child hchild => hf.childrenBy_lt (henter htasks) hchild⟩ }

namespace Walker

variable {w : Walker α σ} {root : Nat} {plan : List Choice}

/-- A walk that starts at a root with lawful choices stays in range. -/
theorem Reached.inRange_of_reaches (hf : f.Exact tokens trimmed) (hw : Reached f selector w) (hroot : root < f.roots.length)
    (hplan : ∀ c ∈ plan, c.chosen ∈ f.admissible c.node) {s : Tour α σ}
    (hreaches : Tour.Reaches f selector (w.tour (f.roots.getD root 0) plan) s) : s.InRange f selector := by
  obtain rfl := (hw.lawful hf).forest_eq
  have hlt : w.forest.roots.getD root 0 < w.forest.size := by
    obtain ⟨first, hroots, hfirst, -⟩ := hf.root
    rw [hroots] at hroot ⊢
    obtain rfl : root = 0 := Nat.lt_one_iff.mp hroot
    exact hfirst
  exact ((within_tour hlt (hw.orderly hf).memory hplan).reaches hf hreaches).inRange hf

/-- Whatever was called before, the walker is in range. -/
theorem Reached.inRange (hf : f.Exact tokens trimmed) (hw : Reached f selector w) : w.InRange f selector := by
  have hlawful := hw.lawful hf
  have horderly := hw.orderly hf
  have hends : ∀ {root plan}, root < f.roots.length → ∃ walked,
      Tour.Reaches f selector (w.tour (f.roots.getD root 0) plan) ⟨[], walked⟩ ∧
      w.walk root plan = walked.emit (.endTree walked.madeChoice) := by
    intro root plan hroot
    obtain rfl := hlawful.forest_eq
    obtain rfl := horderly.selector_eq
    exact exists_reaches hf hroot plan
  refine ⟨horderly.memory, fun c hc => Forest.mem_places_of_admissible (hlawful.plan c hc), fun hmore => ?_,
    fun root plan hlast => ?_⟩
  · have hopen : w.exhausted = false := by simpa [hasMore] using hmore
    have hroot := hlawful.root_lt hopen
    obtain ⟨walked, hreaches, hwalk⟩ := hends hroot
    refine ⟨hroot, ⟨walked, hreaches, ?_⟩, fun s hs => hw.inRange_of_reaches hf hroot hlawful.plan hs⟩
    rw [(next_of_open hopen).1, hwalk]
  · obtain ⟨hroot, hplan⟩ := hlawful.last hlast
    obtain ⟨walked, hreaches, hwalk⟩ := hends hroot
    refine ⟨hroot, ⟨walked, hreaches, ?_⟩, fun s hs => hw.inRange_of_reaches hf hroot hplan hs⟩
    simp only [Walker.replay, hlast, hwalk]

end Walker
end ContextFree
