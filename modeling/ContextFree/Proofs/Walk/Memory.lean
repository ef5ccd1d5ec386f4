-- SUMMARY: What walks remember: it only grows, and there is only so much of it.
import ContextFree.Proofs.Walk.Tasks

/-!
# The memory of walks

Walks add to the memory and take nothing away: an escape that is remembered stays what it is. There is a bound on what can be
remembered, since all of it is about the families of the forest. So the memory of a walker changes only so many times.
-/
namespace ContextFree

variable {α σ : Type}

/-! ## Search trees -/

section

variable {κ β : Type} [Ord κ] {a : κ}

theorem insert_of_mem {s : Std.TreeSet κ} (h : a ∈ s) : s.insert a = s := by
  obtain ⟨⟨⟨inner, wf⟩⟩⟩ := s
  have hmem : inner.contains a = true := h
  simp only [Std.TreeSet.insert, Std.TreeMap.insertIfNew, Std.DTreeMap.insertIfNew,
    Std.DTreeMap.Internal.Impl.insertIfNew, hmem, if_true]

theorem insertIfNew_of_mem {m : Std.TreeMap κ β} {b : β} (h : a ∈ m) : m.insertIfNew a b = m := by
  obtain ⟨⟨inner, wf⟩⟩ := m
  have hmem : inner.contains a = true := h
  simp only [Std.TreeMap.insertIfNew, Std.DTreeMap.insertIfNew, Std.DTreeMap.Internal.Impl.insertIfNew, hmem, if_true]

end

/-! ## Growth -/

namespace WalkMemory

variable {m m' m'' : WalkMemory} {id : NodeId} {i : Nat}

/-- How much is remembered. -/
def weight (m : WalkMemory) : Nat :=
  m.escapes.size + m.productive.size + m.selected.size

/-- Everything in `m` is in `m'`, and `m'` is `m` if there is nothing else in it. -/
structure Grows (m m' : WalkMemory) : Prop where
  escapes : ∀ {id : NodeId} {family?}, m.escapes[id]? = some family? → m'.escapes[id]? = some family?
  productive : Sub m.productive m'.productive
  selected : Sub m.selected m'.selected
  eq_or_lt : m' = m ∨ m.weight < m'.weight

namespace Grows

theorem refl (m : WalkMemory) : m.Grows m :=
  ⟨id, .refl _, .refl _, .inl rfl⟩

theorem trans (h : m.Grows m') (h' : m'.Grows m'') : m.Grows m'' := by
  refine ⟨fun hmem => h'.escapes (h.escapes hmem), h.productive.trans h'.productive, h.selected.trans h'.selected, ?_⟩
  rcases h.eq_or_lt with rfl | hlt
  · exact h'.eq_or_lt
  · rcases h'.eq_or_lt with rfl | hlt'
    · exact .inr hlt
    · exact .inr (Nat.lt_trans hlt hlt')

/-- What has grown and come back has not changed in between. -/
theorem antisymm (h : m.Grows m') (h' : m'.Grows m) : m' = m := by
  rcases h.eq_or_lt with heq | hlt
  · exact heq
  · rcases h'.eq_or_lt with heq | hlt'
    · exact heq.symm
    · exact absurd (Nat.lt_trans hlt hlt') (Nat.lt_irrefl _)

end Grows

theorem select_of_mem (h : (id, i) ∈ m.selected) : m.select id i = m := by
  rw [select, insert_of_mem h]

theorem complete_of_mem (h : (id, i) ∈ m.productive) : m.complete id i = m := by
  rw [complete, insert_of_mem h]

theorem escape_of_mem {family? : Option Nat} (h : id ∈ m.escapes) : m.escape id family? = m := by
  rw [escape, insertIfNew_of_mem h]

theorem grows_select (m : WalkMemory) (id : NodeId) (i : Nat) : m.Grows (m.select id i) := by
  refine ⟨fun h => h, .refl _, fun a ha => mem_insert_iff.mpr (.inr ha), ?_⟩
  by_cases hmem : (id, i) ∈ m.selected
  · exact .inl (select_of_mem hmem)
  · have hsize : (m.select id i).selected.size = m.selected.size + 1 :=
      Std.TreeSet.size_insert.trans (if_neg hmem)
    exact .inr (Nat.add_lt_add_left (hsize ▸ Nat.lt_succ_self _) _)

theorem grows_complete (m : WalkMemory) (id : NodeId) (i : Nat) : m.Grows (m.complete id i) := by
  refine ⟨fun h => h, fun a ha => mem_insert_iff.mpr (.inr ha), .refl _, ?_⟩
  by_cases hmem : (id, i) ∈ m.productive
  · exact .inl (complete_of_mem hmem)
  · have hsize : (m.complete id i).productive.size = m.productive.size + 1 :=
      Std.TreeSet.size_insert.trans (if_neg hmem)
    exact .inr (Nat.add_lt_add_right (Nat.add_lt_add_left (hsize ▸ Nat.lt_succ_self _) _) _)

theorem grows_escape (m : WalkMemory) (id : NodeId) (family? : Option Nat) : m.Grows (m.escape id family?) := by
  by_cases hmem : id ∈ m.escapes
  · rw [escape_of_mem hmem]
    exact .refl m
  · refine ⟨fun {a _} ha => ?_, .refl _, .refl _, .inr ?_⟩
    · rw [escape, Std.TreeMap.getElem?_insertIfNew, if_neg, ha]
      rintro ⟨heq, -⟩
      obtain rfl := Std.compare_eq_iff_eq.mp heq
      exact hmem (Std.TreeMap.mem_iff_isSome_getElem?.mpr (by rw [ha]; rfl))
    · have hsize : (m.escape id family?).escapes.size = m.escapes.size + 1 :=
        Std.TreeMap.size_insertIfNew.trans (if_neg hmem)
      exact Nat.add_lt_add_right (Nat.add_lt_add_right (hsize ▸ Nat.lt_succ_self _) _) _

/-- An escape is remembered from then on. -/
theorem exists_escape (m : WalkMemory) (id : NodeId) (family? : Option Nat) :
    ∃ first?, (m.escape id family?).escapes[id]? = some first? ∧ (m.escapes[id]? = none → first? = family?) := by
  cases hfirst : m.escapes[id]? with
  | none =>
    refine ⟨family?, ?_, fun _ => rfl⟩
    rw [escape, Std.TreeMap.getElem?_insertIfNew, if_pos]
    refine ⟨Std.compare_self, fun hmem => ?_⟩
    simp [Std.TreeMap.mem_iff_isSome_getElem?, hfirst] at hmem
  | some first? => exact ⟨first?, (m.grows_escape id family?).escapes hfirst, fun h => nomatch h⟩

end WalkMemory

/-! ## Steps -/

namespace Walk

/-- A node with usable families is derived by one of them or by a planned one, and the walk remembers which. A node without
takes an escape. -/
theorem choose_memory (f : Forest α) (selector : Selector σ) (w : Walk α σ) (id : NodeId) :
    w.usableFamilies f id = [] ∧ w.choose f selector id = w.escape f id ∨
      w.usableFamilies f id ≠ [] ∧ ∃ i, (w.choose f selector id).1 = some i ∧
        (w.choose f selector id).2.memory = w.memory.select id i := by
  unfold choose
  split
  · rename_i hnone
    exact .inl ⟨hnone, rfl⟩
  · rename_i i hone
    exact .inr ⟨by simp [hone], i, rfl, rfl⟩
  · rename_i hnone hone
    have hnodup : (w.usableFamilies f id).Nodup := by
      rw [usableFamilies_eq]
      exact (f.nodup_admissible id).filter _
    obtain ⟨hnode, -, memory, notes, hwalk⟩ := makeChoice_spec f selector w id hnone hnodup
    refine .inr ⟨hnone, _, rfl, ?_⟩
    simp only [record, hnode, hwalk]

theorem grows_escape (f : Forest α) (w : Walk α σ) (id : NodeId) : w.memory.Grows (w.escape f id).2.memory := by
  rcases w.escape_cases f id with ⟨family?, -, heq⟩ | ⟨-, -, heq⟩
  · rw [heq]
    exact .refl _
  · rw [heq]
    cases w.findEscape f id with
    | none => exact w.memory.grows_escape id none
    | some i => exact (w.memory.grows_escape id (some i)).trans (WalkMemory.grows_select _ id i)

theorem grows_choose (f : Forest α) (selector : Selector σ) (w : Walk α σ) (id : NodeId) :
    w.memory.Grows (w.choose f selector id).2.memory := by
  rcases w.choose_memory f selector id with ⟨-, heq⟩ | ⟨-, i, -, heq⟩
  · rw [heq]
    exact w.grows_escape f id
  · rw [heq]
    exact w.memory.grows_select id i

theorem grows_depart (f : Forest α) (id : NodeId) (family? : Option Nat) (w : Walk α σ) :
    w.memory.Grows (w.depart f id family?).memory := by
  cases family? with
  | none => exact .refl _
  | some i => exact w.memory.grows_complete id i

end Walk

namespace Tour

variable {f : Forest α} {selector : Selector σ} {s s' : Tour α σ}

/-- Each step adds to the memory. -/
theorem grows_step (f : Forest α) (selector : Selector σ) (s : Tour α σ) :
    s.walk.memory.Grows (s.step f selector).walk.memory := by
  rcases step_cases f selector s with ⟨-, heq⟩ | ⟨id, tasks, -, -, heq⟩ | ⟨id, tasks, -, -, heq⟩ | ⟨id, family?, tasks, -, heq⟩
  · rw [heq]
    exact .refl _
  · rw [heq]
    exact .refl _
  · rw [heq]
    exact (s.walk.arrive f id).grows_choose f selector id
  · rw [heq]
    exact s.walk.grows_depart f id family?

theorem Reaches.grows (h : Reaches f selector s s') : s.walk.memory.Grows s'.walk.memory := by
  obtain ⟨n, rfl⟩ := h
  induction n with
  | zero => exact .refl _
  | succ n ih => exact ih.trans (grows_step f selector _)

end Tour

/-! ## The bound -/

/-- The families of a forest, by node and position. -/
def Forest.places (f : Forest α) : Finset (NodeId × Nat) :=
  ((Finset.range f.size).sigma fun id => Finset.range (f.node id).families.size).image fun place => (place.1, place.2)

theorem Forest.mem_places {f : Forest α} {id : NodeId} {i : Nat} :
    (id, i) ∈ f.places ↔ id < f.size ∧ i < (f.node id).families.size := by
  simp [places]

namespace WalkMemory

variable {f : Forest α} {m : WalkMemory} {id : NodeId} {i : Nat} {family? : Option Nat}

/-- The memory is about families of the forest. -/
structure Within (f : Forest α) (m : WalkMemory) : Prop where
  escapes : ∀ {id : NodeId} {family?}, m.escapes[id]? = some family? → id < f.size ∧ ∀ i ∈ family?, (id, i) ∈ f.places
  productive : ∀ place ∈ m.productive, place ∈ f.places
  selected : ∀ place ∈ m.selected, place ∈ f.places

namespace Within

theorem empty (f : Forest α) : Within f {} :=
  ⟨fun h => by simp at h, fun _ h => absurd h Std.TreeSet.not_mem_emptyc, fun _ h => absurd h Std.TreeSet.not_mem_emptyc⟩

theorem select (h : m.Within f) (hplace : (id, i) ∈ f.places) : (m.select id i).Within f :=
  ⟨h.escapes, h.productive, fun place hmem => (mem_insert_iff.mp hmem).elim (· ▸ hplace) (h.selected place)⟩

theorem complete (h : m.Within f) (hplace : (id, i) ∈ f.places) : (m.complete id i).Within f :=
  ⟨h.escapes, fun place hmem => (mem_insert_iff.mp hmem).elim (· ▸ hplace) (h.productive place), h.selected⟩

theorem escape (h : m.Within f) (hid : id < f.size) (hplace : ∀ i ∈ family?, (id, i) ∈ f.places) :
    (m.escape id family?).Within f := by
  refine ⟨fun {a a?} ha => ?_, h.productive, h.selected⟩
  rw [WalkMemory.escape, Std.TreeMap.getElem?_insertIfNew] at ha
  split at ha
  · rename_i hnew
    obtain rfl := Std.compare_eq_iff_eq.mp hnew.1
    obtain rfl := Option.some.inj ha
    exact ⟨hid, hplace⟩
  · exact h.escapes ha

/-- There is a bound on what is remembered. -/
theorem weight_le (h : m.Within f) : m.weight ≤ f.size + 2 * f.places.card := by
  have hescapes : m.escapes.size ≤ f.size := by
    have hnodup : m.escapes.keys.Nodup := by
      refine Std.TreeMap.distinct_keys.imp fun {a b} hne (heq : a = b) => hne ?_
      rw [heq, Std.ReflOrd.compare_self]
    rw [← Std.TreeMap.length_keys, ← List.length_range (n := f.size)]
    refine (hnodup.subperm fun id hid => List.mem_range.mpr ?_).length_le
    obtain ⟨family?, hget⟩ := Option.isSome_iff_exists.mp
      (Std.TreeMap.mem_iff_isSome_getElem?.mp (Std.TreeMap.mem_keys.mp hid))
    exact (h.escapes hget).1
  have hproductive := size_le_card h.productive
  have hselected := size_le_card h.selected
  rw [weight]
  omega

end Within
end WalkMemory

theorem Forest.mem_places_of_admissible {f : Forest α} {id : NodeId} {i : Nat} (h : i ∈ f.admissible id) :
    (id, i) ∈ f.places := by
  obtain ⟨family, hget, -⟩ := mem_admissible.mp h
  refine mem_places.mpr ⟨?_, (Array.getElem?_eq_some_iff.mp hget).1⟩
  by_contra hge
  rw [node, NodeTable.node, families_getD_of_le (Nat.le_of_not_lt hge)] at hget
  cases hget

namespace Walk

variable {f : Forest α} {selector : Selector σ} {id : NodeId} {w : Walk α σ}

theorem within_escape (hid : id < f.size) (h : w.memory.Within f) :
    (∀ i ∈ (w.escape f id).1, (id, i) ∈ f.places) ∧ (w.escape f id).2.memory.Within f := by
  rcases w.escape_cases f id with ⟨family?, hremembered, heq⟩ | ⟨-, hfound, heq⟩
  · rw [heq]
    exact ⟨(h.escapes (Option.filter_eq_some_iff.mp hremembered).1).2, h⟩
  · have hplace : ∀ i ∈ w.findEscape f id, (id, i) ∈ f.places :=
      fun i hi => Forest.mem_places.mpr ⟨hid, (findEscape_spec hi).1⟩
    rw [hfound, heq]
    refine ⟨hplace, ?_⟩
    cases hescape : w.findEscape f id with
    | none => exact h.escape hid (by simp)
    | some i => exact (h.escape hid (hescape ▸ hplace)).select (hplace i hescape)

/-- What is chosen is a family of the forest. -/
theorem within_choose (hid : id < f.size) (h : w.memory.Within f) (hplan : ∀ c ∈ w.plan, c.chosen ∈ f.admissible c.node)
    (selector : Selector σ) :
    (∀ i ∈ (w.choose f selector id).1, (id, i) ∈ f.places) ∧ (w.choose f selector id).2.memory.Within f := by
  rcases w.choose_memory f selector id with ⟨-, heq⟩ | ⟨hne, i, hchosen, hmemory⟩
  · rw [heq]
    exact within_escape hid h
  · have husable : ∀ {j}, j ∈ w.usableFamilies f id → j ∈ f.admissible id := by
      intro j hj
      rw [usableFamilies_eq] at hj
      exact List.mem_of_mem_filter hj
    have hi : i ∈ f.admissible id := by
      obtain ⟨-, ⟨hnone, -⟩ | ⟨j, hone, hj, -⟩ | ⟨-, e, hnode, hmakes, hj, -⟩⟩ := w.choose_cases f selector id
      · exact absurd hnone hne
      · obtain rfl := Option.some.inj (hchosen.symm.trans hj)
        exact husable (hone ▸ List.mem_singleton.mpr rfl)
      · obtain rfl := Option.some.inj (hchosen.symm.trans hj)
        rw [← hnode] at husable ⊢
        exact hmakes.admissible (fun _ => hnode ▸ husable) fun c hc => hplan c (List.mem_of_mem_head? hc)
    have hplace := Forest.mem_places_of_admissible hi
    rw [hchosen, hmemory]
    exact ⟨fun j hj => Option.some.inj hj ▸ hplace, h.select hplace⟩

end Walk

/-- The task is about a node of the forest and one of its families. -/
def Task.Within (f : Forest α) : Task → Prop
  | enter id         => id < f.size
  | leave id family? => id < f.size ∧ ∀ i ∈ family?, (id, i) ∈ f.places

namespace Tour

/-- All tasks, choices and memories are about families of the forest. -/
structure Within (f : Forest α) (s : Tour α σ) : Prop where
  tasks : ∀ task ∈ s.tasks, task.Within f
  memory : s.walk.memory.Within f
  lawful : s.walk.Lawful f

variable [DecidableEq α] {f : Forest α} {tokens : Array α} {trimmed : Identity → Prop} {selector : Selector σ} {s s' : Tour α σ}

theorem Within.step (hf : f.Exact tokens trimmed) (h : s.Within f) : (s.step f selector).Within f := by
  rcases step_cases f selector s with ⟨-, heq⟩ | ⟨id, tasks, htasks, -, heq⟩ | ⟨id, tasks, htasks, -, heq⟩ |
    ⟨id, family?, tasks, htasks, heq⟩
  · rwa [heq]
  · rw [heq]
    exact ⟨(List.forall_mem_cons.mp (htasks ▸ h.tasks)).2, h.memory, h.lawful.emit _⟩
  · rw [heq]
    obtain ⟨hid, hrest⟩ := List.forall_mem_cons.mp (htasks ▸ h.tasks)
    have harrive : (s.walk.arrive f id).Lawful f := ⟨h.lawful.plan, h.lawful.trace⟩
    have hchoose := harrive.choose selector id
    obtain ⟨hplaces, hmemory⟩ := Walk.within_choose (w := s.walk.arrive f id) hid h.memory h.lawful.plan selector
    refine ⟨List.forall_mem_append.mpr ⟨fun task htask => ?_, List.forall_mem_cons.mpr ⟨⟨hid, hplaces⟩, hrest⟩⟩, hmemory,
      ⟨hchoose.plan, hchoose.trace⟩⟩
    obtain ⟨child, hchild, rfl⟩ := List.mem_map.mp htask
    exact hf.childrenBy_lt hid hchild
  · rw [heq]
    obtain ⟨⟨hid, hplaces⟩, hrest⟩ := List.forall_mem_cons.mp (htasks ▸ h.tasks)
    refine ⟨hrest, ?_, ?_, ?_⟩
    · cases family? with
      | none => exact h.memory
      | some i => exact h.memory.complete (hplaces i rfl)
    · rw [Walk.plan_depart]
      exact h.lawful.plan
    · rw [Walk.trace_depart]
      exact h.lawful.trace

theorem Within.reaches (hf : f.Exact tokens trimmed) (h : s.Within f) (hreaches : Reaches f selector s s') : s'.Within f := by
  obtain ⟨n, rfl⟩ := hreaches
  induction n with
  | zero => exact h
  | succ n ih => exact ih.step hf

end Tour

end ContextFree
