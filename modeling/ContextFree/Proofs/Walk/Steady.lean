-- SUMMARY: Forests in which every escape is found again, so that a walk that follows the choices of another one goes the same way.
import ContextFree.Proofs.Walk.Termination

/-!
# Steady forests

The first escape from a node is remembered, and taken again as long as it does not lead to an open node. When it does, the walk
looks for another escape, and what it finds depends on what has been completed and taken so far: another walk that comes to
the node on the same path may find another one. This needs three families, one that is blocked and two to choose from.

A forest is steady if there is no such node: no walk ever needs an escape, or each node over no input has two families at most, or
one without children, which can always be used. In a steady forest a walk that follows the choices of an earlier walk takes
the same escapes and goes the same way.
-/
namespace ContextFree

variable {α σ : Type}

/-! ## Escapes that are found again -/

namespace Walk

variable {f : Forest α} {selector : Selector σ} {id : NodeId} {w w' : Walk α σ} {family? : Option Nat}

/-- A remembered escape that is a way out on one path is one on the same path, also when more is remembered. -/
theorem Alike.rememberedEscape? (h : w.Alike w') (hgrows : w.memory.Grows w'.memory)
    (hremembered : w.rememberedEscape? f id = some family?) : w'.rememberedEscape? f id = some family? := by
  obtain ⟨hget, hfree⟩ := Option.filter_eq_some_iff.mp hremembered
  refine Option.filter_eq_some_iff.mpr ⟨hgrows.escapes hget, ?_⟩
  simpa only [h.leadsBack] using hfree

/-- There is an escape to be found unless all families lead to open nodes. -/
theorem findEscape_eq_none (h : w.findEscape f id = none) {i : Nat} (hi : i < (f.node id).families.size) :
    w.leadsBack ((f.node id).families.getD i .nothing) = true := by
  by_contra hfree
  have hmem : i ∈ (List.range (f.node id).families.size).filter
      fun i => !w.leadsBack ((f.node id).families.getD i .nothing) :=
    List.mem_filter.mpr ⟨List.mem_range.mpr hi, by simpa using hfree⟩
  simp only [findEscape, Option.or_eq_none_iff, List.head?_eq_none_iff] at h
  rw [h.2.2.2] at hmem
  cases hmem

/-- Where one of two families leads to an open node, the escape does not depend on the memory. -/
theorem Alike.findEscape_of_two (h : w.Alike w') (htwo : (f.node id).families.size ≤ 2) {i : Nat}
    (hi : i < (f.node id).families.size) (hblocked : w.leadsBack ((f.node id).families.getD i .nothing) = true) :
    w'.findEscape f id = w.findEscape f id := by
  cases hfound : w.findEscape f id with
  | none =>
    cases hfound' : w'.findEscape f id with
    | none => rfl
    | some j =>
      obtain ⟨hj, hfree⟩ := findEscape_spec hfound'
      rw [h.leadsBack, findEscape_eq_none hfound hj] at hfree
      cases hfree
  | some j =>
    obtain ⟨hj, hfree⟩ := findEscape_spec hfound
    have hne : j ≠ i := by
      rintro rfl
      exact Bool.false_ne_true (hfree.symm.trans hblocked)
    cases hfound' : w'.findEscape f id with
    | none =>
      have hback := findEscape_eq_none hfound' hj
      rw [h.leadsBack, hfree] at hback
      cases hback
    | some k =>
      obtain ⟨hk, hfree'⟩ := findEscape_spec hfound'
      have hne' : k ≠ i := by
        rintro rfl
        rw [h.leadsBack, hblocked] at hfree'
        cases hfree'
      exact congrArg some (by omega)

/-- After an escape that was looked for, there is one to remember, and the family is among those taken. -/
theorem remembers_escape (hforgotten : w.rememberedEscape? f id = none) :
    (∃ first?, (w.escape f id).2.memory.escapes[id]? = some first? ∧
      (w.memory.escapes[id]? = none → first? = w.findEscape f id)) ∧
      ∀ i ∈ w.findEscape f id, (id, i) ∈ (w.escape f id).2.memory.selected := by
  rcases w.escape_cases f id with ⟨family?, hremembered, -⟩ | ⟨-, -, hmemory⟩
  · rw [hforgotten] at hremembered
    cases hremembered
  · rw [hmemory]
    cases w.findEscape f id with
    | none => exact ⟨w.memory.exists_escape id none, by simp⟩
    | some i =>
      refine ⟨w.memory.exists_escape id (some i), fun j hj => ?_⟩
      obtain rfl := Option.some.inj hj
      exact mem_insert_iff.mpr (.inl rfl)

/-- At a node with two families at most, a walk that remembers what another one did there does the same on the same path, and
learns nothing. -/
theorem Alike.escape_of_two (h : w.Alike w') (hwithin : w.memory.Within f) (htwo : (f.node id).families.size ≤ 2)
    (hgrows : (w.escape f id).2.memory.Grows w'.memory) :
    (w'.escape f id).1 = (w.escape f id).1 ∧ (w'.escape f id).2.memory = w'.memory := by
  have hbefore := (w.grows_escape f id).trans hgrows
  have hknown : ∀ {family?}, w'.rememberedEscape? f id = some family? → w'.escape f id = (family?, w') := by
    intro family? hsome
    rw [escape, hsome]
  rcases w.escape_cases f id with ⟨family?, hremembered, heq⟩ | ⟨hforgotten, hfound, -⟩
  · rw [hknown (h.rememberedEscape? hbefore hremembered), heq]
    exact ⟨rfl, rfl⟩
  · rw [hfound]
    obtain ⟨⟨first?, hfirst, hnew⟩, hselected⟩ := remembers_escape hforgotten
    have hfirst' := hgrows.escapes hfirst
    cases hold : w.memory.escapes[id]? with
    | none =>
      -- the escape is the first from this node, and still a way out
      obtain rfl := hnew hold
      have hremembered : w'.rememberedEscape? f id = some (w.findEscape f id) := by
        refine Option.filter_eq_some_iff.mpr ⟨hfirst', ?_⟩
        cases hescape : w.findEscape f id with
        | none => rfl
        | some i => simpa [h.leadsBack] using (findEscape_spec hescape).2
      rw [hknown hremembered]
      exact ⟨rfl, rfl⟩
    | some old? =>
      -- the remembered escape is blocked for both walks, so that there is one way out at most
      obtain rfl : first? = old? := Option.some.inj (hfirst'.symm.trans (hbefore.escapes hold))
      obtain ⟨i, rfl, hblocked⟩ : ∃ i, first? = some i ∧
          w.leadsBack ((f.node id).families.getD i .nothing) = true := by
        rw [Walk.rememberedEscape?, hold, Option.filter_some_eq_none] at hforgotten
        cases first? with
        | none => exact absurd rfl hforgotten
        | some i => exact ⟨i, rfl, by simpa using hforgotten⟩
      have hi := (Forest.mem_places.mp ((hwithin.escapes hold).2 i rfl)).2
      have hsame := h.findEscape_of_two htwo hi hblocked
      rcases w'.escape_cases f id with ⟨family?, hremembered, -⟩ | ⟨-, hfound', hmemory'⟩
      · obtain ⟨hget, hfree⟩ := Option.filter_eq_some_iff.mp hremembered
        obtain rfl := Option.some.inj (hget.symm.trans hfirst')
        rw [Option.all_some, h.leadsBack, hblocked] at hfree
        cases hfree
      · have hmem : id ∈ w'.memory.escapes := Std.TreeMap.mem_iff_isSome_getElem?.mpr (by rw [hfirst']; rfl)
        rw [hfound', hmemory', hsame]
        refine ⟨rfl, ?_⟩
        cases hescape : w.findEscape f id with
        | none => exact WalkMemory.escape_of_mem hmem
        | some j =>
          rw [Option.elim_some, WalkMemory.escape_of_mem hmem]
          exact WalkMemory.select_of_mem (hgrows.selected _ (hselected j hescape))

/-- A choice that a walk makes as another one did, on the same path and remembering what that one did, teaches it nothing. -/
theorem Alike.memory_choose (h : w.Alike w') (hwithin : w.memory.Within f)
    (htwo : w.usableFamilies f id = [] → (f.node id).families.size ≤ 2)
    (hsame : (w'.choose f selector id).1 = (w.choose f selector id).1)
    (hgrows : (w.choose f selector id).2.memory.Grows w'.memory) : (w'.choose f selector id).2.memory = w'.memory := by
  rcases w.choose_memory f selector id with ⟨hnone, heq⟩ | ⟨hne, i, hchosen, hmemory⟩
  · rw [heq] at hgrows
    rw [choose_none (h.usableFamilies id ▸ hnone)]
    exact (h.escape_of_two hwithin (htwo hnone) hgrows).2
  · rcases w'.choose_memory f selector id with ⟨hnone', -⟩ | ⟨-, i', hchosen', hmemory'⟩
    · exact absurd (h.usableFamilies id ▸ hnone') hne
    · obtain rfl := Option.some.inj (hchosen'.symm.trans (hsame.trans hchosen))
      rw [hmemory] at hgrows
      rw [hmemory']
      exact WalkMemory.select_of_mem (hgrows.selected _ (mem_insert_iff.mpr (.inl rfl)))

end Walk

/-! ## Nodes without escapes -/

namespace Forest

/-- No walk needs an escape, or each node over no input has two families at most, or one without children. -/
def Steady (f : Forest α) : Prop :=
  f.NeedsNoEscape ∨ ∀ id < f.size, (f.node id).isEmpty = true →
    (f.node id).families.size ≤ 2 ∨ .nothing ∈ (f.node id).families

instance (f : Forest α) : Decidable f.Steady :=
  inferInstanceAs (Decidable (f.NeedsNoEscape ∨ ∀ id < f.size, (f.node id).isEmpty = true →
    (f.node id).families.size ≤ 2 ∨ .nothing ∈ (f.node id).families))

/-- The nodes in `safe` need no escape on paths of such nodes, and what is above them is among them. The other nodes have two
families at most, or one without children. -/
structure Shelter (f : Forest α) (safe : NodeId → Prop) : Prop where
  upward : ∀ {id family child}, id < f.size → family ∈ (f.node id).families → child ∈ family.children → safe child → safe id
  admissible : ∀ {id}, id < f.size → safe id → (f.node id).families ≠ #[] → 0 < f.count id → f.admissible id ≠ []
  few : ∀ {id}, id < f.size → ¬ safe id → (f.node id).families.size ≤ 2 ∨ .nothing ∈ (f.node id).families

variable [DecidableEq α] {f : Forest α} {tokens : Array α} {trimmed : Identity → Prop} {id : NodeId}

theorem Steady.exists_shelter (h : f.Steady) (hf : f.Exact tokens trimmed) : ∃ safe, f.Shelter safe := by
  rcases h with hescape | hfew
  · refine ⟨fun _ => True, fun _ _ _ _ => trivial, fun hid _ hne hpos => hescape.admissible_ne_nil hf hid hne hpos, ?_⟩
    exact fun _ hsafe => absurd trivial hsafe
  · -- a node that covers input has an admissible family
    refine ⟨f.HasInput, fun hid hfamily hchild hinput => ?_, fun hid hinput hne hpos => ?_, fun hid hempty => ?_⟩
    · have hinside := hf.inside_child hid hfamily hchild
      exact Nat.lt_of_le_of_lt hinside.1 (Nat.lt_of_lt_of_le hinput hinside.2)
    · refine hf.admissible_ne_nil hid hne (fun hempty => ?_) hpos
      exact absurd (beq_iff_eq.mp hempty) (Nat.ne_of_lt hinput)
    · exact hfew _ hid (beq_iff_eq.mpr (Nat.le_antisymm (hf.derived hid).le (Nat.not_lt.mp hempty)))

/-- A family without children is admissible. -/
theorem Exact.exists_admissible_of_nothing (h : f.Exact tokens trimmed) (hid : id < f.size)
    (hnothing : .nothing ∈ (f.node id).families) :
    ∃ i ∈ f.admissible id, (f.node id).families.getD i .nothing = .nothing := by
  obtain ⟨i, hi, hget⟩ := Array.mem_iff_getElem.mp hnothing
  have hget? : (f.node id).families[i]? = some .nothing := by rw [Array.getElem?_eq_getElem hi, hget]
  refine ⟨i, mem_admissible.mpr ⟨.nothing, hget?, fun hloop => ?_, by simp [Family.children]⟩, ?_⟩
  · obtain ⟨family, hfamily, child, hchild, -⟩ := h.exists_loop hid hloop
    obtain rfl := Option.some.inj (hfamily.symm.trans hget?)
    cases hchild
  · rw [Array.getD_eq_getD_getElem?, hget?]
    rfl

end Forest

namespace Tour

/-- What is open is to be left, and the safe nodes that are to be entered have derivations without loops and ranks below
those of the nodes that will be open then. -/
structure Sheltered (f : Forest α) (safe : NodeId → Prop) (s : Tour α σ) : Prop where
  onPath : ∀ a ∈ s.walk.onPath, ∃ family?, .leave a family? ∈ s.tasks
  counts : ∀ id, .enter id ∈ s.tasks → safe id → 0 < f.count id
  ranks : s.tasks.Pairwise fun task later => ∀ id a family?, task = .enter id → later = .leave a family? → safe id →
    f.rank id < f.rank a

variable [DecidableEq α] {f : Forest α} {tokens : Array α} {trimmed : Identity → Prop} {selector : Selector σ}
  {s s' : Tour α σ} {safe : NodeId → Prop} {id : NodeId} {tasks : List Task}

namespace Sheltered

omit [DecidableEq α] in
/-- A walk that comes to a safe node is ready for it. -/
theorem ready (h : s.Sheltered f safe) (htasks : s.tasks = .enter id :: tasks) (hsafe : safe id) :
    (s.walk.opening f id).Ready f (f.rank id + 1) id := by
  obtain ⟨hpath, hcounts, hranks⟩ := h
  rw [htasks] at hpath hcounts hranks
  refine ⟨hcounts id List.mem_cons_self hsafe, Nat.lt_succ_self _, fun {a} ha => ?_⟩
  obtain ⟨family?, hleave⟩ := hpath a ha
  have hlater := (List.mem_cons.mp hleave).resolve_left (by simp)
  exact (List.pairwise_cons.mp hranks).1 _ hlater id a family? rfl rfl hsafe

/-- A node without a usable family has two families at most. -/
theorem few (h : s.Sheltered f safe) (hf : f.Exact tokens trimmed) (hshelter : f.Shelter safe) (hid : id < f.size)
    (htasks : s.tasks = .enter id :: tasks) (hterminal : (f.node id).isTerminal = false)
    (hnone : (s.walk.arrive f id).usableFamilies f id = []) : (f.node id).families.size ≤ 2 := by
  by_cases hsafe : safe id
  · have hready := h.ready htasks hsafe
    have hne := hshelter.admissible hid hsafe (hf.families_ne_empty hid hterminal) hready.count_pos
    exact absurd ((hready.usableFamilies_eq hf hid).symm.trans hnone) hne
  · refine (hshelter.few hid hsafe).resolve_right fun hnothing => ?_
    obtain ⟨i, hi, hget⟩ := hf.exists_admissible_of_nothing hid hnothing
    have hmem : i ∈ (s.walk.arrive f id).usableFamilies f id := by
      rw [Walk.usableFamilies_eq, List.mem_filter, hget]
      exact ⟨hi, rfl⟩
    rw [hnone] at hmem
    cases hmem

theorem step (h : s.Sheltered f safe) (hf : f.Exact tokens trimmed) (hshelter : f.Shelter safe) (hwithin : s.Within f) :
    (s.step f selector).Sheltered f safe := by
  rcases step_cases f selector s with ⟨-, heq⟩ | ⟨id, tasks, htasks, -, heq⟩ | ⟨id, tasks, htasks, hterminal, heq⟩ |
    ⟨id, family?, tasks, htasks, heq⟩
  · rwa [heq]
  · obtain ⟨hpath, hcounts, hranks⟩ := h
    rw [htasks] at hpath hcounts hranks
    rw [heq]
    refine ⟨fun a ha => ?_, fun id hid => hcounts id (List.mem_cons_of_mem _ hid), (List.pairwise_cons.mp hranks).2⟩
    obtain ⟨family?, hleave⟩ := hpath a ha
    exact ⟨family?, (List.mem_cons.mp hleave).resolve_left (by simp)⟩
  · have hready := h.ready htasks
    obtain ⟨hid, -⟩ := List.forall_mem_cons.mp (htasks ▸ hwithin.tasks)
    have hopening : (s.walk.opening f id).Lawful f := ⟨hwithin.lawful.plan, hwithin.lawful.trace⟩
    -- a safe child is below a safe node, which is derived by an admissible family
    have hchild : ∀ child ∈ f.childrenBy id ((s.walk.arrive f id).choose f selector id).1, safe child →
        0 < f.count child ∧ safe id ∧ f.rank child < f.rank id := by
      intro child hchild hsafe
      obtain ⟨i, family, hchosen, hget, hmem⟩ := Forest.exists_family_of_childrenBy hchild
      have hsafe' := hshelter.upward hid (Array.mem_of_getElem? hget) hmem hsafe
      have hne := hshelter.admissible hid hsafe' (hf.families_ne_empty hid hterminal) (hready hsafe').count_pos
      obtain ⟨i', hi', hchosen'⟩ := hopening.exists_admissible hf hid hne (hready hsafe') selector
      obtain rfl : i = i' := Option.some.inj (hchosen.symm.trans hchosen')
      obtain ⟨hforward, hcounts⟩ := Forest.forward_of_admissible hi'
      rw [Array.getD_eq_getD_getElem?, hget, Option.getD_some] at hforward hcounts
      exact ⟨hcounts child hmem, hsafe', hf.rank_lt hid ⟨family, hforward, hmem⟩⟩
    obtain ⟨hpath, hcounts, hranks⟩ := h
    rw [htasks] at hpath hcounts hranks
    obtain ⟨hhead, htail⟩ := List.pairwise_cons.mp hranks
    rw [heq]
    refine ⟨fun a ha => ?_, fun c hc hsafe => ?_, List.pairwise_append.mpr ⟨?_, List.pairwise_cons.mpr ⟨?_, htail⟩, ?_⟩⟩
    · rcases Walk.mem_onPath_follow.mp ha with rfl | ha
      · exact ⟨_, List.mem_append_right _ List.mem_cons_self⟩
      · obtain ⟨family?, hleave⟩ := hpath a ha
        exact ⟨family?, List.mem_append_right _ (List.mem_cons_of_mem _ ((List.mem_cons.mp hleave).resolve_left (by simp)))⟩
    · rcases List.mem_append.mp hc with hc | hc
      · obtain ⟨child, hmem, ⟨⟩⟩ := List.mem_map.mp hc
        exact (hchild c hmem hsafe).1
      · exact hcounts c (List.mem_cons_of_mem _ ((List.mem_cons.mp hc).resolve_left (by simp))) hsafe
    · exact List.pairwise_map.mpr (List.pairwise_of_forall fun c c' id a family? _ hleave => nomatch hleave)
    · rintro later - c a family? ⟨⟩
    · rintro task htask later hlater c a family? rfl rfl hsafe
      obtain ⟨child, hmem, ⟨⟩⟩ := List.mem_map.mp htask
      obtain ⟨-, hsafe', hlt⟩ := hchild c hmem hsafe
      rcases List.mem_cons.mp hlater with heq | hlater
      · cases heq
        exact hlt
      · exact Nat.lt_trans hlt (hhead _ hlater id a family? rfl rfl hsafe')
  · obtain ⟨hpath, hcounts, hranks⟩ := h
    rw [htasks] at hpath hcounts hranks
    rw [heq]
    refine ⟨fun a ha => ?_, fun id hid => hcounts id (List.mem_cons_of_mem _ hid), (List.pairwise_cons.mp hranks).2⟩
    obtain ⟨hne, ha⟩ := Walk.mem_onPath_leave.mp ha
    obtain ⟨family?', hleave⟩ := hpath a ha
    refine ⟨family?', (List.mem_cons.mp hleave).resolve_left ?_⟩
    rintro ⟨⟩
    exact hne rfl

theorem after (h : s.Sheltered f safe) (hf : f.Exact tokens trimmed) (hshelter : f.Shelter safe) (hwithin : s.Within f)
    (n : Nat) : (s.after f selector n).Sheltered f safe := by
  induction n with
  | zero => exact h
  | succ n ih => exact ih.step hf hshelter (hwithin.reaches hf ⟨n, rfl⟩)

/-- A tour that remembers what another one did next escapes alike. -/
theorem escapesAlike (h : s.Sheltered f safe) (hf : f.Exact tokens trimmed) (hshelter : f.Shelter safe)
    (hwithin : s.Within f) (halike : s.walk.Alike s'.walk)
    (hgrows : (s.step f selector).walk.memory.Grows s'.walk.memory) : EscapesAlike f s s' := by
  intro id tasks htasks hterminal hnone
  obtain ⟨hid, -⟩ := List.forall_mem_cons.mp (htasks ▸ hwithin.tasks)
  have hchoose : (s.walk.arrive f id).choose f selector id = (s.walk.arrive f id).escape f id := Walk.choose_none hnone
  rw [step_descend htasks hterminal, descend, hchoose] at hgrows
  exact ((halike.arrive id).escape_of_two hwithin.memory (h.few hf hshelter hid htasks hterminal hnone) hgrows).1

end Sheltered
end Tour

/-! ## Walkers over steady forests -/

namespace Walker

variable [DecidableEq α] {f : Forest α} {tokens : Array α} {trimmed : Identity → Prop} {selector : Selector σ}
  {safe : NodeId → Prop} {v w : Walker α σ} {root : NodeId} {plan : List Choice}

/-- The walk of `v` along a plan is lawful, and never follows a family that leads to an open node. -/
structure Clear (f : Forest α) (selector : Selector σ) (root : NodeId) (v : Walker α σ) (plan : List Choice) : Prop where
  forest_eq : v.forest = f
  selector_eq : v.selector = selector
  memory : v.memory.Within f
  lawful : ∀ c ∈ plan, c.chosen ∈ f.admissible c.node
  clear : (v.tour root plan).ClearFrom f selector 0

theorem sheltered_tour (hf : f.Exact tokens trimmed) (hroots : f.roots = [root]) (hroot : root < f.size)
    (v : Walker α σ) (plan : List Choice) : (v.tour root plan).Sheltered f safe := by
  refine ⟨fun a ha => absurd ha Std.TreeSet.not_mem_emptyc, fun id hid _ => ?_, List.pairwise_singleton ..⟩
  cases List.mem_singleton.mp hid
  exact hf.count_root_pos hroots hroot

namespace Clear

omit [DecidableEq α] in
theorem within (h : v.Clear f selector root plan) (hroot : root < f.size) : (v.tour root plan).Within f := by
  obtain ⟨rfl, -, hmemory, hlawful, -⟩ := h
  exact within_tour hroot hmemory hlawful

theorem reaches (h : v.Clear f selector root plan) (hf : f.Exact tokens trimmed) (hroot : root < f.size) :
    Tour.Reaches f selector (v.tour root plan) ⟨[], v.visited root plan⟩ := by
  obtain ⟨rfl, rfl, -⟩ := h
  exact tour_reaches_visited hf hroot plan

/-- A walk along the choices of a clear walk, by a walker that remembers what that one did, escapes alike. -/
theorem escapesAlike (h : v.Clear f selector root plan) (hf : f.Exact tokens trimmed) (hshelter : f.Shelter safe)
    (hroots : f.roots = [root]) (hroot : root < f.size) (hgrows : (v.visited root plan).memory.Grows w.memory)
    {made rest plan' : List Choice} (k : Nat)
    (hinstep : Tour.InStep made rest ((v.tour root plan).after f selector k) ((w.tour root plan').after f selector k)) :
    Tour.EscapesAlike f ((v.tour root plan).after f selector k) ((w.tour root plan').after f selector k) := by
  obtain ⟨n, hn⟩ := h.reaches hf hroot
  have hwithin := h.within hroot
  have hrest := (Tour.reaches_of_halted (s := v.tour root plan) (m := n) (by rw [hn]) (k + 1)).grows
  rw [hn] at hrest
  have hlater : w.memory.Grows ((w.tour root plan').after f selector k).walk.memory :=
    Tour.Reaches.grows (s := w.tour root plan') ⟨k, rfl⟩
  exact ((sheltered_tour hf hroots hroot v plan).after hf hshelter hwithin k).escapesAlike hf hshelter
    (hwithin.reaches hf ⟨k, rfl⟩) hinstep.alike (hrest.trans (hgrows.trans hlater))

/-- The next walk after a clear one is clear. -/
theorem renewed (h : v.Clear f selector root plan) (hf : f.Exact tokens trimmed) (hshelter : f.Shelter safe)
    (hroots : f.roots = [root]) (hroot : root < f.size) (hforest : w.forest = f) (hselector : w.selector = selector)
    (hmemory : w.memory.Within f) (hgrows : (v.visited root plan).memory.Grows w.memory) {later earlier : List Choice}
    {c : Choice} (htrace : (v.visited root plan).trace = later ++ c :: earlier)
    (hlawful : ∀ e ∈ earlier.reverse ++ [c.renew], e.chosen ∈ f.admissible e.node) :
    w.Clear f selector root (earlier.reverse ++ [c.renew]) := by
  obtain ⟨n, hn⟩ := h.reaches hf hroot
  have hinstep := inStep_tour (hforest.trans h.forest_eq.symm) root plan earlier.reverse [c.renew]
  refine ⟨hforest, hselector, hmemory, hlawful, ?_⟩
  exact (hinstep.parted (n := n) rfl (by rw [hn, htrace]) (h.escapesAlike hf hshelter hroots hroot hgrows) h.clear).1

end Clear

omit [DecidableEq α] in
/-- A walk without a plan is clear. -/
theorem clear_of_plan (root : NodeId) (hlawful : w.Lawful f) (horderly : w.Orderly f selector) (hplan : w.plan = []) :
    w.Clear f selector root w.plan := by
  refine ⟨hlawful.forest_eq, horderly.selector_eq, horderly.memory, hlawful.plan, ?_⟩
  have hclear : (w.tour root w.plan).ClearFrom f selector w.plan.length :=
    Tour.clearFrom_plan (s := w.tour root w.plan) rfl
  rwa [hplan] at hclear ⊢

/-- The last tree came from a clear walk, whose memory has been kept, and the plan is to renew one of its choices. -/
structure Recalls (f : Forest α) (selector : Selector σ) (root : NodeId) (w : Walker α σ) : Prop where
  last : ∀ {first choices}, w.last? = some (first, choices) → first = 0 ∧ ∃ (v : Walker α σ) (plan : List Choice),
    v.Clear f selector root plan ∧ choices = (v.visited root plan).trace.reverse ∧
    (v.visited root plan).memory.Grows w.memory
  plan : w.plan = [] ∨ ∃ first choices later c earlier, w.last? = some (first, choices) ∧
    choices.reverse = later ++ c :: earlier ∧ w.plan = earlier.reverse ++ [c.renew]

theorem Recalls.clear (h : w.Recalls f selector root) (hf : f.Exact tokens trimmed) (hshelter : f.Shelter safe)
    (hroots : f.roots = [root]) (hroot : root < f.size) (hlawful : w.Lawful f) (horderly : w.Orderly f selector) :
    w.Clear f selector root w.plan := by
  rcases h.plan with hplan | ⟨first, choices, later, c, earlier, hlast, hchoices, hplan⟩
  · exact clear_of_plan root hlawful horderly hplan
  · obtain ⟨-, v, plan, hclear, rfl, hgrows⟩ := h.last hlast
    rw [List.reverse_reverse] at hchoices
    rw [hplan]
    exact hclear.renewed hf hshelter hroots hroot hlawful.forest_eq horderly.selector_eq horderly.memory hgrows hchoices
      (hplan ▸ hlawful.plan)

/-- Over a steady forest, what calls lead to recalls. -/
theorem Reached.recalls (hf : f.Exact tokens trimmed) (hshelter : f.Shelter safe) (hroots : f.roots = [root])
    (hroot : root < f.size) (h : Reached f selector w) : w.Recalls f selector root := by
  induction h with
  | new => exact ⟨by simp [Walker.new], .inl rfl⟩
  | @next w hw ih =>
    cases hopen : w.exhausted with
    | true =>
      rw [next_of_exhausted hopen]
      exact ih
    | false =>
      have hlawful := hw.lawful hf
      have hclear := ih.clear hf hshelter hroots hroot hlawful (hw.orderly hf)
      obtain ⟨-, ⟨later, c, earlier, htrace, -, hnext⟩ | hnext⟩ :=
        next_cases (hlawful.forest_eq ▸ hroots) (hlawful.root_eq hroots hopen) hopen
      · rw [hnext]
        refine ⟨fun hlast => ?_, .inr ⟨0, _, later, c, earlier, rfl, by rw [List.reverse_reverse, htrace], rfl⟩⟩
        cases hlast
        exact ⟨rfl, w, w.plan, hclear, rfl, .refl _⟩
      · rw [hnext]
        refine ⟨fun hlast => ?_, .inl rfl⟩
        cases hlast
        exact ⟨rfl, w, w.plan, hclear, rfl, .refl _⟩
  | @replay w hw ih =>
    have hlawful := hw.lawful hf
    unfold Walker.replay
    split
    · exact ih
    · rename_i first choices hlast
      obtain ⟨rfl, -⟩ := ih.last hlast
      have hgrows : w.memory.Grows (w.walk 0 choices).memory := by
        rw [walk_eq (hlawful.forest_eq ▸ hroots)]
        exact grows_visited (hlawful.forest_eq ▸ hf) (hlawful.forest_eq ▸ hroot) choices
      refine ⟨fun hlast' => ?_, ih.plan⟩
      obtain ⟨hfirst, v, plan, hclear, hchoices, hmemory⟩ := ih.last hlast'
      exact ⟨hfirst, v, plan, hclear, hchoices, hmemory.trans hgrows⟩
  | reset => exact ⟨by simp [Walker.reset, Walker.new], .inl rfl⟩

end Walker
end ContextFree
