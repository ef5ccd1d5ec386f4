-- SUMMARY: A walk as a loop over a stack of tasks, and why the loop always ends.
import ContextFree.Proofs.Walk.ParseTrees

/-!
# Walks as loops

A walk can be told as a loop without recursion: there is a stack of tasks, to enter a node or to leave it, and each step takes
the first one. Entering a node puts its children on the stack. The loop says nothing about how deep it goes.

It ends all the same. A family that leads back to an open node is never chosen afresh, it only comes from the plan, where
choices may be left from a walk that came to the node on another path. Each choice of the plan is used once. So a path grows by
nodes that are not open yet, of which there are as many as the forest has, and by two nodes at most for each choice of the
plan. That many levels are enough for `visit` to do all that the loop does.
-/
namespace ContextFree

variable {α σ : Type}

/-- Something that a walk has still to do. -/
inductive Task where
  | enter (id : NodeId)
  /-- Leave a node that was derived by the given family. -/
  | leave (id : NodeId) (family? : Option Nat)
deriving DecidableEq

/-- The children of a node by one of its families. -/
def Forest.childrenBy (f : Forest α) (id : NodeId) (family? : Option Nat) : List NodeId :=
  (family?.map fun i => ((f.node id).families.getD i .nothing).children).getD []

namespace Walk

/-- Report the atoms of a terminal. -/
def report (f : Forest α) (id : NodeId) (w : Walk α σ) : Walk α σ :=
  w.emit (.token (f.tokens.extract (f.node id).left (f.node id).right).toList (f.attributesOf id) (f.span id))

/-- Report the beginning of a nonterminal. Other nodes begin without a report. -/
def opening (f : Forest α) (id : NodeId) (w : Walk α σ) : Walk α σ :=
  { w with
    events := match (f.node id).label with
      | .symbol (.nonterminal A) =>
        w.events.push (.opening (f.grammar.grammar.nonterminalName A) (f.attributesOf id) (f.span id))
      | _ => w.events }

/-- Report the end of a nonterminal. -/
def closing (f : Forest α) (id : NodeId) (w : Walk α σ) : Walk α σ :=
  { w with
    events := match (f.node id).label with
      | .symbol (.nonterminal A) =>
        w.events.push (.closing (f.grammar.grammar.nonterminalName A) (f.attributesOf id) (f.span id))
      | _ => w.events }

/-- Come to an inner node. -/
def arrive (f : Forest α) (id : NodeId) (w : Walk α σ) : Walk α σ :=
  (w.opening f id).enter id

/-- Go from an inner node that was derived by the given family. -/
def depart (f : Forest α) (id : NodeId) (family? : Option Nat) (w : Walk α σ) : Walk α σ :=
  (w.leave id family?).closing f id

theorem onPath_depart (f : Forest α) (id : NodeId) (family? : Option Nat) (w : Walk α σ) :
    (w.depart f id family?).onPath = w.onPath.erase id := by
  cases family? <;> rfl

theorem plan_depart (f : Forest α) (id : NodeId) (family? : Option Nat) (w : Walk α σ) :
    (w.depart f id family?).plan = w.plan := by
  cases family? <;> rfl

theorem trace_depart (f : Forest α) (id : NodeId) (family? : Option Nat) (w : Walk α σ) :
    (w.depart f id family?).trace = w.trace := by
  cases family? <;> rfl

end Walk

/-- A walk with the tasks that are left, the next one first. -/
structure Tour (α σ : Type) where
  tasks : List Task
  walk : Walk α σ

namespace Tour

/-- Enter an inner node: choose a family, and see to its children before anything else. -/
def descend (f : Forest α) (selector : Selector σ) (id : NodeId) (tasks : List Task) (w : Walk α σ) : Tour α σ :=
  let chosen := (w.arrive f id).choose f selector id
  ⟨(f.childrenBy id chosen.1).map .enter ++ .leave id chosen.1 :: tasks, chosen.2.follow id chosen.1⟩

/-- See to the next task. -/
def step (f : Forest α) (selector : Selector σ) : Tour α σ → Tour α σ
  | ⟨[], w⟩ => ⟨[], w⟩
  | ⟨.enter id :: tasks, w⟩ =>
    if (f.node id).isTerminal then ⟨tasks, w.report f id⟩ else descend f selector id tasks w
  | ⟨.leave id family? :: tasks, w⟩ => ⟨tasks, w.depart f id family?⟩

/-- The tour after some steps. -/
def after (f : Forest α) (selector : Selector σ) (s : Tour α σ) : Nat → Tour α σ
  | 0     => s
  | n + 1 => (after f selector s n).step f selector

variable {f : Forest α} {selector : Selector σ} {s s' s'' : Tour α σ} {id : NodeId} {tasks : List Task}
  {w : Walk α σ} {m n : Nat}

theorem after_add (s : Tour α σ) (m n : Nat) :
    s.after f selector (m + n) = (s.after f selector m).after f selector n := by
  induction n with
  | zero => rfl
  | succ n ih => rw [← Nat.add_assoc, after, ih, after]

theorem after_of_halted (h : s.tasks = []) (n : Nat) : s.after f selector n = s := by
  induction n with
  | zero => rfl
  | succ n ih =>
    obtain ⟨tasks, w⟩ := s
    obtain rfl : tasks = [] := h
    rw [after, ih]
    rfl

/-- However many steps are taken, a tour that halts halts in one way. -/
theorem eq_of_halted (hm : (s.after f selector m).tasks = []) (hn : (s.after f selector n).tasks = []) :
    s.after f selector m = s.after f selector n := by
  rcases Nat.le_total m n with hle | hle
  · obtain ⟨d, rfl⟩ := Nat.exists_eq_add_of_le hle
    rw [after_add, after_of_halted hm]
  · obtain ⟨d, rfl⟩ := Nat.exists_eq_add_of_le hle
    rw [after_add, after_of_halted hn]

theorem step_terminal (h : (f.node id).isTerminal = true) (tasks : List Task) (w : Walk α σ) :
    step f selector ⟨.enter id :: tasks, w⟩ = ⟨tasks, w.report f id⟩ := by
  rw [step, if_pos h]

theorem step_inner (h : (f.node id).isTerminal = false) (tasks : List Task) (w : Walk α σ) :
    step f selector ⟨.enter id :: tasks, w⟩ = descend f selector id tasks w := by
  rw [step, if_neg (by simp [h])]

theorem step_descend (htasks : s.tasks = .enter id :: tasks) (h : (f.node id).isTerminal = false) :
    s.step f selector = descend f selector id tasks s.walk := by
  obtain ⟨_, w⟩ := s
  obtain rfl := htasks
  exact step_inner h tasks w

theorem step_leave {family? : Option Nat} (htasks : s.tasks = .leave id family? :: tasks) :
    s.step f selector = ⟨tasks, s.walk.depart f id family?⟩ := by
  obtain ⟨_, w⟩ := s
  obtain rfl := htasks
  rfl

/-- What a step can be. -/
theorem step_cases (f : Forest α) (selector : Selector σ) (s : Tour α σ) :
    s.tasks = [] ∧ s.step f selector = s ∨
    (∃ id tasks, s.tasks = .enter id :: tasks ∧ (f.node id).isTerminal = true ∧
      s.step f selector = ⟨tasks, s.walk.report f id⟩) ∨
    (∃ id tasks, s.tasks = .enter id :: tasks ∧ (f.node id).isTerminal = false ∧
      s.step f selector = descend f selector id tasks s.walk) ∨
    ∃ id family? tasks, s.tasks = .leave id family? :: tasks ∧ s.step f selector = ⟨tasks, s.walk.depart f id family?⟩ := by
  obtain ⟨tasks, w⟩ := s
  match tasks with
  | [] => exact .inl ⟨rfl, rfl⟩
  | .enter id :: tasks =>
    cases hterminal : (f.node id).isTerminal with
    | true => exact .inr (.inl ⟨id, tasks, rfl, hterminal, step_terminal hterminal tasks w⟩)
    | false => exact .inr (.inr (.inl ⟨id, tasks, rfl, hterminal, step_inner hterminal tasks w⟩))
  | .leave id family? :: tasks => exact .inr (.inr (.inr ⟨id, family?, tasks, rfl, rfl⟩))

/-- Some steps lead from `s` to `s'`. -/
def Reaches (f : Forest α) (selector : Selector σ) (s s' : Tour α σ) : Prop :=
  ∃ n, s.after f selector n = s'

theorem Reaches.refl (s : Tour α σ) : Reaches f selector s s := ⟨0, rfl⟩

theorem Reaches.step (s : Tour α σ) : Reaches f selector s (s.step f selector) := ⟨1, rfl⟩

/-- A tour that halts leads to its end from every point on the way. -/
theorem reaches_of_halted (hm : (s.after f selector m).tasks = []) (n : Nat) :
    Reaches f selector (s.after f selector n) (s.after f selector m) := by
  rcases Nat.le_total n m with hle | hle
  · obtain ⟨d, rfl⟩ := Nat.exists_eq_add_of_le hle
    exact ⟨d, (after_add s n d).symm⟩
  · obtain ⟨d, rfl⟩ := Nat.exists_eq_add_of_le hle
    rw [after_add, after_of_halted hm]
    exact .refl _

theorem Reaches.trans (h : Reaches f selector s s') (h' : Reaches f selector s' s'') : Reaches f selector s s'' := by
  obtain ⟨m, rfl⟩ := h
  obtain ⟨n, rfl⟩ := h'
  exact ⟨m + n, after_add s m n⟩

end Tour

namespace Walk

variable {f : Forest α} {selector : Selector σ} {id : NodeId} {w : Walk α σ} {i : Nat}

/-- A visit reports a terminal, or opens a node, goes through the children and closes the node. -/
theorem visit_eq (f : Forest α) (selector : Selector σ) (depth : Nat) (id : NodeId) (w : Walk α σ) :
    visit f selector (depth + 1) id w =
      if (f.node id).isTerminal then w.report f id
      else
        let chosen := (w.arrive f id).choose f selector id
        ((f.childrenBy id chosen.1).foldl (fun w child => visit f selector depth child w)
          (chosen.2.follow id chosen.1)).depart f id chosen.1 := by
  rw [visit_succ]
  unfold arrive depart opening closing
  rcases hlabel : (f.node id).label with (t | A) | slot
  · rw [if_pos (by rw [Node.isTerminal, hlabel]; rfl)]
    rfl
  · rw [if_neg (by rw [Node.isTerminal, hlabel]; exact Bool.false_ne_true)]
    rfl
  · rw [if_neg (by rw [Node.isTerminal, hlabel]; exact Bool.false_ne_true)]
    rfl


/-! ## Families that lead back -/

/-- An escape that is looked for is a family that does not lead to an open node. -/
theorem findEscape_spec (h : w.findEscape f id = some i) :
    i < (f.node id).families.size ∧ w.leadsBack ((f.node id).families.getD i .nothing) = false := by
  have hmem : i ∈ (List.range (f.node id).families.size).filter
      fun i => !w.leadsBack ((f.node id).families.getD i .nothing) := by
    simp only [findEscape, Option.or_eq_some_iff] at h
    rcases h with h | ⟨-, h | ⟨-, h | ⟨-, h⟩⟩⟩
    · exact List.mem_of_find?_eq_some h
    · exact List.mem_of_find?_eq_some h
    · exact List.mem_of_find?_eq_some h
    · exact List.mem_of_mem_head? h
  obtain ⟨hlt, hfree⟩ := List.mem_filter.mp hmem
  exact ⟨List.mem_range.mp hlt, by simpa using hfree⟩

/-- A walk takes the remembered escape and learns nothing, or looks for one and remembers it. -/
theorem escape_cases (f : Forest α) (w : Walk α σ) (id : NodeId) :
    (∃ family?, w.rememberedEscape? f id = some family? ∧ w.escape f id = (family?, w)) ∨
    w.rememberedEscape? f id = none ∧ (w.escape f id).1 = w.findEscape f id ∧
      (w.escape f id).2 = { w with
        memory := (w.findEscape f id).elim (w.memory.escape id none) fun i => (w.memory.escape id (some i)).select id i } := by
  unfold escape
  split
  · rename_i family? h
    exact .inl ⟨family?, h, rfl⟩
  · rename_i h
    refine .inr ⟨h, ?_⟩
    dsimp only
    split <;> rename_i heq <;> simp [heq]

/-- An escape never leads to an open node. -/
theorem leadsBack_escape (h : (w.escape f id).1 = some i) :
    w.leadsBack ((f.node id).families.getD i .nothing) = false := by
  rcases w.escape_cases f id with ⟨family?, hremembered, heq⟩ | ⟨-, heq, -⟩
  · rw [heq] at h
    obtain ⟨-, hfree⟩ := Option.filter_eq_some_iff.mp hremembered
    rw [show family? = some i from h] at hfree
    simpa using hfree
  · exact (findEscape_spec (heq.symm.trans h)).2

/-- Usable families do not lead to open nodes. -/
theorem leadsBack_of_usable (h : i ∈ w.usableFamilies f id) :
    w.leadsBack ((f.node id).families.getD i .nothing) = false := by
  rw [usableFamilies_eq] at h
  simpa using (List.mem_filter.mp h).2

/-- Only a choice that is repeated from the plan can lead to an open node. -/
theorem planned_of_leadsBack (hchosen : (w.choose f selector id).1 = some i)
    (hback : w.leadsBack ((f.node id).families.getD i .nothing) = true) :
    ∃ c, w.plan.head? = some c ∧ c.reselect = false ∧ (w.choose f selector id).2.trace = c :: w.trace := by
  have hfree : ∀ {j}, (w.choose f selector id).1 = some j → w.leadsBack ((f.node id).families.getD j .nothing) = false →
      False := by
    intro j hj hfree
    obtain rfl := Option.some.inj (hchosen.symm.trans hj)
    exact Bool.false_ne_true (hfree.symm.trans hback)
  obtain ⟨-, ⟨hnone, -⟩ | ⟨j, hone, hj, -⟩ | ⟨-, e, -, hmakes, hj, -, htrace⟩⟩ := w.choose_cases f selector id
  · have hescape : w.choose f selector id = w.escape f id := by rw [choose, hnone]
    exact (hfree hchosen (leadsBack_escape (hescape ▸ hchosen))).elim
  · exact (hfree hj (leadsBack_of_usable (hone ▸ List.mem_singleton.mpr rfl))).elim
  · generalize w.plan.head? = planned? at hmakes ⊢
    cases hmakes with
    | repeated hreselect => exact ⟨e, rfl, hreselect, htrace⟩
    | renewed _ _ _ hmem => exact (hfree hj (leadsBack_of_usable hmem)).elim
    | fresh _ _ hmem => exact (hfree hj (leadsBack_of_usable hmem)).elim

end Walk

namespace Tour

variable {f : Forest α} {selector : Selector σ} {s s' : Tour α σ} {id : NodeId} {tasks : List Task} {w : Walk α σ}
  {limit n : Nat}

/-- The next step follows a family that leads to an open node. -/
def Retraces (f : Forest α) (selector : Selector σ) (s : Tour α σ) : Prop :=
  ∃ id tasks i, s.tasks = .enter id :: tasks ∧ (f.node id).isTerminal = false ∧
    ((s.walk.arrive f id).choose f selector id).1 = some i ∧
    (s.walk.arrive f id).leadsBack ((f.node id).families.getD i .nothing) = true

/-- After so many choices, no step retraces. -/
def ClearFrom (f : Forest α) (selector : Selector σ) (limit : Nat) (s : Tour α σ) : Prop :=
  ∀ n, limit ≤ (s.after f selector n).walk.trace.length → ¬ (s.after f selector n).Retraces f selector

theorem ClearFrom.reaches (h : s.ClearFrom f selector limit) (hreaches : Reaches f selector s s') :
    s'.ClearFrom f selector limit := by
  obtain ⟨m, rfl⟩ := hreaches
  intro n
  rw [← after_add]
  exact h (m + n)

/-- Without a plan, no step retraces. -/
theorem not_retraces_of_plan (h : s.walk.plan = []) : ¬ s.Retraces f selector := by
  rintro ⟨id, tasks, i, -, -, hchosen, hback⟩
  obtain ⟨c, hhead, -⟩ := Walk.planned_of_leadsBack hchosen hback
  have hhead : s.walk.plan.head? = some c := hhead
  simp [h] at hhead

/-! ## What a step leaves of the plan -/

/-- A step records nothing, or one choice, for which it goes on in the plan. -/
theorem step_plan (f : Forest α) (selector : Selector σ) (s : Tour α σ) :
    (s.step f selector).walk.plan = s.walk.plan ∧ (s.step f selector).walk.trace = s.walk.trace ∨
      ∃ e, (s.step f selector).walk.plan = s.walk.plan.tail ∧ (s.step f selector).walk.trace = e :: s.walk.trace := by
  rcases step_cases f selector s with ⟨-, heq⟩ | ⟨id, tasks, -, -, heq⟩ | ⟨id, tasks, -, -, heq⟩ | ⟨id, family?, tasks, -, heq⟩
  · exact .inl (by rw [heq]; exact ⟨rfl, rfl⟩)
  · exact .inl (by rw [heq]; exact ⟨rfl, rfl⟩)
  · rw [heq]
    obtain ⟨-, ⟨-, hplan, htrace⟩ | ⟨i, -, -, hplan, htrace⟩ | ⟨-, e, -, -, -, hplan, htrace⟩⟩ :=
      (s.walk.arrive f id).choose_cases f selector id
    · exact .inl ⟨hplan, htrace⟩
    · exact .inl ⟨hplan, htrace⟩
    · exact .inr ⟨e, hplan, htrace⟩
  · rw [heq]
    exact .inl ⟨s.walk.plan_depart f id family?, s.walk.trace_depart f id family?⟩

/-- The plan that is left is what follows the choices made so far. -/
theorem after_plan (htrace : s.walk.trace = []) (n : Nat) :
    (s.after f selector n).walk.plan = s.walk.plan.drop (s.after f selector n).walk.trace.length := by
  induction n with
  | zero => rw [after, htrace]; rfl
  | succ n ih =>
    rcases step_plan f selector (s.after f selector n) with ⟨hplan, htrace⟩ | ⟨e, hplan, htrace⟩
    · rw [after, hplan, htrace, ih]
    · rw [after, hplan, htrace, ih, List.tail_drop, List.length_cons]

/-- No walk retraces beyond its plan. -/
theorem clearFrom_plan (htrace : s.walk.trace = []) : s.ClearFrom f selector s.walk.plan.length := by
  intro n hle
  refine not_retraces_of_plan ?_
  rw [after_plan htrace, List.drop_eq_nil_of_le hle]

end Tour

/-! ## Room on the path -/

theorem Family.length_children_le (family : Family) : family.children.length ≤ 2 := by
  cases family <;> simp [children]

theorem Forest.length_childrenBy_le (f : Forest α) (id : NodeId) (family? : Option Nat) :
    (f.childrenBy id family?).length ≤ 2 := by
  cases family? with
  | none => exact Nat.zero_le 2
  | some i => exact Family.length_children_le _

theorem Forest.exists_family_of_childrenBy {f : Forest α} {id child : NodeId} {family? : Option Nat}
    (h : child ∈ f.childrenBy id family?) :
    ∃ i family, family? = some i ∧ (f.node id).families[i]? = some family ∧ child ∈ family.children := by
  match family? with
  | none => cases h
  | some i =>
    have hchild : child ∈ ((f.node id).families.getD i .nothing).children := h
    rw [Array.getD_eq_getD_getElem?] at hchild
    cases hget : (f.node id).families[i]? with
    | none =>
      rw [hget] at hchild
      cases hchild
    | some family =>
      rw [hget] at hchild
      exact ⟨i, family, rfl, hget, hchild⟩

theorem Forest.Exact.childrenBy_lt [DecidableEq α] {f : Forest α} {tokens : Array α} {trimmed : Identity → Prop}
    (h : f.Exact tokens trimmed) {id child : NodeId} (hid : id < f.size) {family? : Option Nat}
    (hchild : child ∈ f.childrenBy id family?) : child < f.size := by
  obtain ⟨i, family, -, hget, hmem⟩ := exists_family_of_childrenBy hchild
  exact h.child_lt hid (Array.mem_of_getElem? hget) hmem

namespace Walk

variable {f : Forest α} {selector : Selector σ} {id : NodeId} {w w' : Walk α σ} {limit : Nat}

/-- How many levels may still be opened: one for each node that is not open, and two for each choice below the limit. -/
def room (f : Forest α) (limit : Nat) (w : Walk α σ) : Nat :=
  f.size - w.onPath.size + 2 * (limit - w.trace.length)

/-- How many of the nodes are open. -/
def reopens (w : Walk α σ) (ids : List NodeId) : Nat :=
  ids.countP w.onPath.contains

theorem reopens_mono {ids : List NodeId} (h : Sub w'.onPath w.onPath) : w'.reopens ids ≤ w.reopens ids :=
  List.countP_mono_left fun id _ hmem => h id hmem

theorem size_onPath_le (h : ∀ a ∈ w.onPath, a < f.size) : w.onPath.size ≤ f.size := by
  have hle : w.onPath.size ≤ (Finset.range f.size).card := size_le_card fun a ha => Finset.mem_range.mpr (h a ha)
  rwa [Finset.card_range] at hle

/-- Opening a node takes up one level, unless the node was open. -/
theorem room_arrive (hpath : ∀ a ∈ w.onPath, a < f.size) (hid : id < f.size) :
    (w.arrive f id).room f limit + 1 = w.room f limit + w.reopens [id] := by
  have hpath' : ∀ a ∈ (w.arrive f id).onPath, a < f.size := by
    intro a ha
    rcases mem_onPath_enter.mp ha with rfl | ha
    · exact hid
    · exact hpath a ha
  have hle := size_onPath_le hpath
  have hle' := size_onPath_le hpath'
  have hsize : (w.arrive f id).onPath.size = if id ∈ w.onPath then w.onPath.size else w.onPath.size + 1 :=
    Std.TreeSet.size_insert
  have hagain : w.reopens [id] = if id ∈ w.onPath then 1 else 0 := by
    rw [reopens, List.countP_singleton]
    rfl
  have htrace : (w.arrive f id).trace = w.trace := rfl
  rw [room, room, hagain, htrace]
  split at hsize <;> rename_i hmem
  · rw [if_pos hmem]
    omega
  · rw [if_neg hmem]
    omega

/-- Closing a node gives back one level at most. -/
theorem room_depart (id : NodeId) (family? : Option Nat) (w : Walk α σ) :
    (w.depart f id family?).room f limit ≤ w.room f limit + 1 := by
  have hsize := Std.TreeSet.size_le_size_erase (t := w.onPath) (k := id)
  rw [room, room, trace_depart, onPath_depart]
  omega

/-- What a walk chooses has room below the node: a choice that leads back is below the limit, and pays for two children. -/
theorem room_choose (hclear : limit ≤ w.trace.length → ∀ i, (w.choose f selector id).1 = some i →
      w.leadsBack ((f.node id).families.getD i .nothing) = false) :
    (w.choose f selector id).2.room f limit + w.reopens (f.childrenBy id (w.choose f selector id).1) ≤ w.room f limit := by
  obtain ⟨hkeeps, hcases⟩ := w.choose_cases f selector id
  have hlength : w.trace.length ≤ (w.choose f selector id).2.trace.length := by
    rcases hcases with ⟨-, -, htrace⟩ | ⟨i, -, -, -, htrace⟩ | ⟨-, e, -, -, -, -, htrace⟩ <;> rw [htrace]
    exact Nat.le_succ _
  rw [room, room, hkeeps.onPath]
  by_cases hback : ∃ i, (w.choose f selector id).1 = some i ∧ w.leadsBack ((f.node id).families.getD i .nothing) = true
  · obtain ⟨i, hchosen, hback⟩ := hback
    obtain ⟨c, -, -, htrace⟩ := planned_of_leadsBack hchosen hback
    have hlimit : w.trace.length < limit := by
      by_contra hge
      exact Bool.false_ne_true ((hclear (Nat.not_lt.mp hge) i hchosen).symm.trans hback)
    have htwo : w.reopens (f.childrenBy id (w.choose f selector id).1) ≤ 2 :=
      Nat.le_trans List.countP_le_length (f.length_childrenBy_le id _)
    rw [htrace, List.length_cons]
    omega
  · have hnone : w.reopens (f.childrenBy id (w.choose f selector id).1) = 0 := by
      rw [reopens, List.countP_eq_zero]
      intro child hchild hmem
      cases hchosen : (w.choose f selector id).1 with
      | none =>
        rw [hchosen] at hchild
        cases hchild
      | some i =>
        rw [hchosen] at hchild
        exact hback ⟨i, hchosen, List.any_eq_true.mpr ⟨child, hchild, hmem⟩⟩
    omega

end Walk

/-! ## Visits do what the loop does -/

namespace Tour

variable [DecidableEq α] {f : Forest α} {tokens : Array α} {trimmed : Identity → Prop} {selector : Selector σ}
  {id : NodeId} {ids : List NodeId} {tasks : List Task} {w w' : Walk α σ} {limit depth : Nat}

/-- From `w` to `w'`, the loop has done with the nodes that were first on the stack, and has given back the room that it
needed, but for the nodes that were open before. -/
structure Covers (f : Forest α) (selector : Selector σ) (limit : Nat) (ids : List NodeId) (tasks : List Task)
    (w w' : Walk α σ) : Prop where
  reaches : Reaches f selector ⟨ids.map .enter ++ tasks, w⟩ ⟨tasks, w'⟩
  onPath : Sub w'.onPath w.onPath
  room : w'.room f limit ≤ w.room f limit + w.reopens ids

omit [DecidableEq α] in
/-- Covering nodes one by one covers all of them. -/
theorem covers_foldl {visit : NodeId → Walk α σ → Walk α σ}
    (hvisit : ∀ id ∈ ids, ∀ tasks (w : Walk α σ), (∀ a ∈ w.onPath, a < f.size) →
      ClearFrom f selector limit ⟨.enter id :: tasks, w⟩ → w.room f limit + w.reopens [id] < depth →
      Covers f selector limit [id] tasks w (visit id w))
    (hpath : ∀ a ∈ w.onPath, a < f.size) (hclear : ClearFrom f selector limit ⟨ids.map .enter ++ tasks, w⟩)
    (hroom : w.room f limit + w.reopens ids < depth) :
    Covers f selector limit ids tasks w (ids.foldl (fun w id => visit id w) w) := by
  induction ids generalizing w with
  | nil => exact ⟨.refl _, .refl _, Nat.le_refl _⟩
  | cons id ids ih =>
    have hsplit : w.reopens (id :: ids) = w.reopens [id] + w.reopens ids := by
      rw [Walk.reopens, Walk.reopens, Walk.reopens, ← List.countP_append]
      rfl
    have hfirst := hvisit id List.mem_cons_self (ids.map Task.enter ++ tasks) w hpath hclear (by omega)
    have hmono : (visit id w).reopens ids ≤ w.reopens ids := Walk.reopens_mono hfirst.onPath
    have hrest := ih (fun id hid => hvisit id (List.mem_cons_of_mem _ hid)) (fun a ha => hpath a (hfirst.onPath a ha))
      (hclear.reaches hfirst.reaches) (by have := hfirst.room; omega)
    refine ⟨hfirst.reaches.trans hrest.reaches, hrest.onPath.trans hfirst.onPath, ?_⟩
    have := hfirst.room
    have := hrest.room
    rw [List.foldl_cons]
    omega

/-- With enough depth for the room that is left, a visit does what the loop does. -/
theorem covers_visit (hf : f.Exact tokens trimmed) (hid : id < f.size) (hpath : ∀ a ∈ w.onPath, a < f.size)
    (hclear : ClearFrom f selector limit ⟨.enter id :: tasks, w⟩) (hroom : w.room f limit + w.reopens [id] < depth) :
    Covers f selector limit [id] tasks w (Walk.visit f selector depth id w) := by
  induction depth generalizing id tasks w with
  | zero => exact absurd hroom (Nat.not_lt_zero _)
  | succ depth ih =>
    rw [Walk.visit_eq]
    cases hterminal : (f.node id).isTerminal with
    | true =>
      rw [if_pos rfl]
      exact ⟨⟨1, step_terminal hterminal tasks w⟩, .refl _, Nat.le_add_right _ _⟩
    | false =>
      rw [if_neg Bool.false_ne_true]
      have harrive : (w.arrive f id).room f limit + 1 = w.room f limit + w.reopens [id] := Walk.room_arrive hpath hid
      have hchoose : ((w.arrive f id).choose f selector id).2.room f limit +
          (w.arrive f id).reopens (f.childrenBy id ((w.arrive f id).choose f selector id).1) ≤ (w.arrive f id).room f limit :=
        Walk.room_choose fun hle i hchosen => by
          rw [← Bool.not_eq_true]
          exact fun hback => hclear 0 hle ⟨id, tasks, i, rfl, hterminal, hchosen, hback⟩
      have hkeeps := ((w.arrive f id).choose_cases f selector id).1.onPath
      obtain ⟨family?, w', hw'⟩ : ∃ family? w', (w.arrive f id).choose f selector id = (family?, w') := ⟨_, _, rfl⟩
      rw [hw'] at hchoose hkeeps ⊢
      rw [Walk.reopens, ← hkeeps] at hchoose
      have hdescends : Reaches f selector ⟨.enter id :: tasks, w⟩
          ⟨(f.childrenBy id family?).map .enter ++ .leave id family? :: tasks, w'.follow id family?⟩ := by
        refine ⟨1, (step_inner hterminal tasks w).trans ?_⟩
        rw [descend, hw']
      have hopen : ∀ {a}, a ∈ w'.onPath ↔ a = id ∨ a ∈ w.onPath := by
        rw [hkeeps]
        exact Walk.mem_onPath_enter
      have hchildren := covers_foldl (w := w'.follow id family?)
        (fun child hchild tasks w hpath hclear hroom => ih (hf.childrenBy_lt hid hchild) hpath hclear hroom)
        (fun a ha => (hopen.mp ha).elim (· ▸ hid) (hpath a)) (hclear.reaches hdescends)
        (Nat.lt_of_le_of_lt hchoose (by omega))
      refine ⟨hdescends.trans (hchildren.reaches.trans (.step _)), fun a ha => ?_, ?_⟩
      · obtain ⟨hne, ha⟩ := Walk.mem_onPath_leave.mp ha
        exact (hopen.mp (hchildren.onPath a ha)).resolve_left hne
      · calc _ ≤ _ := Walk.room_depart id _ _
          _ ≤ (w.arrive f id).room f limit + 1 := Nat.succ_le_succ (Nat.le_trans hchildren.room hchoose)
          _ = _ := harrive

end Tour

/-! ## Whole walks -/

namespace Walk

variable {f : Forest α} {selector : Selector σ}

/-- A visit makes fewer choices than a binary tree of its depth has room for. -/
theorem length_trace_visit (f : Forest α) (selector : Selector σ) (depth : Nat) (id : NodeId) (w : Walk α σ) :
    (visit f selector depth id w).trace.length < w.trace.length + 2 ^ depth := by
  induction depth generalizing id w with
  | zero => exact Nat.lt_succ_self _
  | succ depth ih =>
    have hfold : ∀ (ids : List NodeId) (w : Walk α σ),
        (ids.foldl (fun w child => visit f selector depth child w) w).trace.length ≤
          w.trace.length + ids.length * (2 ^ depth - 1) := by
      intro ids
      induction ids with
      | nil => simp
      | cons child ids ihs =>
        intro w
        have hchild := ih child w
        have hrest := ihs (visit f selector depth child w)
        rw [List.foldl_cons, List.length_cons, Nat.succ_mul]
        omega
    rw [visit_eq]
    split
    · exact Nat.lt_add_of_pos_right (Nat.two_pow_pos _)
    · obtain ⟨family?, w', hw'⟩ : ∃ family? w', (w.arrive f id).choose f selector id = (family?, w') := ⟨_, _, rfl⟩
      have hchosen : w'.trace.length ≤ w.trace.length + 1 := by
        obtain ⟨-, hcases⟩ := (w.arrive f id).choose_cases f selector id
        rw [hw'] at hcases
        rcases hcases with ⟨-, -, htrace⟩ | ⟨i, -, -, -, htrace⟩ | ⟨-, e, -, -, -, -, htrace⟩ <;> rw [htrace]
        · exact Nat.le_succ _
        · exact Nat.le_succ _
        · exact Nat.le_refl _
      have hchildren := hfold (f.childrenBy id family?) (w'.follow id family?)
      have htwo := Nat.mul_le_mul_right (2 ^ depth - 1) (f.length_childrenBy_le id family?)
      have hpos := Nat.two_pow_pos depth
      rw [hw', trace_depart, Nat.pow_succ]
      calc _ ≤ w'.trace.length + _ := hchildren
        _ ≤ w.trace.length + 1 + 2 * (2 ^ depth - 1) := Nat.add_le_add hchosen htwo
        _ < _ := by omega

end Walk

namespace Walker

variable [DecidableEq α] {f : Forest α} {tokens : Array α} {trimmed : Identity → Prop} {selector : Selector σ}
  {w : Walker α σ} {root : NodeId} {limit : Nat}

/-- A walk along a plan as a loop, before its first step. -/
def tour (w : Walker α σ) (root : NodeId) (plan : List Choice) : Tour α σ :=
  ⟨[.enter root], w.begun plan⟩

/-- The loop halts, and a visit of the right depth is what it comes to. -/
theorem tour_reaches (hf : w.forest.Exact tokens trimmed) (hroot : root < w.forest.size) {plan : List Choice}
    (hclear : (w.tour root plan).ClearFrom w.forest w.selector limit) :
    Tour.Reaches w.forest w.selector (w.tour root plan)
      ⟨[], Walk.visit w.forest w.selector (w.forest.size + 2 * limit + 1) root (w.begun plan)⟩ := by
  have hroom : (w.begun plan).room w.forest limit = w.forest.size + 2 * limit := rfl
  have hreopens : (w.begun plan).reopens [root] = 0 := by
    rw [Walk.reopens, List.countP_singleton, if_neg]
    exact Std.TreeSet.not_mem_emptyc
  exact (Tour.covers_visit hf hroot (fun a ha => absurd ha Std.TreeSet.not_mem_emptyc) hclear (by omega)).reaches

/-- The depth of a walk is never used up: what the walker walks is what the loop comes to. -/
theorem tour_reaches_visited (hf : w.forest.Exact tokens trimmed) (hroot : root < w.forest.size) (plan : List Choice) :
    Tour.Reaches w.forest w.selector (w.tour root plan) ⟨[], w.visited root plan⟩ :=
  tour_reaches hf hroot (Tour.clearFrom_plan (s := w.tour root plan) rfl)

/-- A walk that retraces only within its first choices makes a bounded number of them. -/
theorem length_trace_visited (hf : w.forest.Exact tokens trimmed) (hroot : root < w.forest.size) {plan : List Choice}
    (hclear : (w.tour root plan).ClearFrom w.forest w.selector limit) :
    (w.visited root plan).trace.length < 2 ^ (w.forest.size + 2 * limit + 1) := by
  obtain ⟨m, hm⟩ := tour_reaches hf hroot hclear
  obtain ⟨n, hn⟩ := tour_reaches_visited hf hroot plan
  have hsame := hm.symm.trans ((Tour.eq_of_halted (by rw [hm]) (by rw [hn])).trans hn)
  have hwalk : Walk.visit _ _ (w.forest.size + 2 * limit + 1) root (w.begun plan) = w.visited root plan :=
    congrArg Tour.walk hsame
  rw [← hwalk]
  have hlength := Walk.length_trace_visit w.forest w.selector (w.forest.size + 2 * limit + 1) root (w.begun plan)
  rwa [show (w.begun plan).trace.length = 0 from rfl, Nat.zero_add] at hlength

end Walker
end ContextFree
