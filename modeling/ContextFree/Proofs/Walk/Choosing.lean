-- SUMMARY: How a walk chooses: the admissible families of a node, and what one choice does to the plan and the trace.
import ContextFree.Walk.Walker
import ContextFree.Proofs.Forest.Productivity
import ContextFree.Proofs.Forest.Unfoldings
import Mathlib.Data.List.TakeWhile
import Mathlib.Data.Set.Card

/-!
# Choosing

A family is admissible if it is no loop and each of its children has a positive count. Where a walk has a choice, it takes an
admissible family, whatever the selector answers. Admissible families lead to nodes of smaller rank, so a walk that came
by such families never meets a node of its path again, and every admissible family of the node where it stands is usable.
-/
namespace ContextFree

variable {α σ : Type} {id child a b : NodeId} {i : Nat} {family : Family}

/-! ## Admissible families -/

namespace Forest

/-- The families of a node, by position, that are no loops and whose children have derivations without loops. -/
def admissible (f : Forest α) (id : NodeId) : List Nat :=
  (List.range (f.node id).families.size).filter fun i =>
    !f.isLoop id i && !((f.node id).families.getD i .nothing).children.any fun child => f.count child == 0

theorem mem_admissible {f : Forest α} : i ∈ f.admissible id ↔ ∃ family, (f.node id).families[i]? = some family ∧
    i ∉ (f.factsOf id).loops ∧ ∀ child ∈ family.children, 0 < f.count child := by
  simp only [admissible, List.mem_filter, List.mem_range, isLoop, Bool.and_eq_true, Bool.not_eq_true',
    List.contains_eq_mem, decide_eq_false_iff_not, List.any_eq_false, beq_iff_eq, Nat.pos_iff_ne_zero]
  constructor
  · rintro ⟨hlt, hloop, hcounts⟩
    have hget := Array.getElem?_eq_getElem hlt
    rw [Array.getD_eq_getD_getElem?, hget, Option.getD_some] at hcounts
    exact ⟨_, hget, hloop, hcounts⟩
  · rintro ⟨family, hget, hloop, hcounts⟩
    rw [Array.getD_eq_getD_getElem?, hget, Option.getD_some]
    exact ⟨(Array.getElem?_eq_some_iff.mp hget).1, hloop, hcounts⟩

theorem nodup_admissible (f : Forest α) (id : NodeId) : (f.admissible id).Nodup :=
  List.nodup_range.filter _

/-- An admissible family is forward. -/
theorem forward_of_admissible {f : Forest α} (h : i ∈ f.admissible id) :
    (f.node id).families.getD i .nothing ∈ f.forward id ∧
      ∀ child ∈ ((f.node id).families.getD i .nothing).children, 0 < f.count child := by
  obtain ⟨family, hget, hloop, hcounts⟩ := mem_admissible.mp h
  rw [Array.getD_eq_getD_getElem?, hget, Option.getD_some]
  exact ⟨mem_forward.mpr ⟨i, hget, hloop⟩, hcounts⟩

/-! ## Ranks -/

/-- The number of nodes below a node along forward families. -/
noncomputable def rank (f : Forest α) (id : NodeId) : Nat :=
  {b | Relation.TransGen f.Leads id b}.ncard

namespace Exact

variable [DecidableEq α] {f : Forest α} {tokens : Array α} {trimmed : Identity → Prop}

theorem finite_leads (h : f.Exact tokens trimmed) (hid : id < f.size) :
    {b | Relation.TransGen f.Leads id b}.Finite :=
  (Set.finite_lt_nat f.size).subset fun _ hleads => h.lt_of_leads hid hleads

theorem rank_lt (h : f.Exact tokens trimmed) (hid : id < f.size) (hleads : f.Leads id child) :
    f.rank child < f.rank id := by
  have hchild := h.lt_of_leads hid (.single hleads)
  refine Set.ncard_lt_ncard ⟨fun b hb => .head hleads hb, fun hsub => ?_⟩ (h.finite_leads hid)
  exact h.leads_irrefl hchild (hsub (.single hleads))

theorem rank_lt_size (h : f.Exact tokens trimmed) (hid : id < f.size) : f.rank id < f.size := by
  have hcard : {b | b < f.size}.ncard = f.size := by
    rw [Set.ncard_eq_toFinset_card' {b | b < f.size}]
    simp
  rw [← hcard]
  refine Set.ncard_lt_ncard ⟨fun b hb => h.lt_of_leads hid hb, fun hsub => ?_⟩ (Set.finite_lt_nat f.size)
  exact h.leads_irrefl hid (hsub hid)

/-- A node with a positive count has an admissible family, unless its only derivation is a loop over no input. -/
theorem admissible_ne_nil (h : f.Exact tokens trimmed) (hid : id < f.size) (hne : (f.node id).families ≠ #[])
    (hplain : (f.node id).isEmpty = true → (f.factsOf id).loops = []) (hpos : 0 < f.count id) :
    f.admissible id ≠ [] := by
  have hno : ¬ ((f.factsOf id).loops ≠ [] ∧ (f.node id).isEmpty = true) := fun hloop => hloop.1 (hplain hloop.2)
  rw [h.count_eq hid hne, if_neg hno, Nat.add_zero] at hpos
  obtain ⟨n, hn, hzero⟩ := List.exists_mem_ne_zero_of_sum_ne_zero (Nat.ne_of_gt hpos)
  obtain ⟨family, hfamily, rfl⟩ := List.mem_map.mp hn
  obtain ⟨i, hget, hloop⟩ := mem_forward.mp hfamily
  refine List.ne_nil_of_mem (mem_admissible.mpr ⟨family, hget, hloop, fun child hchild => ?_⟩)
  refine Nat.pos_of_ne_zero fun hcount => hzero (List.prod_eq_zero ?_)
  exact hcount ▸ List.mem_map_of_mem hchild

end Exact

/-- Every node over no input that has a loop also has an admissible family, so that no walk needs an escape. -/
def NeedsNoEscape (f : Forest α) : Prop :=
  ∀ id < f.size, (f.node id).isEmpty = true → (f.factsOf id).loops ≠ [] → f.admissible id ≠ []

instance (f : Forest α) : Decidable f.NeedsNoEscape :=
  inferInstanceAs (Decidable (∀ id < f.size, (f.node id).isEmpty = true → (f.factsOf id).loops ≠ [] → f.admissible id ≠ []))

theorem NoEmptyLoops.needsNoEscape {f : Forest α} (h : f.NoEmptyLoops) : f.NeedsNoEscape :=
  fun id hid hempty hloops => absurd (h id hid hempty) hloops

theorem NeedsNoEscape.admissible_ne_nil [DecidableEq α] {f : Forest α} {tokens : Array α} {trimmed : Identity → Prop}
    (h : f.NeedsNoEscape) (hf : f.Exact tokens trimmed) (hid : id < f.size) (hne : (f.node id).families ≠ #[])
    (hpos : 0 < f.count id) : f.admissible id ≠ [] := by
  by_cases hloop : (f.node id).isEmpty = true ∧ (f.factsOf id).loops ≠ []
  · exact h id hid hloop.1 hloop.2
  · refine hf.admissible_ne_nil hid hne (fun hempty => ?_) hpos
    by_contra hloops
    exact hloop ⟨hempty, hloops⟩

end Forest

/-! ## One choice -/

/-- What is recorded where there are several usable families, given what the plan has at this point: the planned choice, or
one that has not been tried, or a choice at a node that was not planned for. -/
inductive Choice.Makes (usable : List Nat) : Option Choice → Choice → Prop where
  | repeated {c : Choice} : c.reselect = false → Makes usable (some c) c
  | renewed {c e : Choice} :
      c.reselect = true → c.node = e.node → e.tried = e.chosen :: c.tried → e.chosen ∈ usable →
      (c.tried.length < usable.length → e.chosen ∉ c.tried) → e.candidates = usable.length → e.reselect = false →
      Makes usable (some c) e
  | fresh {c? : Option Choice} {e : Choice} :
      (∀ c ∈ c?, c.node ≠ e.node) → e.tried = [e.chosen] → e.chosen ∈ usable → e.candidates = usable.length →
      e.reselect = false → Makes usable c? e

/-- A recorded choice is of an admissible family if that of the plan is. -/
theorem Choice.Makes.admissible {f : Forest α} {usable : List Nat} {planned? : Option Choice} {e : Choice}
    (h : Makes usable planned? e) (husable : ∀ family ∈ usable, family ∈ f.admissible e.node)
    (hplanned : ∀ c ∈ planned?, c.chosen ∈ f.admissible c.node) : e.chosen ∈ f.admissible e.node := by
  cases h with
  | repeated => exact hplanned _ rfl
  | renewed _ _ _ hmem => exact husable _ hmem
  | fresh _ _ hmem => exact husable _ hmem

namespace Walk

/-- The parts of a walk that choosing leaves alone. -/
structure Keeps (w w' : Walk α σ) : Prop where
  onPath : w'.onPath = w.onPath
  events : w'.events = w.events
  derivation : w'.derivation = w.derivation

variable {f : Forest α} {selector : Selector σ}

theorem usableFamilies_eq (f : Forest α) (id : NodeId) (w : Walk α σ) :
    w.usableFamilies f id =
      (f.admissible id).filter fun i => !w.leadsBack ((f.node id).families.getD i .nothing) := by
  rw [usableFamilies, Forest.admissible, List.filter_filter]
  refine List.filter_congr fun i _ => ?_
  simp only [Bool.and_assoc, Bool.and_left_comm]

/-- If nothing that an admissible family leads to is on the path, all admissible families are usable. -/
theorem usableFamilies_of_path {w : Walk α σ}
    (hpath : ∀ i ∈ f.admissible id, ∀ child ∈ ((f.node id).families.getD i .nothing).children, child ∉ w.onPath) :
    w.usableFamilies f id = f.admissible id := by
  rw [usableFamilies_eq, List.filter_eq_self]
  intro i hi
  rw [Bool.not_eq_true', leadsBack, List.any_eq_false]
  exact fun child hchild => hpath i hi child hchild

/-- Among more usable families than were tried, one was not. -/
theorem exists_untried {usable tried : List Nat} (hnodup : usable.Nodup) (hlt : tried.length < usable.length) :
    ∃ family ∈ usable, family ∉ tried := by
  by_contra hall
  push Not at hall
  exact absurd (hnodup.subperm hall).length_le (Nat.not_le.mpr hlt)

/-- The answer of a selector is replaced unless it is good: a usable family that was not tried, if there is one. -/
theorem ask_spec (f : Forest α) (selector : Selector σ) (w : Walk α σ) (id : NodeId) {usable : List Nat}
    (tried : List Nat) (hne : usable ≠ []) (hnodup : usable.Nodup) :
    (w.ask f selector id usable tried).1 ∈ usable ∧
      (tried.length < usable.length → (w.ask f selector id usable tried).1 ∉ tried) ∧
      ∃ memory notes, (w.ask f selector id usable tried).2.2 = { w with selector := memory, notes } := by
  unfold ask
  dsimp only
  split
  · rename_i candidate hcandidate
    obtain ⟨hget, huntried⟩ := Option.filter_eq_some_iff.mp hcandidate
    obtain ⟨family, hfamily, rfl⟩ := List.mem_map.mp (List.mem_of_getElem? hget)
    refine ⟨hfamily, fun _ => ?_, _, _, rfl⟩
    simpa using huntried
  · refine ⟨?_, fun hlt => ?_, _, _, rfl⟩
    · cases hfind : usable.find? fun family => !tried.contains family with
      | some family => exact List.mem_of_find?_eq_some hfind
      | none =>
        obtain ⟨first, rest, rfl⟩ := List.exists_cons_of_ne_nil hne
        exact List.mem_cons_self
    · cases hfind : usable.find? fun family => !tried.contains family with
      | some family => simpa using List.find?_some hfind
      | none =>
        obtain ⟨family, hmem, huntried⟩ := exists_untried hnodup hlt
        have hall := List.find?_eq_none.mp hfind family hmem
        simp [huntried] at hall

/-- A choice is made as planned, or by asking the selector. -/
theorem makeChoice_spec (f : Forest α) (selector : Selector σ) (w : Walk α σ) (id : NodeId) {usable : List Nat}
    (hne : usable ≠ []) (hnodup : usable.Nodup) :
    (w.makeChoice f selector id usable).1.node = id ∧
      Choice.Makes usable w.plan.head? (w.makeChoice f selector id usable).1 ∧
      ∃ memory notes, (w.makeChoice f selector id usable).2 = { w with selector := memory, notes } := by
  unfold makeChoice
  dsimp only
  split
  · rename_i choice hchoice
    obtain ⟨hplanned, hreselect⟩ := Option.filter_eq_some_iff.mp hchoice
    obtain ⟨hhead, hnode⟩ := Option.filter_eq_some_iff.mp hplanned
    rw [hhead]
    exact ⟨beq_iff_eq.mp hnode, .repeated (by simpa using hreselect), _, _, rfl⟩
  · rename_i hnone
    cases hplanned : w.plan.head?.filter (·.node == id) with
    | none =>
      obtain ⟨hmem, -, hwalk⟩ := ask_spec f selector w id [] hne hnodup
      refine ⟨rfl, .fresh (fun c hc heq => ?_) rfl hmem rfl rfl, hwalk⟩
      have hfilter := Option.filter_eq_none_iff.mp hplanned c hc
      exact hfilter (beq_iff_eq.mpr heq)
    | some c =>
      obtain ⟨hmem, huntried, hwalk⟩ := ask_spec f selector w id c.tried hne hnodup
      obtain ⟨hhead, hnode⟩ := Option.filter_eq_some_iff.mp hplanned
      rw [hplanned] at hnone
      have hreselect : c.reselect = true := by simpa [Option.filter] using hnone
      rw [hhead]
      exact ⟨rfl, .renewed hreselect (beq_iff_eq.mp hnode) rfl hmem huntried rfl rfl, hwalk⟩

theorem escape_spec (f : Forest α) (w : Walk α σ) (id : NodeId) :
    ∃ memory, (w.escape f id).2 = { w with memory } := by
  unfold escape
  split
  · exact ⟨w.memory, rfl⟩
  · dsimp only
    split <;> exact ⟨_, rfl⟩

/-- Choosing takes the only usable family, or makes a choice and goes on in the plan, or finds an escape. -/
theorem choose_cases (f : Forest α) (selector : Selector σ) (w : Walk α σ) (id : NodeId) :
    w.Keeps (w.choose f selector id).2 ∧
      (w.usableFamilies f id = [] ∧ (w.choose f selector id).2.plan = w.plan ∧
          (w.choose f selector id).2.trace = w.trace ∨
        (∃ i, w.usableFamilies f id = [i] ∧ (w.choose f selector id).1 = some i ∧
          (w.choose f selector id).2.plan = w.plan ∧ (w.choose f selector id).2.trace = w.trace) ∨
        2 ≤ (w.usableFamilies f id).length ∧ ∃ e : Choice, e.node = id ∧
          Choice.Makes (w.usableFamilies f id) w.plan.head? e ∧ (w.choose f selector id).1 = some e.chosen ∧
          (w.choose f selector id).2.plan = w.plan.tail ∧ (w.choose f selector id).2.trace = e :: w.trace) := by
  unfold choose
  split
  · rename_i hnone
    obtain ⟨memory, hescape⟩ := w.escape_spec f id
    rw [hescape]
    exact ⟨⟨rfl, rfl, rfl⟩, .inl ⟨hnone, rfl, rfl⟩⟩
  · rename_i i hone
    exact ⟨⟨rfl, rfl, rfl⟩, .inr (.inl ⟨i, hone, rfl, rfl, rfl⟩)⟩
  · rename_i hnone hone
    have hne : w.usableFamilies f id ≠ [] := hnone
    have hnodup : (w.usableFamilies f id).Nodup := by
      rw [usableFamilies_eq]
      exact (f.nodup_admissible id).filter _
    have htwo : 2 ≤ (w.usableFamilies f id).length := by
      match hlist : w.usableFamilies f id with
      | []          => exact absurd hlist hne
      | [i]         => exact absurd hlist (hone i)
      | _ :: _ :: _ => exact Nat.le_add_left _ _
    obtain ⟨hnode, hmakes, memory, notes, hwalk⟩ := makeChoice_spec f selector w id hne hnodup
    refine ⟨⟨?_, ?_, ?_⟩, .inr (.inr ⟨htwo, _, hnode, hmakes, rfl, ?_, ?_⟩)⟩ <;> simp only [record, hwalk]

/-! ## One visit -/

/-- What a visit does at a node that is no terminal: it follows a family and visits the children. -/
def inside (f : Forest α) (selector : Selector σ) (depth : Nat) (id : NodeId) (w : Walk α σ) : Walk α σ :=
  let (family?, w) := (w.enter id).choose f selector id
  let children := (family?.map fun i => ((f.node id).families.getD i .nothing).children).getD []
  (children.foldl (fun w child => visit f selector depth child w) (w.follow id family?)).leave id family?

theorem visit_succ (f : Forest α) (selector : Selector σ) (depth : Nat) (id : NodeId) (w : Walk α σ) :
    visit f selector (depth + 1) id w =
      match (f.node id).label with
      | .symbol (.terminal _) =>
        w.emit (.token (f.tokens.extract (f.node id).left (f.node id).right).toList (f.attributesOf id) (f.span id))
      | .symbol (.nonterminal A) =>
        (inside f selector depth id
          (w.emit (.opening (f.grammar.grammar.nonterminalName A) (f.attributesOf id) (f.span id)))).emit
          (.closing (f.grammar.grammar.nonterminalName A) (f.attributesOf id) (f.span id))
      | .state _ => inside f selector depth id w := rfl

theorem mem_onPath_enter {w : Walk α σ} : a ∈ (w.enter id).onPath ↔ a = id ∨ a ∈ w.onPath := by
  simp only [enter, Std.TreeSet.mem_insert, Std.compare_eq_iff_eq]
  exact or_congr_left eq_comm

theorem mem_onPath_follow {w : Walk α σ} {family? : Option Nat} :
    a ∈ (((w.enter id).choose f selector id).2.follow id family?).onPath ↔ a = id ∨ a ∈ w.onPath := by
  rw [follow, ((w.enter id).choose_cases f selector id).1.onPath]
  exact mem_onPath_enter

theorem mem_onPath_leave {w : Walk α σ} {family? : Option Nat} :
    a ∈ (w.leave id family?).onPath ↔ a ≠ id ∧ a ∈ w.onPath := by
  have herase : a ∈ w.onPath.erase id ↔ a ≠ id ∧ a ∈ w.onPath := by
    simp only [Std.TreeSet.mem_erase, ne_eq, Std.compare_eq_iff_eq]
    exact and_congr_left' (not_congr eq_comm)
  cases family? <;> exact herase

/-- Where a walk chooses a family of the node, it follows that family, visits the children and leaves the node. -/
theorem inside_of_choose {w : Walk α σ} {depth : Nat} (hchosen : ((w.enter id).choose f selector id).1 = some i)
    (hget : (f.node id).families[i]? = some family) :
    inside f selector depth id w = (family.children.foldl (fun w child => visit f selector depth child w)
      (((w.enter id).choose f selector id).2.follow id (some i))).leave id (some i) := by
  simp only [inside, hchosen, Option.map_some, Option.getD_some, Array.getD_eq_getD_getElem?, hget]

/-- Where a walk chooses no family of the node, it leaves the node at once. -/
theorem inside_of_no_family {w : Walk α σ} {depth : Nat}
    (hnone : ∀ i, ((w.enter id).choose f selector id).1 = some i → (f.node id).families[i]? = none) :
    inside f selector depth id w = (((w.enter id).choose f selector id).2.follow id
      ((w.enter id).choose f selector id).1).leave id ((w.enter id).choose f selector id).1 := by
  unfold inside
  dsimp only
  cases hchosen : ((w.enter id).choose f selector id).1 with
  | none => rfl
  | some i =>
    rw [Option.map_some, Option.getD_some, Array.getD_eq_getD_getElem?, hnone i hchosen]
    rfl

/-! ## Walks along admissible families -/

/-- The node has a derivation without loops, the walk has come to it by families of decreasing rank, and there is depth left
for what is below. -/
structure Ready (f : Forest α) (depth : Nat) (id : NodeId) (w : Walk α σ) : Prop where
  count_pos : 0 < f.count id
  rank_lt : f.rank id < depth
  path : ∀ {a}, a ∈ w.onPath → f.rank id < f.rank a

namespace Ready

variable [DecidableEq α] {tokens : Array α} {trimmed : Identity → Prop} {depth : Nat} {w w' : Walk α σ}

/-- All admissible families are usable. -/
theorem usableFamilies_eq (hf : f.Exact tokens trimmed) (hid : id < f.size) (h : w.Ready f depth id) :
    (w.enter id).usableFamilies f id = f.admissible id := by
  refine usableFamilies_of_path fun i hi child hchild hpath => ?_
  have hless := hf.rank_lt hid ⟨_, (Forest.forward_of_admissible hi).1, hchild⟩
  rcases mem_onPath_enter.mp hpath with rfl | hpath
  · exact absurd hless (Nat.lt_irrefl _)
  · exact absurd (Nat.lt_trans hless (h.path hpath)) (Nat.lt_irrefl _)

/-- A walk that is ready for a node is ready for the children of its admissible families. -/
theorem toChild (hf : f.Exact tokens trimmed) (hid : id < f.size) (h : w.Ready f (depth + 1) id) (hi : i ∈ f.admissible id)
    (hchild : child ∈ ((f.node id).families.getD i .nothing).children)
    (hpath : ∀ {a}, a ∈ w'.onPath → a = id ∨ a ∈ w.onPath) : w'.Ready f depth child := by
  obtain ⟨hforward, hcounts⟩ := Forest.forward_of_admissible hi
  have hless := hf.rank_lt hid ⟨_, hforward, hchild⟩
  refine ⟨hcounts child hchild, Nat.lt_of_lt_of_le hless (Nat.lt_succ_iff.mp h.rank_lt), fun ha => ?_⟩
  rcases hpath ha with rfl | ha
  · exact hless
  · exact Nat.lt_trans hless (h.path ha)

end Ready
end Walk

/-! ## The next plan -/

/-- The same choice, to be made anew. -/
def Choice.renew (c : Choice) : Choice := { c with reselect := true }

/-- The last choice that is not exhausted is renewed and the later ones are dropped; without any, the root is done with. -/
theorem Walker.planNext_cases (w : Walker α σ) (trace : List Choice) :
    (∃ later c earlier, trace = later ++ c :: earlier ∧ (∀ e ∈ later, e.isExhausted = true) ∧ c.isExhausted = false ∧
      w.planNext trace = { w with plan := earlier.reverse ++ [c.renew] }) ∨
    (∀ e ∈ trace, e.isExhausted = true) ∧
      w.planNext trace = { w with plan := [], root := w.root + 1, exhausted := w.root + 1 ≥ w.forest.roots.length } := by
  unfold planNext
  split
  · rename_i c earlier hdrop
    refine .inl ⟨trace.takeWhile Choice.isExhausted, c, earlier, ?_, ?_, ?_, ?_⟩
    · rw [← hdrop, List.takeWhile_append_dropWhile]
    · exact fun e he => List.mem_takeWhile_imp he
    · have hhead := List.head?_dropWhile_not Choice.isExhausted trace
      rwa [hdrop] at hhead
    · rw [List.reverse_cons]
      rfl
  · rename_i hdrop
    exact .inr ⟨List.dropWhile_eq_nil_iff.mp hdrop, rfl⟩

end ContextFree
