-- SUMMARY: The root of a forest has a derivation without loops, and so has every node over no input.
import ContextFree.Proofs.Forest.Ambiguity
import ContextFree.Proofs.Forest.Unfoldings

/-!
# Productivity

A node over no input has a positive count: its children cover no input either, and if it has a loop, the loop itself is
counted. A node that covers input may have the count zero, when it was first met on the way around a loop and all its
families lead back. But not the root. All nodes of the root's extent that the survey meets on its path have a child of
the same extent until it comes to a node with an exit: a terminal, or a family of children that all cover less. The
first exit leads to nodes over stretches where the survey has not been, so each of them is to its own stretch what the root
is to all tokens. Their counts are positive, and so are those of all nodes on the path to the exit.
-/
namespace ContextFree

open Survey (Mark Fueled AllGrounded ChildrenSeen PathTo Advances)

variable {α : Type} [DecidableEq α] {tokens : Array α} {id child a b c x : NodeId} {family : Family}

namespace Forest

variable {f : Forest α} {trimmed : Identity → Prop} {i j : Nat} {marks marks' : Array Mark} {fuel : Nat}

/-! ## Extents -/

/-- The node lies within the stretch from `i` to `j`. -/
def Inside (f : Forest α) (i j : Nat) (a : NodeId) : Prop :=
  i ≤ (f.node a).left ∧ (f.node a).right ≤ j

/-- The node covers input. -/
def HasInput (f : Forest α) (a : NodeId) : Prop :=
  (f.node a).left < (f.node a).right

def SameExtent (f : Forest α) (a b : NodeId) : Prop :=
  (f.node a).left = (f.node b).left ∧ (f.node a).right = (f.node b).right

/-- The node is a terminal, or has a family of children that all cover less. -/
def IsExit (f : Forest α) (a : NodeId) : Prop :=
  (f.node a).families = #[] ∨ ∃ family ∈ (f.node a).families, ∀ child ∈ family.children, ¬ f.SameExtent child a

namespace Exact

theorem inside_child (h : f.Exact tokens trimmed) (hid : id < f.size) (hfamily : family ∈ (f.node id).families)
    (hchild : child ∈ family.children) : f.Inside (f.node id).left (f.node id).right child :=
  (h.abut hid hfamily).inside (List.mem_map_of_mem hchild)

theorem inside_of_reachable (h : f.Exact tokens trimmed) (ha : a < f.size) (hreach : Reachable f.table.nodes [a] b) :
    f.Inside (f.node a).left (f.node a).right b := by
  induction hreach with
  | root hmem => exact List.mem_singleton.mp hmem ▸ ⟨Nat.le_refl _, Nat.le_refl _⟩
  | child hreach hfamily hchild ih =>
    have hinside := h.inside_child (h.lt_of_reachable ha hreach) hfamily hchild
    exact ⟨Nat.le_trans ih.1 hinside.1, Nat.le_trans hinside.2 ih.2⟩

/-- From every node a node of the same extent with an exit can be reached. -/
theorem exists_exit (h : f.Exact tokens trimmed) (hid : id < f.size) :
    ∃ b, Reachable f.table.nodes [id] b ∧ f.SameExtent b id ∧ f.IsExit b := by
  obtain ⟨trees, htrees⟩ := h.nonempty_treesAt hid
  induction hsize : sizeOf trees using Nat.strong_induction_on generalizing id trees with
  | _ n ih =>
    cases hterminal : (f.node id).label.isTerminal with
    | true => exact ⟨id, .refl id, ⟨rfl, rfl⟩, .inl (h.families_of_terminal hid hterminal)⟩
    | false =>
      obtain ⟨family, hfamily, hparts⟩ := h.exists_smaller hid hterminal htrees
      by_cases hexit : ∃ child ∈ family.children, f.SameExtent child id
      · obtain ⟨child, hchild, hsame⟩ := hexit
        obtain ⟨part, hpart, hlt⟩ := hparts child hchild
        obtain ⟨b, hreach, hsame', hexit⟩ := ih _ (hsize ▸ hlt) (h.child_lt hid hfamily hchild) part hpart rfl
        have hstep : Reachable f.table.nodes [id] child := .child (.refl id) hfamily hchild
        exact ⟨b, hstep.trans hreach, ⟨hsame'.1.trans hsame.1, hsame'.2.trans hsame.2⟩, hexit⟩
      · refine ⟨id, .refl id, ⟨rfl, rfl⟩, .inr ⟨family, hfamily, fun child hchild hsame => ?_⟩⟩
        exact hexit ⟨child, hchild, hsame⟩

theorem downwardFrom (h : f.Exact tokens trimmed) (ha : a < f.size) :
    Survey.Downward f.table.nodes (Reachable f.table.nodes [a]) where
  lt hreach := h.lt_of_reachable ha hreach
  child hid hfamily hchild := .child hid hfamily hchild

end Exact

/-! ## Nodes over no input -/

/-- The survey is done with the node and has found a derivation without loops. -/
def Productive (marks : Array Mark) (a : NodeId) : Prop :=
  ∃ facts, marks.getD a .unseen = .done facts ∧ 0 < facts.count

theorem Productive.advance {S : NodeId → Prop} (h : Productive marks a) (hadvances : Advances S marks marks') :
    Productive marks' a := by
  obtain ⟨facts, hdone, hpos⟩ := h
  exact ⟨facts, (hadvances.keeps (by simp [hdone])).trans hdone, hpos⟩

theorem Productive.factsOf (h : Productive marks a) : 0 < (Survey.factsOf marks a).count := by
  obtain ⟨facts, hdone, hpos⟩ := h
  rw [Survey.factsOf, hdone]
  exact hpos

/-- Grounded nodes over no input have a derivation without loops. -/
theorem Exact.productive_of_empty (h : f.Exact tokens trimmed) (hground : Survey.Grounded f.table.nodes marks a)
    (ha : a < f.size) (hempty : ¬ f.HasInput a) : Productive marks a := by
  induction hground with
  | @intro a facts hdone hfacts hback hforward ih =>
    have hcount : facts.count = (Survey.settle f.table.nodes marks (f.node a) facts.loops).count :=
      congrArg Facts.count hfacts
    refine ⟨facts, hdone, hcount ▸ ?_⟩
    by_cases hleaf : (f.node a).families = #[]
    · rw [Survey.settle_count_of_empty hleaf]
      exact Nat.one_pos
    · by_cases hloops : facts.loops = []
      · obtain ⟨family, hfamily⟩ := Array.exists_mem_of_ne_empty _ hleaf
        obtain ⟨k, hget⟩ := Array.mem_iff_getElem?.mp hfamily
        have hmem := Survey.mem_forwardFamilies.mpr ⟨k, hget, hloops ▸ List.not_mem_nil⟩
        refine Survey.settle_count_pos hmem fun child hchild => ?_
        have hinside := h.inside_child ha hfamily hchild
        refine (ih family hmem child hchild (h.child_lt ha hfamily hchild) fun hinput => hempty ?_).factsOf
        exact Nat.lt_of_le_of_lt hinside.1 (Nat.lt_of_lt_of_le hinput hinside.2)
      · have hnode : (f.node a).isEmpty = true := by
          have hle := (h.derived ha).le
          exact beq_iff_eq.mpr (Nat.le_antisymm hle (Nat.not_lt.mp hempty))
        rw [Survey.settle_count hleaf, if_pos ⟨hloops, hnode⟩]
        exact Nat.succ_pos _

/-! ## A survey underway -/

/-- The survey is about to visit `x` or children of `x`: it has fuel, what it is done with is grounded, and the path leads
to `x`. -/
structure Underway (f : Forest α) (fuel : Nat) (x : NodeId) (marks : Array Mark) : Prop where
  fueled : Fueled f.table.nodes fuel marks
  grounded : AllGrounded f.table.nodes marks
  childrenSeen : ChildrenSeen f.table.nodes marks
  path : PathTo f.table.nodes marks x

namespace Underway

omit [DecidableEq α] in
/-- What leads to a node leads to its children. -/
theorem toChild (h : f.Underway fuel x marks) (hfamily : family ∈ (f.node x).families) (hchild : child ∈ family.children) :
    f.Underway fuel child marks :=
  ⟨h.fueled, h.grounded, h.childrenSeen, fun _ hpath => .child (h.path hpath) hfamily hchild⟩

/-- A visit of a child leaves the survey underway. -/
theorem visit (hf : f.Exact tokens trimmed) (hx : x < f.size) (h : f.Underway fuel x marks)
    (hfamily : family ∈ (f.node x).families) (hchild : child ∈ family.children)
    (hunseen : marks.getD child .unseen = .unseen) :
    f.Underway fuel x (Survey.visit f.table.nodes fuel child marks) ∧
      Advances (Reachable f.table.nodes [child]) marks (Survey.visit f.table.nodes fuel child marks) ∧
      ∃ facts, (Survey.visit f.table.nodes fuel child marks).getD child .unseen = .done facts := by
  have hS := hf.downwardFrom (hf.child_lt hx hfamily hchild)
  have hadvances := Survey.advances_visit hS fuel (.refl child) h.fueled.size_eq hunseen
  refine ⟨⟨h.fueled.advance hadvances, ?_, ?_, h.path.advance hadvances⟩, hadvances,
    Survey.done_visit hS (.refl child) h.fueled hunseen⟩
  · exact Survey.allGrounded_visit hS fuel (.refl child) h.fueled hunseen (h.toChild hfamily hchild).path h.grounded
  · exact (Survey.childrenSeen_visit hS fuel (.refl child) h.fueled hunseen h.childrenSeen).1

omit [DecidableEq α] in
/-- Putting the node itself on the path leaves the survey underway. -/
theorem enter (h : f.Underway fuel x marks) (hx : x < f.size) (hunseen : marks.getD x .unseen = .unseen) {rest : Nat}
    (hentered : Fueled f.table.nodes rest (marks.setIfInBounds x .onPath)) :
    f.Underway rest x (marks.setIfInBounds x .onPath) := by
  have hlt : x < marks.size := h.fueled.size_eq ▸ hx
  refine ⟨hentered, h.grounded.enter hlt hunseen, ?_, fun a hpath => ?_⟩
  · refine h.childrenSeen.set hlt (by simp) fun facts hfacts => ?_
    cases hfacts
  · by_cases hne : x = a
    · exact hne ▸ .refl x
    · rw [Survey.getD_set_of_ne hne] at hpath
      exact h.path hpath

/-- The path to a node that covers input holds no node over no input. -/
theorem not_onPath (hf : f.Exact tokens trimmed) (h : f.Underway fuel x marks) (hinput : f.HasInput x) (ha : a < f.size)
    (hempty : ¬ f.HasInput a) : marks.getD a .unseen ≠ .onPath := by
  intro hpath
  have hinside := hf.inside_of_reachable ha (h.path hpath)
  exact hempty (Nat.lt_of_le_of_lt hinside.1 (Nat.lt_of_lt_of_le hinput hinside.2))

end Underway

/-! ## The first exit -/

/-- Nothing that covers input within the extent of `x` has been seen, nodes of this very extent apart, and none of those that
the survey is done with has an exit. -/
structure Hopeful (f : Forest α) (x : NodeId) (marks : Array Mark) : Prop where
  fresh : ∀ {a}, f.HasInput a → f.Inside (f.node x).left (f.node x).right a → ¬ f.SameExtent a x →
    marks.getD a .unseen = .unseen
  exitless : ∀ {a facts}, f.SameExtent a x → marks.getD a .unseen = .done facts → ¬ f.IsExit a

namespace Hopeful

omit [DecidableEq α]

theorem congr {y : NodeId} (h : f.Hopeful x marks) (hsame : f.SameExtent y x) : f.Hopeful y marks where
  fresh hcovers hinside hne := by
    rw [hsame.1, hsame.2] at hinside
    exact h.fresh hcovers hinside fun heq => hne ⟨heq.1.trans hsame.1.symm, heq.2.trans hsame.2.symm⟩
  exitless heq hdone := h.exitless ⟨heq.1.trans hsame.1, heq.2.trans hsame.2⟩ hdone

/-- What is seen over no input changes nothing. -/
theorem advance {S : NodeId → Prop} (h : f.Hopeful x marks) (hadvances : Advances S marks marks')
    (hempty : ∀ {a}, S a → ¬ f.HasInput a) (hinput : f.HasInput x) : f.Hopeful x marks' where
  fresh hcovers hinside hne := by
    by_contra hseen
    rcases hadvances.seen hseen with hbefore | hS
    · exact hbefore (h.fresh hcovers hinside hne)
    · exact hempty hS hcovers
  exitless {a facts} hsame hdone := by
    have hseen : marks'.getD a .unseen ≠ .unseen := by
      rw [hdone]
      simp
    rcases hadvances.seen hseen with hbefore | hS
    · rw [hadvances.keeps hbefore] at hdone
      exact h.exitless hsame hdone
    · refine absurd ?_ (hempty hS)
      rw [HasInput, hsame.1, hsame.2]
      exact hinput

end Hopeful

/-- The marks after children were seen one after the other. -/
def seeAll (f : Forest α) (fuel : Nat) (children : List NodeId) (marks : Array Mark) : Array Mark :=
  children.foldl (Survey.see (Survey.visit f.table.nodes fuel)) marks

omit [DecidableEq α] in
theorem seeAll_append (before after : List NodeId) :
    f.seeAll fuel (before ++ after) marks = f.seeAll fuel after (f.seeAll fuel before marks) :=
  List.foldl_append

theorem Exact.advances_seeAll (hf : f.Exact tokens trimmed) (hx : x < f.size) {children : List NodeId}
    (hchildren : ∀ c ∈ children, ∃ family ∈ (f.node x).families, c ∈ family.children)
    (hsize : marks.size = f.table.nodes.size) :
    Advances (Reachable f.table.nodes [x]) marks (f.seeAll fuel children marks) := by
  refine Advances.sweep (fun hid hsize => Survey.advances_visit (hf.downwardFrom hx) fuel hid hsize) (fun c hc => ?_) hsize
  obtain ⟨family, hfamily, hmem⟩ := hchildren c hc
  exact .child (.refl x) hfamily hmem

/-- A visit of a node that covers input finds a derivation or leaves everything below it unseen. -/
def Finds (f : Forest α) (fuel : Nat) : Prop :=
  ∀ ⦃x marks⦄, x < f.size → f.HasInput x → f.Underway fuel x marks → marks.getD x .unseen = .unseen →
    f.Hopeful x marks → Productive (Survey.visit f.table.nodes fuel x marks) x ∨
      f.Hopeful x (Survey.visit f.table.nodes fuel x marks)

namespace Finds

/-- If nothing within the extent of a node has been seen, a visit finds a derivation: it is done with all nodes of this
extent below, and one of them has an exit. -/
theorem productive (h : f.Finds fuel) (hf : f.Exact tokens trimmed) (hx : x < f.size) (hinput : f.HasInput x)
    (hunder : f.Underway fuel x marks)
    (huntouched : ∀ {a}, f.HasInput a → f.Inside (f.node x).left (f.node x).right a → marks.getD a .unseen = .unseen) :
    Productive (Survey.visit f.table.nodes fuel x marks) x := by
  have hsame : ∀ {a}, f.SameExtent a x → marks.getD a .unseen = .unseen := by
    intro a hsame
    refine huntouched ?_ ⟨Nat.le_of_eq hsame.1.symm, Nat.le_of_eq hsame.2⟩
    rw [HasInput, hsame.1, hsame.2]
    exact hinput
  have hunseen := hsame ⟨rfl, rfl⟩
  have hhopeful : f.Hopeful x marks := by
    refine ⟨fun hcovers hinside _ => huntouched hcovers hinside, fun heq hdone => ?_⟩
    rw [hsame heq] at hdone
    cases hdone
  refine (h hx hinput hunder hunseen hhopeful).resolve_right fun hleft => ?_
  have hS := hf.downwardFrom hx
  have hadvances := Survey.advances_visit hS fuel (.refl x) hunder.fueled.size_eq hunseen
  have hchildren := (Survey.childrenSeen_visit hS fuel (.refl x) hunder.fueled hunseen hunder.childrenSeen).1
  have hdone : ∀ {b}, Reachable f.table.nodes [x] b → f.SameExtent b x →
      ∃ facts, (Survey.visit f.table.nodes fuel x marks).getD b .unseen = .done facts := by
    intro b hreach
    induction hreach with
    | root hmem =>
      rw [List.mem_singleton.mp hmem]
      exact fun _ => Survey.done_visit hS (.refl x) hunder.fueled hunseen
    | @child a b family hreach hfamily hchild ih =>
      intro heq
      have ha := hf.inside_of_reachable hx hreach
      have hb := hf.inside_child (hf.lt_of_reachable hx hreach) hfamily hchild
      obtain ⟨facts, hdone⟩ := ih ⟨Nat.le_antisymm (heq.1 ▸ hb.1) ha.1, Nat.le_antisymm ha.2 (heq.2 ▸ hb.2)⟩
      cases hmark : (Survey.visit f.table.nodes fuel x marks).getD b .unseen with
      | unseen => exact absurd hmark (hchildren hdone family hfamily b hchild)
      | onPath =>
        have hpath := hadvances.onPath hmark
        rw [hsame heq] at hpath
        cases hpath
      | done facts => exact ⟨facts, rfl⟩
  obtain ⟨b, hreach, heq, hexit⟩ := hf.exists_exit hx
  obtain ⟨facts, hb⟩ := hdone hreach heq
  exact hleft.exitless heq hb hexit

/-- A child that covers no input, or a stretch where nothing has been seen, is found to have a derivation. -/
theorem see (h : f.Finds fuel) (hf : f.Exact tokens trimmed) (hx : x < f.size) (hinput : f.HasInput x)
    (hfamily : family ∈ (f.node x).families) (hc : c ∈ family.children) (hunder : f.Underway fuel x marks)
    (huntouched : ∀ {a}, f.HasInput a → f.Inside (f.node c).left (f.node c).right a → marks.getD a .unseen = .unseen) :
    f.Underway fuel x (f.seeAll fuel [c] marks) ∧
      Advances (f.Inside (f.node c).left (f.node c).right) marks (f.seeAll fuel [c] marks) ∧
      Productive (f.seeAll fuel [c] marks) c := by
  have hlt := hf.child_lt hx hfamily hc
  simp only [seeAll, List.foldl_cons, List.foldl_nil, Survey.see]
  split
  · rename_i hunseen
    obtain ⟨hunder', hadvances, facts, hdone⟩ := hunder.visit hf hx hfamily hc hunseen
    refine ⟨hunder', hadvances.imp fun a hreach => hf.inside_of_reachable hlt hreach, ?_⟩
    by_cases hcovers : f.HasInput c
    · exact h.productive hf hlt hcovers (hunder.toChild hfamily hc) huntouched
    · exact hf.productive_of_empty (hunder'.grounded hdone) hlt hcovers
  · rename_i hseen
    have hempty : ¬ f.HasInput c := fun hcovers => hseen (huntouched hcovers ⟨Nat.le_refl _, Nat.le_refl _⟩)
    refine ⟨hunder, .refl marks, ?_⟩
    cases hmark : marks.getD c .unseen with
    | unseen => exact absurd hmark hseen
    | onPath => exact absurd hmark (hunder.not_onPath hf hinput hlt hempty)
    | done facts => exact hf.productive_of_empty (hunder.grounded hmark) hlt hempty

/-- Children that stand in a row over a stretch where nothing has been seen are all found to have a derivation. -/
theorem sweep (h : f.Finds fuel) (hf : f.Exact tokens trimmed) (hx : x < f.size) (hinput : f.HasInput x)
    {children : List NodeId} (hchildren : ∀ c ∈ children, ∃ family ∈ (f.node x).families, c ∈ family.children)
    (habut : Abut (children.map fun c => (f.node c).identity) i j) (hunder : f.Underway fuel x marks)
    (huntouched : ∀ {c}, c ∈ children → ∀ {a}, f.HasInput a → f.Inside (f.node c).left (f.node c).right a →
      marks.getD a .unseen = .unseen) :
    f.Underway fuel x (f.seeAll fuel children marks) ∧
      Advances (f.Inside i j) marks (f.seeAll fuel children marks) ∧
      ∀ c ∈ children, Productive (f.seeAll fuel children marks) c := by
  induction children generalizing i marks with
  | nil => exact ⟨hunder, .refl marks, by simp⟩
  | cons c children ih =>
    obtain ⟨family, hfamily, hc⟩ := hchildren c List.mem_cons_self
    obtain ⟨hunder', hfirst, hproductive⟩ := h.see hf hx hinput hfamily hc hunder (huntouched List.mem_cons_self)
    cases habut with
    | cons hle hrest =>
      -- the stretch of the first child and those of the others have no input in common
      obtain ⟨hunder'', hothers, hall⟩ := ih (fun c' hc' => hchildren c' (List.mem_cons_of_mem c hc')) hrest hunder'
        fun {c'} hc' {a} hcovers hinside => by
          have hright := (hrest.inside (List.mem_map_of_mem hc')).1
          by_contra hseen
          rcases hfirst.seen hseen with hbefore | hwithin
          · exact hbefore (huntouched (List.mem_cons_of_mem c hc') hcovers hinside)
          · have hle := Nat.le_trans hright hinside.1
            exact absurd (Nat.lt_of_le_of_lt hle hcovers) (Nat.not_lt.mpr hwithin.2)
      refine ⟨hunder'', ?_, fun c' hc' => ?_⟩
      · refine (hfirst.imp fun a hinside => ?_).trans (hothers.imp fun a hinside => ?_)
        · exact ⟨hinside.1, Nat.le_trans hinside.2 hrest.le⟩
        · exact ⟨Nat.le_trans hle hinside.1, hinside.2⟩
      · rcases List.mem_cons.mp hc' with rfl | hmem
        · exact hproductive.advance hothers
        · exact hall c' hmem

/-- Children in a row over no input are found to have a derivation, and nothing that covers input is seen. -/
theorem sweep_empty (h : f.Finds fuel) (hf : f.Exact tokens trimmed) (hx : x < f.size) (hinput : f.HasInput x)
    {children : List NodeId} (hchildren : ∀ c ∈ children, ∃ family ∈ (f.node x).families, c ∈ family.children)
    (habut : Abut (children.map fun c => (f.node c).identity) i i) (hunder : f.Underway fuel x marks) :
    f.Underway fuel x (f.seeAll fuel children marks) ∧
      (f.Hopeful x marks → f.Hopeful x (f.seeAll fuel children marks)) ∧
      Advances (f.Inside i i) marks (f.seeAll fuel children marks) ∧
      ∀ c ∈ children, Productive (f.seeAll fuel children marks) c := by
  have hempty : ∀ {a}, f.Inside i i a → ¬ f.HasInput a := by
    intro a hinside hcovers
    exact absurd (Nat.lt_of_le_of_lt hinside.1 (Nat.lt_of_lt_of_le hcovers hinside.2)) (Nat.lt_irrefl i)
  obtain ⟨hunder', hadvances, hall⟩ := h.sweep hf hx hinput hchildren habut hunder fun {c} hc {a} hcovers hinside => by
    have hwithin := habut.inside (List.mem_map_of_mem hc)
    exact absurd hcovers (hempty ⟨Nat.le_trans hwithin.1 hinside.1, Nat.le_trans hinside.2 hwithin.2⟩)
  exact ⟨hunder', fun hhopeful => hhopeful.advance hadvances hempty hinput, hadvances, hall⟩

/-- A child with the extent of its node is found to have a derivation, or hope is left. -/
theorem see_same (h : f.Finds fuel) (hf : f.Exact tokens trimmed) (hx : x < f.size) (hinput : f.HasInput x)
    (hfamily : family ∈ (f.node x).families) (hc : c ∈ family.children) (hsame : f.SameExtent c x)
    (hunder : f.Underway fuel x marks) (hhopeful : f.Hopeful x marks) :
    f.Underway fuel x (f.seeAll fuel [c] marks) ∧
      (Productive (f.seeAll fuel [c] marks) c ∨ f.Hopeful x (f.seeAll fuel [c] marks)) := by
  simp only [seeAll, List.foldl_cons, List.foldl_nil, Survey.see]
  split
  · rename_i hunseen
    have hcovers : f.HasInput c := by
      rw [HasInput, hsame.1, hsame.2]
      exact hinput
    refine ⟨(hunder.visit hf hx hfamily hc hunseen).1, ?_⟩
    refine (h (hf.child_lt hx hfamily hc) hcovers (hunder.toChild hfamily hc) hunseen (hhopeful.congr hsame)).imp_right ?_
    exact fun hleft => hleft.congr ⟨hsame.1.symm, hsame.2.symm⟩
  · exact ⟨hunder, .inr hhopeful⟩

/-- Going through a family finds derivations of all children, or leaves hope: then a child has the extent of the node. -/
theorem sweep_family (h : f.Finds fuel) (hf : f.Exact tokens trimmed) (hx : x < f.size) (hinput : f.HasInput x)
    (hfamily : family ∈ (f.node x).families) (hunder : f.Underway fuel x marks) (hhopeful : f.Hopeful x marks) :
    f.Underway fuel x (f.seeAll fuel family.children marks) ∧
      ((∀ c ∈ family.children, Productive (f.seeAll fuel family.children marks) c) ∨
        f.Hopeful x (f.seeAll fuel family.children marks) ∧ ∃ c ∈ family.children, f.SameExtent c x) := by
  have habut := hf.abut hx hfamily
  by_cases hexit : ∃ c ∈ family.children, f.SameExtent c x
  · obtain ⟨c, hc, hsame⟩ := hexit
    obtain ⟨before, after, hsplit⟩ := List.append_of_mem hc
    have hmem : ∀ c' ∈ before ++ c :: after, ∃ family ∈ (f.node x).families, c' ∈ family.children :=
      fun c' hc' => ⟨family, hfamily, hsplit ▸ hc'⟩
    -- the children before and after it cover no input
    rw [Order.familyKey, hsplit, List.map_append, List.map_cons] at habut
    obtain ⟨hbefore, hafter⟩ := habut.of_append
    have hleft : (f.table.nodes.getD c default).identity.left = (f.node x).left := hsame.1
    have hright : (f.table.nodes.getD c default).identity.right = (f.node x).right := hsame.2
    rw [hleft] at hbefore
    rw [hright] at hafter
    obtain ⟨hunder₁, hhopeful₁, -, hall₁⟩ := h.sweep_empty hf hx hinput
      (fun c' hc' => hmem c' (List.mem_append_left _ hc')) hbefore hunder
    obtain ⟨hunder₂, hfound⟩ := h.see_same hf hx hinput hfamily hc hsame hunder₁ (hhopeful₁ hhopeful)
    obtain ⟨hunder₃, hhopeful₃, hadvances₃, hall₃⟩ := h.sweep_empty hf hx hinput
      (fun c' hc' => hmem c' (List.mem_append_right _ (List.mem_cons_of_mem c hc'))) hafter hunder₂
    have hstages : f.seeAll fuel family.children marks =
        f.seeAll fuel after (f.seeAll fuel [c] (f.seeAll fuel before marks)) := by
      rw [hsplit, seeAll_append]
      rfl
    rw [hstages]
    refine ⟨hunder₃, hfound.imp (fun hproductive c' hc' => ?_) fun hleft => ⟨hhopeful₃ hleft, c, hc, hsame⟩⟩
    rw [hsplit, List.mem_append, List.mem_cons] at hc'
    rcases hc' with hc' | rfl | hc'
    · exact (hall₁ c' hc').advance
        (hf.advances_seeAll hx (fun c' hc' => hmem c' (List.mem_append_right _ hc')) hunder₁.fueled.size_eq)
    · exact hproductive.advance hadvances₃
    · exact hall₃ c' hc'
  · obtain ⟨hunder', -, hall⟩ := h.sweep hf hx hinput (fun c hc => ⟨family, hfamily, hc⟩) habut hunder
      fun {c} hc {a} hcovers hinside => by
        have hwithin := hf.inside_child hx hfamily hc
        refine hhopeful.fresh hcovers ⟨Nat.le_trans hwithin.1 hinside.1, Nat.le_trans hinside.2 hwithin.2⟩ fun hsame => ?_
        refine hexit ⟨c, hc, Nat.le_antisymm ?_ hwithin.1, Nat.le_antisymm hwithin.2 ?_⟩
        · exact hsame.1 ▸ hinside.1
        · exact hsame.2 ▸ hinside.2
    exact ⟨hunder', .inl hall⟩

/-- Going through families finds one whose children all have derivations, or leaves hope: then each has a child with the
extent of the node. -/
theorem sweep_families (h : f.Finds fuel) (hf : f.Exact tokens trimmed) (hx : x < f.size) (hinput : f.HasInput x)
    {families : List Family} (hfamilies : ∀ family ∈ families, family ∈ (f.node x).families)
    (hunder : f.Underway fuel x marks) (hhopeful : f.Hopeful x marks) :
    (∃ family ∈ families, ∀ c ∈ family.children,
      Productive (f.seeAll fuel (families.flatMap Family.children) marks) c) ∨
    f.Hopeful x (f.seeAll fuel (families.flatMap Family.children) marks) ∧
      ∀ family ∈ families, ∃ c ∈ family.children, f.SameExtent c x := by
  induction families generalizing marks with
  | nil => exact .inr ⟨hhopeful, by simp⟩
  | cons family families ih =>
    rw [List.flatMap_cons, seeAll_append]
    obtain ⟨hunder', hfound⟩ := h.sweep_family hf hx hinput (hfamilies family List.mem_cons_self) hunder hhopeful
    rcases hfound with hall | ⟨hleft, hback⟩
    · refine .inl ⟨family, List.mem_cons_self, fun c hc => (hall c hc).advance (S := Reachable f.table.nodes [x]) ?_⟩
      refine hf.advances_seeAll hx (fun c' hc' => ?_) hunder'.fueled.size_eq
      obtain ⟨family', hfamily', hmem⟩ := List.mem_flatMap.mp hc'
      exact ⟨family', hfamilies family' (List.mem_cons_of_mem _ hfamily'), hmem⟩
    · rcases ih (fun family' hmem => hfamilies family' (List.mem_cons_of_mem _ hmem)) hunder' hleft with
        ⟨family', hmem, hall⟩ | ⟨hleft', hback'⟩
      · exact .inl ⟨family', List.mem_cons_of_mem _ hmem, hall⟩
      · exact .inr ⟨hleft', List.forall_mem_cons.mpr ⟨hback, hback'⟩⟩

end Finds

omit [DecidableEq α] in
/-- The mark of the node itself is of no account, as long as the node has no exit when it is done. -/
theorem Hopeful.set {mark : Mark} (h : f.Hopeful x marks) (hlt : x < marks.size)
    (hexit : ∀ facts, mark = .done facts → ¬ f.IsExit x) : f.Hopeful x (marks.setIfInBounds x mark) where
  fresh {a} hcovers hinside hne := by
    have hother : x ≠ a := by
      rintro rfl
      exact hne ⟨rfl, rfl⟩
    rw [Survey.getD_set_of_ne hother]
    exact h.fresh hcovers hinside hne
  exitless {a facts} hsame hdone := by
    by_cases hself : x = a
    · subst hself
      rw [Survey.getD_set_self hlt] at hdone
      exact hexit facts hdone
    · rw [Survey.getD_set_of_ne hself] at hdone
      exact h.exitless hsame hdone

/-- Every visit of a node that covers input finds a derivation or leaves everything below it unseen. -/
theorem Exact.finds (hf : f.Exact tokens trimmed) (fuel : Nat) : f.Finds fuel := by
  induction fuel with
  | zero =>
    intro x marks hx _ hunder hunseen
    obtain ⟨rest, hrest, -⟩ := hunder.fueled.enter hx hunseen
    cases hrest
  | succ fuel ih =>
    intro x marks hx hinput hunder hunseen hhopeful
    obtain ⟨rest, seen, loops, hrest, hentered, hseen, hswept, hvisit⟩ :=
      Survey.visit_eq (hf.downwardFrom hx) (.refl x) hunder.fueled hunseen
    cases hrest
    have hlt : x < marks.size := hunder.fueled.size_eq ▸ hx
    have hltSeen := (hswept.onPath hlt).1
    have hstages : seen = f.seeAll fuel ((f.node x).families.toList.flatMap Family.children)
        (marks.setIfInBounds x .onPath) := by
      have hfirst := congrArg Prod.fst hseen
      rw [Survey.visitFamilies_fst, ← List.flatMap_map, List.zipIdx_map_fst] at hfirst
      exact hfirst
    rw [hvisit]
    by_cases hleaf : (f.node x).families = #[]
    · exact .inl ⟨_, Survey.getD_set_self hltSeen, (Survey.settle_count_of_empty hleaf).symm ▸ Nat.one_pos⟩
    · rcases ih.sweep_families hf hx hinput (fun family hmem => Array.mem_toList_iff.mp hmem)
        (hunder.enter hx hunseen hentered) (hhopeful.set hlt (by simp)) with ⟨family, hmem, hall⟩ | ⟨hleft, hback⟩
      · rw [← hstages] at hall
        obtain ⟨k, hget⟩ := Array.mem_iff_getElem?.mp (Array.mem_toList_iff.mp hmem)
        have hforward : k ∉ loops := by
          intro hk
          obtain ⟨family', hget', c, hc, hpath⟩ := hswept.loops.mp hk
          obtain rfl := Option.some.inj (hget.symm.trans hget')
          obtain ⟨facts, hdone, -⟩ := hall c hc
          rw [hpath] at hdone
          cases hdone
        refine .inl ⟨_, Survey.getD_set_self hltSeen, ?_⟩
        exact Survey.settle_count_pos (Survey.mem_forwardFamilies.mpr ⟨k, hget, hforward⟩)
          fun c hc => (hall c hc).factsOf
      · rw [← hstages] at hleft
        refine .inr (hleft.set hltSeen fun _ _ hexit => ?_)
        rcases hexit with hnone | ⟨family, hfamily, hless⟩
        · exact hleaf hnone
        · obtain ⟨c, hc, hsame⟩ := hback family (Array.mem_toList_iff.mpr hfamily)
          exact hless c hc hsame

/-! ## Counts -/

namespace Exact

/-- Nodes over no input have positive counts. -/
theorem count_pos_of_empty (h : f.Exact tokens trimmed) (hid : id < f.size) (hempty : ¬ f.HasInput id) :
    0 < f.count id := by
  have hpos := (h.productive_of_empty (h.grounded hid) hid hempty).factsOf
  rwa [factsOf_marks] at hpos

/-- The root has a positive count. -/
theorem count_root_pos (h : f.Exact tokens trimmed) {root : NodeId} (hroots : f.roots = [root]) (hroot : root < f.size) :
    0 < f.count root := by
  by_cases hinput : f.HasInput root
  · have hunder : f.Underway (f.table.nodes.size + 1) root (Array.replicate f.table.nodes.size .unseen) := by
      refine ⟨Survey.fueled_start _, ?_, ?_, ?_⟩ <;> intro a
      · intro facts hdone
        rw [Survey.unseen_start] at hdone
        cases hdone
      · intro facts hdone
        rw [Survey.unseen_start] at hdone
        cases hdone
      · intro hpath
        rw [Survey.unseen_start] at hpath
        cases hpath
    have hproductive := (h.finds _).productive h hroot hinput hunder fun _ _ => Survey.unseen_start _ _
    have hrun : f.marks = Survey.visit f.table.nodes (f.table.nodes.size + 1) root
        (Array.replicate f.table.nodes.size .unseen) := by
      rw [h.surveyed, hroots, Survey.run_eq, List.foldl_cons, List.foldl_nil, Survey.see, Survey.unseen_start]
    rw [← hrun] at hproductive
    have hpos := hproductive.factsOf
    rwa [factsOf_marks] at hpos
  · exact h.count_pos_of_empty hroot hinput

end Exact
end Forest

/-- `S → 'a' | E | L S`, `E → S` and `L → L | ε`. -/
def Sample.winding : Prepared Char :=
  prepare [(0, [.terminal 0]), (0, [.nonterminal 1]), (0, [.nonterminal 2, .nonterminal 0]), (1, [.nonterminal 0]),
    (2, []), (2, [.nonterminal 2])]

namespace Recognizer

variable [Quote α]

/-- A forest that a run leaves counts at least one tree, and so does every node over no input. Where a node counts none, no
derivation of it is left without loops. -/
theorem forest_counts_pos (r : Recognizer α) (hp : r.grammar.Built) (input : Array α) (offset : Nat) {f : Forest α}
    (hf : (r.parseFrom input offset).outcome.forest = some f) :
    1 ≤ f.total ∧ (∀ id < f.size, (f.node id).isEmpty = true → 1 ≤ f.count id) ∧
    ∀ id < f.size, f.count id = 0 → f.unfoldings id = ∅ := by
  obtain ⟨-, -, trimmed, h⟩ := r.exists_exact hp input offset hf
  obtain ⟨root, hroots, hroot, -⟩ := h.root
  refine ⟨?_, fun id hid hempty => h.count_pos_of_empty hid ?_, fun id hid hzero => ?_⟩
  · have htotal : f.total = f.count root := by simp [Forest.total, hroots]
    rw [htotal]
    exact h.count_root_pos hroots hroot
  · have hextent : (f.node id).left = (f.node id).right := by
      simpa [Node.isEmpty, Identity.isEmpty, Node.left, Node.right] using hempty
    exact fun hinput => Nat.ne_of_lt hinput hextent
  · have hle := h.encard_unfoldings_le hid
    rwa [hzero, Nat.cast_zero, nonpos_iff_eq_zero, Set.encard_eq_zero] at hle

/-- Of the nodes over the letter, `E` counts nothing: it was met on the way from `S`, and leads nowhere else. -/
theorem forest_counts_pos_winding : Sample.winding.Built ∧ ∃ f : Forest Char,
    (parseFrom ⟨Sample.winding, .gll {}, none⟩ #['b', 'a'] 1).outcome.forest = some f ∧ 1 ≤ f.total ∧
    (f.node 2).label = .symbol (.nonterminal 1) ∧ f.count 2 = 0 ∧ f.unfoldings 2 = ∅ ∧
    (f.node 3).isEmpty = true ∧ 1 ≤ f.count 3 := by
  have hread : (parseFrom ⟨Sample.winding, .gll {}, none⟩ #['b', 'a'] 1).outcome.forest.map
      (fun f => (f.size, (f.node 2).label, f.count 2, (f.node 3).isEmpty)) =
      some (4, .symbol (.nonterminal 1), 0, true) := by decide +kernel
  obtain ⟨f, hf, hfacts⟩ := Option.map_eq_some_iff.mp hread
  simp only [Prod.mk.injEq] at hfacts
  obtain ⟨hsize, hlabel, hzero, hempty⟩ := hfacts
  obtain ⟨htotal, hover, hnone⟩ := forest_counts_pos ⟨Sample.winding, .gll {}, none⟩ (Sample.built_prepare _) #['b', 'a'] 1 hf
  exact ⟨Sample.built_prepare _, f, hf, htotal, hlabel, hzero, hnone 2 (by omega) hzero, hempty,
    hover 3 (by omega) hempty⟩

end Recognizer
end ContextFree
