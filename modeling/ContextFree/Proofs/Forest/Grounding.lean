-- SUMMARY: The facts that a survey settles: they follow from those of the children, loops left aside, and loops lead back.
import ContextFree.Proofs.Forest.Alike
import Mathlib.Algebra.BigOperators.Ring.List
import Mathlib.Algebra.Order.BigOperators.Group.List

/-!
# What the survey settles

A node is grounded if the facts about it are settled from its forward families, those that are no loops, and the children
of these are grounded. Grounded nodes are well founded along forward families, so what the facts say about a node can be
shown by induction. A loop family has a child from which its node can be reached. The survey grounds every node that it is
done with: when it settles a node, all children that are not on the path are done.
-/
namespace ContextFree.Survey

variable {nodes : Array Node} {marks marks' : Array Mark} {id child : NodeId} {family : Family} {i : Nat}
  {loops : List Nat} {S : NodeId → Prop}

/-! ## Settling -/

/-- The families that are no loops. -/
def forwardFamilies (node : Node) (loops : List Nat) : List Family :=
  (node.families.toList.zipIdx.filter fun (_, i) => !loops.contains i).map (·.1)

theorem mem_forwardFamilies {node : Node} :
    family ∈ forwardFamilies node loops ↔ ∃ i, node.families[i]? = some family ∧ i ∉ loops := by
  simp only [forwardFamilies, List.mem_map, List.mem_filter, Prod.exists, List.mem_zipIdx_iff_getElem?,
    Array.getElem?_toList, Bool.not_eq_true', List.contains_eq_mem, decide_eq_false_iff_not]
  constructor
  · rintro ⟨family, i, ⟨hget, hforward⟩, rfl⟩
    exact ⟨i, hget, hforward⟩
  · rintro ⟨i, hget, hforward⟩
    exact ⟨family, i, ⟨hget, hforward⟩, rfl⟩

theorem familyCount_eq (marks : Array Mark) (family : Family) :
    familyCount marks family = (family.children.map fun child => (factsOf marks child).count).prod := by
  rw [familyCount, ← List.foldl_map, List.prod_eq_foldl]

theorem settle_loops {node : Node} (h : node.families = #[] → loops = []) :
    (settle nodes marks node loops).loops = loops := by
  unfold settle
  dsimp only
  split
  · rename_i hempty
    exact (h (Array.isEmpty_iff.mp hempty)).symm
  · rfl

theorem settle_ambiguous (node : Node) :
    (settle nodes marks node loops).ambiguous =
      (decide (node.families.size > 1) || node.families.any (isGapped nodes)) := by
  unfold settle
  dsimp only
  split <;> rfl

theorem settle_count_of_empty {node : Node} (h : node.families = #[]) : (settle nodes marks node loops).count = 1 := by
  simp [settle, h]

theorem settle_count {node : Node} (h : node.families ≠ #[]) :
    (settle nodes marks node loops).count =
      ((forwardFamilies node loops).map (familyCount marks)).sum +
        if loops ≠ [] ∧ node.isEmpty = true then 1 else 0 := by
  have hfold : ∀ (families : List Family), families.foldl (fun sum family => sum + familyCount marks family) 0 =
      (families.map (familyCount marks)).sum := by
    intro families
    rw [← List.foldl_map, List.sum_eq_foldl]
  simp only [settle, Array.isEmpty_iff, h, if_false, hfold, forwardFamilies]
  by_cases hloop : loops ≠ [] ∧ node.isEmpty = true
  · simp [hloop]
  · have hflag : (!loops.isEmpty && node.isEmpty) = false := by simpa using hloop
    simp only [hflag, hloop, if_false, Nat.add_zero]
    rfl

/-- A forward family whose children have derivations gives its node one. -/
theorem settle_count_pos {node : Node} (hfamily : family ∈ forwardFamilies node loops)
    (hchildren : ∀ child ∈ family.children, 0 < (factsOf marks child).count) :
    0 < (settle nodes marks node loops).count := by
  obtain ⟨i, hget, -⟩ := mem_forwardFamilies.mp hfamily
  have hpos : 0 < familyCount marks family := by
    rw [familyCount_eq]
    refine Nat.pos_of_ne_zero fun hzero => ?_
    obtain ⟨child, hchild, hcount⟩ := List.mem_map.mp (List.prod_eq_zero_iff.mp hzero)
    exact Nat.ne_of_gt (hchildren child hchild) hcount
  rw [settle_count (Array.ne_empty_of_mem (Array.mem_of_getElem? hget))]
  refine Nat.lt_of_lt_of_le hpos (Nat.le_trans ?_ (Nat.le_add_right _ _))
  exact List.single_le_sum (fun _ _ => Nat.zero_le _) _ (List.mem_map_of_mem hfamily)

theorem settle_infinite {node : Node} (h : node.families = #[] → loops = []) :
    (settle nodes marks node loops).infinite = true ↔ loops ≠ [] ∨
      ∃ family ∈ forwardFamilies node loops, ∃ child ∈ family.children, (factsOf marks child).infinite = true := by
  by_cases hempty : node.families = #[]
  · simp [settle, hempty, h hempty, forwardFamilies]
  · simp only [settle, Array.isEmpty_iff, hempty, if_false, Bool.or_eq_true, List.any_eq_true, forwardFamilies]
    simp

/-- What is settled depends on the children of forward families only. -/
theorem settle_congr {node : Node}
    (h : ∀ family ∈ forwardFamilies node loops, ∀ child ∈ family.children, factsOf marks child = factsOf marks' child) :
    settle nodes marks node loops = settle nodes marks' node loops := by
  have hcounts : (forwardFamilies node loops).map (familyCount marks) =
      (forwardFamilies node loops).map (familyCount marks') := by
    apply List.map_congr_left
    intro family hfamily
    rw [familyCount_eq, familyCount_eq, List.map_congr_left fun child hchild => by rw [h family hfamily child hchild]]
  have hcount : (forwardFamilies node loops).foldl (fun sum family => sum + familyCount marks family) 0 =
      (forwardFamilies node loops).foldl (fun sum family => sum + familyCount marks' family) 0 := by
    rw [← List.foldl_map, hcounts, List.foldl_map]
  have hinfinite : ((forwardFamilies node loops).any fun family =>
        family.children.any fun child => (factsOf marks child).infinite) =
      (forwardFamilies node loops).any fun family =>
        family.children.any fun child => (factsOf marks' child).infinite := by
    rw [Bool.eq_iff_iff]
    simp only [List.any_eq_true]
    refine exists_congr fun family => and_congr_right fun hfamily => exists_congr fun child => ?_
    exact and_congr_right fun hchild => by rw [h family hfamily child hchild]
  unfold forwardFamilies at hcount hinfinite
  simp only [settle, hcount, hinfinite]

/-! ## Grounded nodes -/

/-- The facts about a node are settled from its forward families, whose children are grounded too. -/
inductive Grounded (nodes : Array Node) (marks : Array Mark) : NodeId → Prop where
  | intro {id : NodeId} {facts : Facts} :
      marks.getD id .unseen = .done facts →
      facts = settle nodes marks (nodes.getD id default) facts.loops →
      (∀ i ∈ facts.loops, ∃ family, (nodes.getD id default).families[i]? = some family ∧
        ∃ child ∈ family.children, Reachable nodes [child] id) →
      (∀ family ∈ forwardFamilies (nodes.getD id default) facts.loops, ∀ child ∈ family.children,
        Grounded nodes marks child) →
      Grounded nodes marks id

theorem Grounded.done (h : Grounded nodes marks id) : ∃ facts, marks.getD id .unseen = .done facts := by
  cases h with
  | intro hdone => exact ⟨_, hdone⟩

/-- Later marks ground what earlier marks did, as long as nodes that were done stay as they were. -/
theorem Grounded.mono (h : Grounded nodes marks id)
    (hkeep : ∀ {a facts}, marks.getD a .unseen = .done facts → marks'.getD a .unseen = .done facts) :
    Grounded nodes marks' id := by
  induction h with
  | @intro id facts hdone hfacts hback hforward ih =>
    refine .intro (hkeep hdone) (hfacts.trans (settle_congr fun family hfamily child hchild => ?_)) hback ih
    obtain ⟨_, hchildDone⟩ := (hforward family hfamily child hchild).done
    rw [factsOf, factsOf, hchildDone, hkeep hchildDone]

/-- All nodes that are done are grounded. -/
def AllGrounded (nodes : Array Node) (marks : Array Mark) : Prop :=
  ∀ ⦃a facts⦄, marks.getD a .unseen = .done facts → Grounded nodes marks a

/-- From every node on the path, `id` can be reached. -/
def PathTo (nodes : Array Node) (marks : Array Mark) (id : NodeId) : Prop :=
  ∀ ⦃a⦄, marks.getD a .unseen = .onPath → Reachable nodes [a] id

theorem PathTo.advance (h : PathTo nodes marks id) (hadvances : Advances S marks marks') : PathTo nodes marks' id :=
  fun _ hpath => h (hadvances.onPath hpath)

/-- A node is on the path that leads to its children. -/
theorem PathTo.enter (h : PathTo nodes marks id) (hfamily : family ∈ (nodes.getD id default).families)
    (hchild : child ∈ family.children) : PathTo nodes (marks.setIfInBounds id .onPath) child := by
  intro a hpath
  refine .child ?_ hfamily hchild
  by_cases hne : id = a
  · exact .root (List.mem_singleton.mpr hne)
  · rw [getD_set_of_ne hne] at hpath
    exact h hpath

/-! ## Loops -/

/-- The path stays the same while a node is visited. -/
theorem Advances.onPath_iff (h : Advances S marks marks') :
    marks'.getD id .unseen = .onPath ↔ marks.getD id .unseen = .onPath :=
  ⟨h.onPath, fun hpath => (h.keeps (by simp [hpath])).trans hpath⟩

section Loops

variable {visit : NodeId → Array Mark → Array Mark} {n : Nat}
  (hvisit : ∀ {id marks}, S id → marks.size = n → marks.getD id .unseen = .unseen → Advances S marks (visit id marks))

include hvisit

/-- A family is found to be a loop if one of its children is on the path. -/
theorem visitFamily_snd (hchildren : ∀ child ∈ family.children, S child) (hsize : marks.size = n) :
    (visitFamily visit marks family).2 = true ↔ ∃ child ∈ family.children, marks.getD child .unseen = .onPath := by
  have hfold : ∀ (children : List NodeId) (marks : Array Mark) (looped : Bool), (∀ child ∈ children, S child) →
      marks.size = n → ((children.foldl (visitChild visit) (marks, looped)).2 = true ↔
        looped = true ∨ ∃ child ∈ children, marks.getD child .unseen = .onPath) := by
    intro children
    induction children with
    | nil => simp
    | cons child children ih =>
      intro marks looped hchildren hsize
      have hrest : ∀ c ∈ children, S c := fun c hc => hchildren c (List.mem_cons_of_mem child hc)
      simp only [List.foldl_cons, visitChild, List.mem_cons, exists_eq_or_imp]
      cases hmark : marks.getD child .unseen with
      | onPath => simp [ih marks true hrest hsize]
      | done facts => simp only [ih marks looped hrest hsize, reduceCtorEq, false_or]
      | unseen =>
        have hadvances := hvisit (hchildren child List.mem_cons_self) hsize hmark
        simp only [ih _ looped hrest (hadvances.size_eq.trans hsize), hadvances.onPath_iff, reduceCtorEq, false_or]
  have hloop := hfold family.children marks false hchildren hsize
  simp only [Bool.false_eq_true, false_or] at hloop
  exact hloop

theorem mem_visitFamilies_snd {families : List (Family × Nat)}
    (hchildren : ∀ pair ∈ families, ∀ child ∈ pair.1.children, S child) (hsize : marks.size = n) :
    i ∈ (visitFamilies visit families marks).2 ↔
      ∃ family, (family, i) ∈ families ∧ ∃ child ∈ family.children, marks.getD child .unseen = .onPath := by
  induction families generalizing marks with
  | nil => simp [visitFamilies]
  | cons pair families ih =>
    obtain ⟨first, k⟩ := pair
    have hfirst : ∀ child ∈ first.children, S child := hchildren (first, k) List.mem_cons_self
    have hadvances : Advances S marks (visitFamily visit marks first).1 := by
      rw [visitFamily_fst]
      exact Advances.sweep hvisit hfirst hsize
    have hloop := visitFamily_snd hvisit hfirst hsize
    have hrest := ih (fun pair hpair => hchildren pair (List.mem_cons_of_mem _ hpair)) (hadvances.size_eq.trans hsize)
    simp only [hadvances.onPath_iff] at hrest
    simp only [visitFamilies]
    split
    · rename_i hlooped
      simp only [List.mem_cons, hrest, Prod.mk.injEq]
      constructor
      · rintro (rfl | ⟨family, hmem, hback⟩)
        · exact ⟨first, .inl ⟨rfl, rfl⟩, hloop.mp hlooped⟩
        · exact ⟨family, .inr hmem, hback⟩
      · rintro ⟨family, ⟨rfl, rfl⟩ | hmem, hback⟩
        · exact .inl rfl
        · exact .inr ⟨family, hmem, hback⟩
    · rename_i hlooped
      rw [hrest]
      constructor
      · rintro ⟨family, hmem, hback⟩
        exact ⟨family, List.mem_cons_of_mem _ hmem, hback⟩
      · rintro ⟨family, hmem, hback⟩
        rcases List.mem_cons.mp hmem with heq | hmem
        · cases heq
          exact absurd (hloop.mpr hback) hlooped
        · exact ⟨family, hmem, hback⟩

end Loops

/-! ## One visit -/

/-- What a visit has done when it comes to settling the node: all children have been seen, and the loops are the families
with a child on the path. -/
structure Swept (nodes : Array Node) (S : NodeId → Prop) (id : NodeId) (marks seen : Array Mark) (loops : List Nat) :
    Prop where
  advances : Advances S (marks.setIfInBounds id .onPath) seen
  children : ∀ {family child}, family ∈ (nodes.getD id default).families → child ∈ family.children →
    seen.getD child .unseen ≠ .unseen
  loops : ∀ {i}, i ∈ loops ↔ ∃ family, (nodes.getD id default).families[i]? = some family ∧
    ∃ child ∈ family.children, seen.getD child .unseen = .onPath

variable {seen : Array Mark}

/-- The children of forward families are done when a node is settled. -/
theorem Swept.forward (h : Swept nodes S id marks seen loops)
    (hfamily : family ∈ forwardFamilies (nodes.getD id default) loops) (hchild : child ∈ family.children) :
    ∃ facts, seen.getD child .unseen = .done facts := by
  obtain ⟨i, hget, hforward⟩ := mem_forwardFamilies.mp hfamily
  have hseen := h.children (Array.mem_of_getElem? hget) hchild
  cases hmark : seen.getD child .unseen with
  | unseen => exact absurd hmark hseen
  | onPath => exact absurd (h.loops.mpr ⟨family, hget, child, hchild, hmark⟩) hforward
  | done facts => exact ⟨facts, rfl⟩

theorem Swept.loops_of_empty (h : Swept nodes S id marks seen loops) (hempty : (nodes.getD id default).families = #[]) :
    loops = [] := by
  rw [List.eq_nil_iff_forall_not_mem]
  intro i hi
  obtain ⟨family, hget, -⟩ := h.loops.mp hi
  rw [hempty] at hget
  simp at hget

/-- The node is on the path until it is settled. -/
theorem Swept.onPath (h : Swept nodes S id marks seen loops) (hlt : id < marks.size) :
    id < seen.size ∧ seen.getD id .unseen = .onPath := by
  have hpath : (marks.setIfInBounds id .onPath).getD id .unseen = .onPath := getD_set_self hlt
  refine ⟨?_, (h.advances.keeps (by simp [hpath])).trans hpath⟩
  rw [h.advances.size_eq, Array.size_setIfInBounds]
  exact hlt

/-- Settling a node changes no mark of a node that is done. -/
theorem Swept.keeps (h : Swept nodes S id marks seen loops) (hlt : id < marks.size) {facts facts' : Facts} {a : NodeId}
    (hdone : seen.getD a .unseen = .done facts') :
    (seen.setIfInBounds id (.done facts)).getD a .unseen = .done facts' := by
  have hne : id ≠ a := by
    rintro rfl
    rw [(h.onPath hlt).2] at hdone
    cases hdone
  rw [getD_set_of_ne hne, hdone]

/-- A visit with fuel sees the node. -/
theorem done_visit (hS : Downward nodes S) {fuel : Nat} (hid : S id) (hfuel : Fueled nodes fuel marks)
    (hunseen : marks.getD id .unseen = .unseen) : ∃ facts, (visit nodes fuel id marks).getD id .unseen = .done facts := by
  obtain ⟨rest, rfl, hentered⟩ := hfuel.enter (hS.lt hid) hunseen
  have hadvances := Advances.sweep (fun hid hsize => advances_visit hS rest hid hsize) (hS.children hid) hentered.size_eq
  refine ⟨_, getD_set_self ?_⟩
  rw [visitFamilies_fst, hadvances.size_eq, Array.size_setIfInBounds, hfuel.size_eq]
  exact hS.lt hid

/-- Every visit sweeps the children of its node, and then settles it. -/
theorem visit_eq (hS : Downward nodes S) {fuel : Nat} (hid : S id) (hfuel : Fueled nodes fuel marks)
    (hunseen : marks.getD id .unseen = .unseen) :
    ∃ rest seen loops, fuel = rest + 1 ∧ Fueled nodes rest (marks.setIfInBounds id .onPath) ∧
      (seen, loops) = visitFamilies (visit nodes rest) (nodes.getD id default).families.toList.zipIdx
        (marks.setIfInBounds id .onPath) ∧
      Swept nodes S id marks seen loops ∧
      visit nodes fuel id marks = seen.setIfInBounds id (.done (settle nodes seen (nodes.getD id default) loops)) := by
  obtain ⟨rest, rfl, hentered⟩ := hfuel.enter (hS.lt hid) hunseen
  refine ⟨rest, _, _, rfl, hentered, rfl, ⟨?_, ?_, ?_⟩, rfl⟩
  · rw [visitFamilies_fst]
    exact Advances.sweep (fun hid hsize => advances_visit hS rest hid hsize) (hS.children hid) hentered.size_eq
  · intro family child hfamily hchild
    rw [visitFamilies_fst]
    have hvisits := foldl_visits (P := Fueled nodes rest) (Q := fun c marks => marks.getD c .unseen ≠ .unseen)
      (f := see (visit nodes rest)) (Advances.refl (S := S)) Advances.trans
      (l := (nodes.getD id default).families.toList.zipIdx.flatMap (·.1.children))
      (s := marks.setIfInBounds id .onPath) (fun marks c hc hfuel => ?_)
      (fun marks marks' c _ hadvances hseen => by rwa [hadvances.keeps hseen]) hentered
    · exact hvisits.2.2 child (mem_flatMap_children.mpr ⟨family, Array.mem_toList_iff.mpr hfamily, hchild⟩)
    · have hSc := hS.children hid c hc
      unfold see
      split
      · rename_i hunseen
        have hadvances := advances_visit hS rest hSc hfuel.size_eq hunseen
        obtain ⟨facts, hdone⟩ := done_visit hS hSc hfuel hunseen
        exact ⟨hfuel.advance hadvances, hadvances, by simp [hdone]⟩
      · rename_i hseen
        exact ⟨hfuel, .refl marks, hseen⟩
  · intro i
    have hchildren : ∀ pair ∈ (nodes.getD id default).families.toList.zipIdx, ∀ child ∈ pair.1.children, S child := by
      intro pair hpair child hchild
      exact hS.children hid child (List.mem_flatMap.mpr ⟨pair, hpair, hchild⟩)
    have hadvances := Advances.sweep (fun hid hsize => advances_visit hS rest hid hsize) (hS.children hid) hentered.size_eq
    rw [mem_visitFamilies_snd (fun hid hsize => advances_visit hS rest hid hsize) hchildren hentered.size_eq]
    simp only [visitFamilies_fst, hadvances.onPath_iff, List.mem_zipIdx_iff_getElem?, Array.getElem?_toList]

/-! ## The survey grounds what it is done with -/

/-- Settling a node grounds it. -/
theorem AllGrounded.settle (h : AllGrounded nodes seen) (hswept : Swept nodes S id marks seen loops)
    (hlt : id < marks.size) (hpath : PathTo nodes marks id) :
    AllGrounded nodes (seen.setIfInBounds id (.done (settle nodes seen (nodes.getD id default) loops))) := by
  obtain ⟨hltSeen, -⟩ := hswept.onPath hlt
  have hloops : (Survey.settle nodes seen (nodes.getD id default) loops).loops = loops :=
    settle_loops hswept.loops_of_empty
  intro a facts hdone
  by_cases hne : id = a
  · subst hne
    rw [getD_set_self hltSeen] at hdone
    cases hdone
    refine .intro (getD_set_self hltSeen) ?_ ?_ ?_
    · rw [hloops]
      refine settle_congr fun family hfamily child hchild => ?_
      obtain ⟨_, hchildDone⟩ := hswept.forward hfamily hchild
      rw [factsOf, factsOf, hchildDone, hswept.keeps hlt hchildDone]
    · rw [hloops]
      intro i hi
      obtain ⟨family, hget, child, hchild, hon⟩ := hswept.loops.mp hi
      refine ⟨family, hget, child, hchild, ?_⟩
      by_cases hself : id = child
      · exact .root (List.mem_singleton.mpr hself)
      · have hon := hswept.advances.onPath hon
        rw [getD_set_of_ne hself] at hon
        exact hpath hon
    · rw [hloops]
      intro family hfamily child hchild
      obtain ⟨_, hchildDone⟩ := hswept.forward hfamily hchild
      exact (h hchildDone).mono (hswept.keeps hlt)
  · rw [getD_set_of_ne hne] at hdone
    exact (h hdone).mono (hswept.keeps hlt)

/-- Putting a node on the path ungrounds none. -/
theorem AllGrounded.enter (h : AllGrounded nodes marks) (hlt : id < marks.size)
    (hunseen : marks.getD id .unseen = .unseen) : AllGrounded nodes (marks.setIfInBounds id .onPath) := by
  intro a facts hdone
  have hne : id ≠ a := by
    rintro rfl
    rw [getD_set_self hlt] at hdone
    cases hdone
  rw [getD_set_of_ne hne] at hdone
  refine (h hdone).mono fun {b facts} hb => ?_
  have hne : id ≠ b := by
    rintro rfl
    rw [hunseen] at hb
    cases hb
  rwa [getD_set_of_ne hne]

/-- A visit grounds the nodes that it is done with. -/
theorem allGrounded_visit (hS : Downward nodes S) (fuel : Nat) (hid : S id) (hfuel : Fueled nodes fuel marks)
    (hunseen : marks.getD id .unseen = .unseen) (hpath : PathTo nodes marks id) (h : AllGrounded nodes marks) :
    AllGrounded nodes (visit nodes fuel id marks) := by
  induction fuel generalizing id marks with
  | zero =>
    obtain ⟨rest, hrest, -⟩ := hfuel.enter (hS.lt hid) hunseen
    cases hrest
  | succ fuel ih =>
    obtain ⟨rest, seen, loops, hrest, hentered, hseen, hswept, hvisit⟩ := visit_eq hS hid hfuel hunseen
    cases hrest
    rw [hvisit]
    refine AllGrounded.settle ?_ hswept (hfuel.size_eq ▸ hS.lt hid) hpath
    -- along the children: the path to each of them is the path to the node, with the node itself
    have hvisits := foldl_visits (Q := fun _ _ => True) (f := see (visit nodes fuel)) (Advances.refl (S := S)) Advances.trans
      (P := fun m => Fueled nodes fuel m ∧ AllGrounded nodes m ∧
        ∀ child ∈ (nodes.getD id default).families.toList.zipIdx.flatMap (·.1.children), PathTo nodes m child)
      (l := (nodes.getD id default).families.toList.zipIdx.flatMap (·.1.children))
      (s := marks.setIfInBounds id .onPath) (fun m child hchild ⟨hfuel, h, hpaths⟩ => ?_)
      (fun _ _ _ _ _ _ => trivial) ⟨hentered, h.enter (hfuel.size_eq ▸ hS.lt hid) hunseen, fun child hchild => ?_⟩
    · rw [← visitFamilies_fst, ← hseen] at hvisits
      exact hvisits.1.2.1
    · have hSc := hS.children hid child hchild
      unfold see
      split
      · rename_i hunseen
        have hadvances := advances_visit hS fuel hSc hfuel.size_eq hunseen
        exact ⟨⟨hfuel.advance hadvances, ih hSc hfuel hunseen (hpaths child hchild) h,
          fun c hc => (hpaths c hc).advance hadvances⟩, hadvances, trivial⟩
      · exact ⟨⟨hfuel, h, hpaths⟩, .refl m, trivial⟩
    · obtain ⟨family, hfamily, hmem⟩ := mem_flatMap_children.mp hchild
      exact hpath.enter (Array.mem_toList_iff.mp hfamily) hmem

variable {roots : List NodeId}

/-- The survey grounds every node below the roots. -/
theorem grounded_run (hS : Downward nodes (Reachable nodes roots)) (hid : Reachable nodes roots id) :
    Grounded nodes (run nodes roots) id := by
  have hstart : AllGrounded nodes (Array.replicate nodes.size .unseen) := by
    intro a facts hdone
    rw [unseen_start] at hdone
    cases hdone
  have hempty : ∀ a, (Array.replicate nodes.size Mark.unseen).getD a .unseen ≠ .onPath := by
    intro a
    rw [unseen_start]
    simp
  -- between the roots the path is empty
  have hvisits := foldl_visits (Q := fun _ _ => True) (f := see (visit nodes (nodes.size + 1)))
    (Advances.refl (S := Reachable nodes roots)) Advances.trans
    (P := fun m => Fueled nodes (nodes.size + 1) m ∧ AllGrounded nodes m ∧ ∀ a, m.getD a .unseen ≠ .onPath)
    (l := roots) (fun m root hroot ⟨hfuel, h, hpath⟩ => ?_) (fun _ _ _ _ _ _ => trivial)
    ⟨fueled_start nodes, hstart, hempty⟩
  · obtain ⟨facts, hdone⟩ := (done_iff_reachable hS).mpr hid
    exact hvisits.1.2.1 hdone
  · unfold see
    split
    · rename_i hunseen
      have hadvances := advances_visit hS (nodes.size + 1) (.root hroot) hfuel.size_eq hunseen
      refine ⟨⟨hfuel.advance hadvances, ?_, fun a hon => hpath a (hadvances.onPath hon)⟩, hadvances, trivial⟩
      exact allGrounded_visit hS _ (.root hroot) hfuel hunseen (fun a hon => absurd hon (hpath a)) h
    · exact ⟨⟨hfuel, h, hpath⟩, .refl m, trivial⟩

end ContextFree.Survey
