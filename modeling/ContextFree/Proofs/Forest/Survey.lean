-- SUMMARY: The survey is done with exactly the nodes below the roots.
import ContextFree.Forest.Survey
import ContextFree.Proofs.Saturation
import ContextFree.Proofs.Forest.Nodes

/-!
# What the survey reaches

A visit marks unseen nodes and changes no other mark; the nodes that are on the path when it ends were so before. With
fuel for all unseen nodes, the children of every node that is done have been seen. Since the path is empty in the
end, the survey is then done with the nodes below the roots and has not seen the others.
-/
namespace ContextFree.Survey

variable {nodes : Array Node} {marks marks' : Array Mark} {id : NodeId} {S : NodeId → Prop}

theorem getD_set_self {mark : Mark} (h : id < marks.size) : (marks.setIfInBounds id mark).getD id .unseen = mark := by
  simp [Array.getD_eq_getD_getElem?, h]

theorem getD_set_of_ne {id' : NodeId} {mark : Mark} (h : id ≠ id') :
    (marks.setIfInBounds id mark).getD id' .unseen = marks.getD id' .unseen := by
  simp [Array.getD_eq_getD_getElem?, h]

theorem lt_of_seen (h : marks.getD id .unseen ≠ .unseen) : id < marks.size := by
  by_contra hge
  exact h (by simp [Array.getD_eq_getD_getElem?, hge])

/-! ## Visits as sweeps -/

/-- Visit a node unless it has been seen. -/
def see (visit : NodeId → Array Mark → Array Mark) (marks : Array Mark) (id : NodeId) : Array Mark :=
  match marks.getD id .unseen with
  | .unseen => visit id marks
  | _       => marks

theorem visitFamily_fst (visit : NodeId → Array Mark → Array Mark) (marks : Array Mark) (family : Family) :
    (visitFamily visit marks family).1 = family.children.foldl (see visit) marks := by
  unfold visitFamily
  generalize false = looped
  induction family.children generalizing marks looped with
  | nil => rfl
  | cons child children ih =>
    rw [List.foldl_cons, List.foldl_cons]
    cases h : marks.getD child .unseen <;> simp only [visitChild, see, h, ih]

/-- Going through families is seeing their children one after the other. -/
theorem visitFamilies_fst (visit : NodeId → Array Mark → Array Mark) (families : List (Family × Nat))
    (marks : Array Mark) :
    (visitFamilies visit families marks).1 = (families.flatMap (·.1.children)).foldl (see visit) marks := by
  induction families generalizing marks with
  | nil => rfl
  | cons family families ih =>
    rw [List.flatMap_cons, List.foldl_append, ← visitFamily_fst, ← ih]
    rfl

theorem mem_flatMap_children {child : NodeId} {families : List Family} :
    child ∈ families.zipIdx.flatMap (·.1.children) ↔ ∃ family ∈ families, child ∈ family.children := by
  have hmap : families.zipIdx.flatMap (·.1.children) = families.flatMap Family.children := by
    rw [← List.flatMap_map, List.zipIdx_map_fst]
  rw [hmap, List.mem_flatMap]

theorem run_eq (nodes : Array Node) (roots : List NodeId) :
    run nodes roots = roots.foldl (see (visit nodes (nodes.size + 1))) (Array.replicate nodes.size .unseen) := rfl

/-! ## Progress -/

/-- A set of nodes with everything below them. -/
structure Downward (nodes : Array Node) (S : NodeId → Prop) : Prop where
  lt : ∀ {id}, S id → id < nodes.size
  child : ∀ {id child family}, S id → family ∈ (nodes.getD id default).families → child ∈ family.children → S child

theorem Downward.children (hS : Downward nodes S) (hid : S id) :
    ∀ child ∈ (nodes.getD id default).families.toList.zipIdx.flatMap (·.1.children), S child := by
  intro child hchild
  obtain ⟨family, hfamily, hmem⟩ := mem_flatMap_children.mp hchild
  exact hS.child hid (Array.mem_toList_iff.mp hfamily) hmem

/-- Marks later in a survey: nodes once seen keep their marks, the path gains nothing, and what is new is in `S`. -/
structure Advances (S : NodeId → Prop) (marks marks' : Array Mark) : Prop where
  size_eq : marks'.size = marks.size
  keeps : ∀ {id}, marks.getD id .unseen ≠ .unseen → marks'.getD id .unseen = marks.getD id .unseen
  onPath : ∀ {id}, marks'.getD id .unseen = .onPath → marks.getD id .unseen = .onPath
  seen : ∀ {id}, marks'.getD id .unseen ≠ .unseen → marks.getD id .unseen ≠ .unseen ∨ S id

theorem Advances.refl (marks : Array Mark) : Advances S marks marks :=
  ⟨rfl, fun _ => rfl, fun h => h, .inl⟩

/-- What is seen may be described more loosely. -/
theorem Advances.imp {S' : NodeId → Prop} (h : Advances S marks marks') (himp : ∀ a, S a → S' a) :
    Advances S' marks marks' :=
  ⟨h.size_eq, h.keeps, h.onPath, fun hseen => (h.seen hseen).imp_right (himp _)⟩

theorem Advances.trans {marks'' : Array Mark} (h : Advances S marks marks') (h' : Advances S marks' marks'') :
    Advances S marks marks'' where
  size_eq := h'.size_eq.trans h.size_eq
  keeps hseen := by
    have hmark := h.keeps hseen
    rw [← hmark] at hseen
    rw [h'.keeps hseen, hmark]
  onPath hpath := h.onPath (h'.onPath hpath)
  seen hseen := (h'.seen hseen).elim h.seen .inr

/-- One visit, with all that happens between putting the node on the path and taking it off again. -/
theorem Advances.visit {facts : Facts} (hid : S id) (hlt : id < marks.size) (hunseen : marks.getD id .unseen = .unseen)
    (h : Advances S (marks.setIfInBounds id .onPath) marks') :
    Advances S marks (marks'.setIfInBounds id (.done facts)) := by
  have hlt' : id < marks'.size := by
    rw [h.size_eq, Array.size_setIfInBounds]
    exact hlt
  refine ⟨?_, fun {id'} hseen => ?_, fun {id'} hpath => ?_, fun {id'} hseen => ?_⟩
  · rw [Array.size_setIfInBounds, h.size_eq, Array.size_setIfInBounds]
  · have hne : id ≠ id' := fun heq => hseen (heq ▸ hunseen)
    rw [← getD_set_of_ne hne] at hseen
    rw [getD_set_of_ne hne, h.keeps hseen, getD_set_of_ne hne]
  · by_cases hne : id = id'
    · subst hne
      rw [getD_set_self hlt'] at hpath
      cases hpath
    · rw [getD_set_of_ne hne] at hpath
      simpa [getD_set_of_ne hne] using h.onPath hpath
  · by_cases hne : id = id'
    · exact .inr (hne ▸ hid)
    · rw [getD_set_of_ne hne] at hseen
      simpa [getD_set_of_ne hne] using h.seen hseen

theorem Advances.sweep {visit : NodeId → Array Mark → Array Mark} {n : Nat}
    (hvisit : ∀ {id marks}, S id → marks.size = n → marks.getD id .unseen = .unseen →
      Advances S marks (visit id marks))
    {ids : List NodeId} (hids : ∀ id ∈ ids, S id) (hsize : marks.size = n) :
    Advances S marks (ids.foldl (see visit) marks) := by
  induction ids generalizing marks with
  | nil => exact .refl marks
  | cons id ids ih =>
    have hsee : Advances S marks (see visit marks id) := by
      unfold see
      split
      · rename_i hunseen
        exact hvisit (hids id List.mem_cons_self) hsize hunseen
      · exact .refl marks
    exact hsee.trans (ih (fun id' hid' => hids id' (List.mem_cons_of_mem id hid')) (hsee.size_eq.trans hsize))

/-- A visit only ever advances. -/
theorem advances_visit (hS : Downward nodes S) (fuel : Nat) (hid : S id) (hsize : marks.size = nodes.size)
    (hunseen : marks.getD id .unseen = .unseen) : Advances S marks (visit nodes fuel id marks) := by
  induction fuel generalizing id marks with
  | zero => exact .refl marks
  | succ fuel ih =>
    apply Advances.visit hid (hsize ▸ hS.lt hid) hunseen
    rw [visitFamilies_fst]
    exact Advances.sweep (fun hid hsize => ih hid hsize) (hS.children hid) (Array.size_setIfInBounds.trans hsize)

/-! ## Fuel -/

/-- The nodes that have not been seen. -/
def unseen (marks : Array Mark) : Finset NodeId :=
  (Finset.range marks.size).filter fun id => marks.getD id .unseen = .unseen

theorem mem_unseen : id ∈ unseen marks ↔ id < marks.size ∧ marks.getD id .unseen = .unseen := by
  simp [unseen]

theorem Advances.unseen_subset (h : Advances S marks marks') : unseen marks' ⊆ unseen marks := by
  intro id hid
  obtain ⟨hlt, hunseen⟩ := mem_unseen.mp hid
  refine mem_unseen.mpr ⟨h.size_eq ▸ hlt, ?_⟩
  by_contra hseen
  exact hseen ((h.keeps hseen).symm.trans hunseen)

/-- All nodes have marks, and there is fuel for those that have not been seen. -/
structure Fueled (nodes : Array Node) (fuel : Nat) (marks : Array Mark) : Prop where
  size_eq : marks.size = nodes.size
  card_le : (unseen marks).card ≤ fuel

theorem Fueled.advance {fuel : Nat} (h : Fueled nodes fuel marks) (hadvances : Advances S marks marks') :
    Fueled nodes fuel marks' :=
  ⟨hadvances.size_eq.trans h.size_eq, Nat.le_trans (Finset.card_le_card hadvances.unseen_subset) h.card_le⟩

/-- A node that has not been seen takes fuel, and putting it on the path frees some. -/
theorem Fueled.enter {fuel : Nat} (h : Fueled nodes fuel marks) (hlt : id < nodes.size)
    (hunseen : marks.getD id .unseen = .unseen) :
    ∃ rest, fuel = rest + 1 ∧ Fueled nodes rest (marks.setIfInBounds id .onPath) := by
  have hlt' : id < marks.size := h.size_eq ▸ hlt
  have hsub : unseen (marks.setIfInBounds id .onPath) ⊂ unseen marks := by
    refine Finset.ssubset_iff_of_subset (fun id' hid' => ?_) |>.mpr ⟨id, mem_unseen.mpr ⟨hlt', hunseen⟩, ?_⟩
    · obtain ⟨hlt'', hunseen'⟩ := mem_unseen.mp hid'
      have hne : id ≠ id' := by
        intro heq
        rw [← heq, getD_set_self hlt'] at hunseen'
        cases hunseen'
      rw [Array.size_setIfInBounds] at hlt''
      exact mem_unseen.mpr ⟨hlt'', by rwa [getD_set_of_ne hne] at hunseen'⟩
    · simp [mem_unseen, getD_set_self hlt']
  have hcard := Nat.lt_of_lt_of_le (Finset.card_lt_card hsub) h.card_le
  refine ⟨fuel - 1, (Nat.sub_add_cancel (Nat.zero_lt_of_lt hcard)).symm, ?_, Nat.le_sub_one_of_lt hcard⟩
  rw [Array.size_setIfInBounds, h.size_eq]

/-- The children of nodes that are done have been seen. -/
def ChildrenSeen (nodes : Array Node) (marks : Array Mark) : Prop :=
  ∀ ⦃id facts⦄, marks.getD id .unseen = .done facts → ∀ family ∈ (nodes.getD id default).families,
    ∀ child ∈ family.children, marks.getD child .unseen ≠ .unseen

theorem ChildrenSeen.set {mark : Mark} (h : ChildrenSeen nodes marks) (hlt : id < marks.size) (hmark : mark ≠ .unseen)
    (hdone : ∀ facts, mark = .done facts → ∀ family ∈ (nodes.getD id default).families, ∀ child ∈ family.children,
      marks.getD child .unseen ≠ .unseen) : ChildrenSeen nodes (marks.setIfInBounds id mark) := by
  have hseen : ∀ {child}, marks.getD child .unseen ≠ .unseen →
      (marks.setIfInBounds id mark).getD child .unseen ≠ .unseen := by
    intro child hchild
    by_cases hne : id = child
    · rwa [← hne, getD_set_self hlt]
    · rwa [getD_set_of_ne hne]
  intro id' facts hfacts family hfamily child hchild
  by_cases hne : id = id'
  · subst hne
    rw [getD_set_self hlt] at hfacts
    exact hseen (hdone facts hfacts family hfamily child hchild)
  · rw [getD_set_of_ne hne] at hfacts
    exact hseen (h hfacts family hfamily child hchild)

theorem ChildrenSeen.sweep {visit : NodeId → Array Mark → Array Mark} {fuel : Nat}
    (hvisit : ∀ {id marks}, S id → Fueled nodes fuel marks → marks.getD id .unseen = .unseen →
      ChildrenSeen nodes marks → Advances S marks (visit id marks) ∧
        ChildrenSeen nodes (visit id marks) ∧ (visit id marks).getD id .unseen ≠ .unseen)
    {ids : List NodeId} (hids : ∀ id ∈ ids, S id) (hfuel : Fueled nodes fuel marks) (h : ChildrenSeen nodes marks) :
    ChildrenSeen nodes (ids.foldl (see visit) marks) ∧
      ∀ id ∈ ids, (ids.foldl (see visit) marks).getD id .unseen ≠ .unseen := by
  have hsee : ∀ marks, ∀ id ∈ ids, (Fueled nodes fuel marks ∧ ChildrenSeen nodes marks) →
      (Fueled nodes fuel (see visit marks id) ∧ ChildrenSeen nodes (see visit marks id)) ∧
        Advances S marks (see visit marks id) ∧ (see visit marks id).getD id .unseen ≠ .unseen := by
    intro marks id hid ⟨hfuel, h⟩
    unfold see
    split
    · rename_i hunseen
      obtain ⟨hadvances, hchildren, hseen⟩ := hvisit (hids id hid) hfuel hunseen h
      exact ⟨⟨hfuel.advance hadvances, hchildren⟩, hadvances, hseen⟩
    · rename_i hseen
      exact ⟨⟨hfuel, h⟩, .refl marks, hseen⟩
  have hkeep : ∀ marks marks' id, (Fueled nodes fuel marks ∧ ChildrenSeen nodes marks) → Advances S marks marks' →
      marks.getD id .unseen ≠ .unseen → marks'.getD id .unseen ≠ .unseen := by
    intro marks marks' id _ hadvances hseen
    rwa [hadvances.keeps hseen]
  obtain ⟨⟨-, hchildren⟩, -, hseen⟩ := foldl_visits Advances.refl Advances.trans hsee hkeep ⟨hfuel, h⟩
  exact ⟨hchildren, hseen⟩

/-- With fuel for all unseen nodes, a visit sees the node and all children of what it is done with. -/
theorem childrenSeen_visit (hS : Downward nodes S) (fuel : Nat) (hid : S id) (hfuel : Fueled nodes fuel marks)
    (hunseen : marks.getD id .unseen = .unseen) (h : ChildrenSeen nodes marks) :
    ChildrenSeen nodes (visit nodes fuel id marks) ∧ (visit nodes fuel id marks).getD id .unseen ≠ .unseen := by
  induction fuel generalizing id marks with
  | zero =>
    obtain ⟨rest, hrest, -⟩ := hfuel.enter (hS.lt hid) hunseen
    cases hrest
  | succ fuel ih =>
    obtain ⟨rest, hrest, hentered⟩ := hfuel.enter (hS.lt hid) hunseen
    cases hrest
    have hlt : id < marks.size := hfuel.size_eq ▸ hS.lt hid
    have hadvances : ∀ {id marks}, S id → marks.size = nodes.size → marks.getD id .unseen = .unseen →
        Advances S marks (visit nodes fuel id marks) := advances_visit hS fuel
    have hpath : ChildrenSeen nodes (marks.setIfInBounds id .onPath) := by
      apply h.set hlt (by simp)
      intro facts hfacts
      cases hfacts
    obtain ⟨hchildren, hseen⟩ := ChildrenSeen.sweep
      (fun hid hfuel hunseen h => ⟨hadvances hid hfuel.size_eq hunseen, ih hid hfuel hunseen h⟩)
      (hS.children hid) hentered hpath
    have hsize := (Advances.sweep hadvances (hS.children hid) hentered.size_eq).size_eq
    rw [← visitFamilies_fst] at hchildren hseen hsize
    have hlt' := hlt
    rw [← Array.size_setIfInBounds, ← hsize] at hlt'
    refine ⟨hchildren.set hlt' (by simp) fun _ _ family hfamily child hchild => ?_, ?_⟩
    · exact hseen child (mem_flatMap_children.mpr ⟨family, Array.mem_toList_iff.mpr hfamily, hchild⟩)
    · rw [visit, getD_set_self hlt']
      simp

/-! ## The whole survey -/

variable {roots : List NodeId}

theorem unseen_start (nodes : Array Node) (id : NodeId) :
    (Array.replicate nodes.size Mark.unseen).getD id .unseen = .unseen := by
  by_cases hlt : id < nodes.size <;> simp [Array.getD_eq_getD_getElem?, hlt]

theorem fueled_start (nodes : Array Node) :
    Fueled nodes (nodes.size + 1) (Array.replicate nodes.size Mark.unseen) where
  size_eq := Array.size_replicate
  card_le := by
    have hle := Finset.card_filter_le (Finset.range (Array.replicate nodes.size Mark.unseen).size)
      fun id => (Array.replicate nodes.size Mark.unseen).getD id .unseen = .unseen
    rw [Array.size_replicate, Finset.card_range] at hle
    unfold unseen
    rw [Array.size_replicate]
    exact Nat.le_succ_of_le hle

theorem advances_run (hS : Downward nodes (Reachable nodes roots)) :
    Advances (Reachable nodes roots) (Array.replicate nodes.size .unseen) (run nodes roots) := by
  rw [run_eq]
  exact Advances.sweep (fun hid hsize => advances_visit hS _ hid hsize) (fun _ => .root) Array.size_replicate

theorem size_run (hS : Downward nodes (Reachable nodes roots)) : (run nodes roots).size = nodes.size := by
  rw [(advances_run hS).size_eq, Array.size_replicate]

/-- The survey is done with the nodes that it has seen. -/
theorem done_of_seen (hS : Downward nodes (Reachable nodes roots))
    (h : (run nodes roots).getD id .unseen ≠ .unseen) : ∃ facts, (run nodes roots).getD id .unseen = .done facts := by
  cases hmark : (run nodes roots).getD id .unseen with
  | unseen => exact absurd hmark h
  | onPath =>
    have hstart := (advances_run hS).onPath hmark
    rw [unseen_start] at hstart
    cases hstart
  | done facts => exact ⟨facts, rfl⟩

/-- The survey is done with the nodes below the roots and with no others. -/
theorem done_iff_reachable (hS : Downward nodes (Reachable nodes roots)) :
    (∃ facts, (run nodes roots).getD id .unseen = .done facts) ↔ Reachable nodes roots id := by
  have hvisit : ∀ {id marks}, Reachable nodes roots id → Fueled nodes (nodes.size + 1) marks →
      marks.getD id .unseen = .unseen → ChildrenSeen nodes marks →
      Advances (Reachable nodes roots) marks (visit nodes (nodes.size + 1) id marks) ∧
        ChildrenSeen nodes (visit nodes (nodes.size + 1) id marks) ∧
        (visit nodes (nodes.size + 1) id marks).getD id .unseen ≠ .unseen :=
    fun hid hfuel hunseen h =>
      ⟨advances_visit hS _ hid hfuel.size_eq hunseen, childrenSeen_visit hS _ hid hfuel hunseen h⟩
  have hstart : ChildrenSeen nodes (Array.replicate nodes.size .unseen) := by
    intro id facts hdone
    rw [unseen_start] at hdone
    cases hdone
  obtain ⟨hchildren, hroots⟩ := ChildrenSeen.sweep hvisit (fun _ => .root) (fueled_start nodes) hstart
  rw [← run_eq] at hchildren hroots
  constructor
  · intro ⟨facts, hdone⟩
    refine ((advances_run hS).seen (by simp [hdone])).resolve_left fun hseen => hseen ?_
    exact unseen_start nodes id
  · intro hreach
    induction hreach with
    | root hmem => exact done_of_seen hS (hroots _ hmem)
    | child _ hfamily hmem ih =>
      obtain ⟨facts, hdone⟩ := ih
      exact done_of_seen hS (hchildren hdone _ hfamily _ hmem)

end ContextFree.Survey
