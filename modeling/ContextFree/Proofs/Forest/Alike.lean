-- SUMMARY: Surveys of arrays that differ only in the numbers of their nodes come to the same facts.
import ContextFree.Proofs.Forest.Survey
import Mathlib.Data.List.Forall2

/-!
# Surveys of alike nodes

Two arrays are alike if a relation matches their nodes one to one, with equal identities and with families whose
children match in order. Surveys of alike arrays run in step: they meet matching nodes at the same time, so they find
the same loops and settle the same facts. Each has its own fuel, enough for its own unseen nodes.
-/
namespace ContextFree

/-! ## Matching lists -/

section Lists

variable {β γ δ : Type} {P : β → γ → Prop} {xs : List β} {ys : List γ}

theorem forall₂_of_map_eq {f : β → δ} {g : γ → δ} (h : xs.map f = ys.map g)
    (hP : ∀ x ∈ xs, ∀ y ∈ ys, f x = g y → P x y) : List.Forall₂ P xs ys := by
  induction xs generalizing ys with
  | nil =>
    obtain rfl := List.map_eq_nil_iff.mp h.symm
    exact .nil
  | cons x xs ih =>
    cases ys with
    | nil => cases h
    | cons y ys =>
      simp only [List.map_cons, List.cons.injEq] at h
      refine .cons (hP x List.mem_cons_self y List.mem_cons_self h.1) (ih h.2 fun x' hx' y' hy' => ?_)
      exact hP x' (List.mem_cons_of_mem x hx') y' (List.mem_cons_of_mem y hy')

theorem map_eq_of_forall₂ (h : List.Forall₂ P xs ys) {f : β → δ} {g : γ → δ} (hfg : ∀ x y, P x y → f x = g y) :
    xs.map f = ys.map g := by
  rw [← List.forall₂_eq_eq_eq]
  exact List.rel_map hfg h

theorem any_eq_of_forall₂ (h : List.Forall₂ P xs ys) {f : β → Bool} {g : γ → Bool} (hfg : ∀ x y, P x y → f x = g y) :
    xs.any f = ys.any g := by
  induction h with
  | nil => rfl
  | cons hxy _ ih => rw [List.any_cons, List.any_cons, hfg _ _ hxy, ih]

theorem foldl_eq_of_forall₂ (h : List.Forall₂ P xs ys) {f : δ → β → δ} {g : δ → γ → δ}
    (hfg : ∀ d x y, P x y → f d x = g d y) (d : δ) : xs.foldl f d = ys.foldl g d := by
  apply List.rel_foldl (P := Eq) _ rfl h
  intro d _ hd x y hxy
  rw [← hd, hfg d x y hxy]

theorem exists_of_mem_forall₂ (h : List.Forall₂ P xs ys) {x : β} (hx : x ∈ xs) : ∃ y ∈ ys, P x y := by
  induction h with
  | nil => cases hx
  | cons hxy _ ih =>
    cases hx with
    | head => exact ⟨_, List.mem_cons_self, hxy⟩
    | tail _ hmem =>
      obtain ⟨y, hy, hP⟩ := ih hmem
      exact ⟨y, List.mem_cons_of_mem _ hy, hP⟩

theorem forall₂_zipIdx (h : List.Forall₂ P xs ys) (i : Nat) :
    List.Forall₂ (fun x y => P x.1 y.1 ∧ x.2 = y.2) (xs.zipIdx i) (ys.zipIdx i) := by
  induction h generalizing i with
  | nil => exact .nil
  | cons hxy _ ih => exact .cons ⟨hxy, rfl⟩ (ih (i + 1))

/-- Taking away the same positions leaves matching lists. -/
theorem forall₂_filter_zipIdx (h : List.Forall₂ P xs ys) (keep : Nat → Bool) :
    List.Forall₂ P ((xs.zipIdx.filter fun (_, i) => keep i).map (·.1))
      ((ys.zipIdx.filter fun (_, i) => keep i).map (·.1)) := by
  have hzip := forall₂_zipIdx h 0
  generalize xs.zipIdx = pairs at hzip
  generalize ys.zipIdx = pairs' at hzip
  induction hzip with
  | nil => exact .nil
  | @cons x y _ _ hxy _ ih =>
    simp only [List.filter_cons, hxy.2]
    split
    · exact .cons hxy.1 ih
    · exact ih

end Lists

namespace Survey

variable {R : NodeId → NodeId → Prop} {nodes nodes' : Array Node} {marks marks' : Array Mark} {a b : NodeId}
  {family family' : Family} {fuel fuel' : Nat}

/-! ## Alike arrays -/

/-- Families whose children match. -/
def FamilyAlike (R : NodeId → NodeId → Prop) (family family' : Family) : Prop :=
  List.Forall₂ R family.children family'.children

/-- Arrays that differ only in the numbers of the nodes that `R` matches. -/
structure Alike (R : NodeId → NodeId → Prop) (nodes nodes' : Array Node) : Prop where
  lt : ∀ {a b}, R a b → a < nodes.size ∧ b < nodes'.size
  unique : ∀ {a b c d}, R a b → R c d → (a = c ↔ b = d)
  identity : ∀ {a b}, R a b → (nodes.getD a default).identity = (nodes'.getD b default).identity
  families : ∀ {a b}, R a b → List.Forall₂ (FamilyAlike R) (nodes.getD a default).families.toList
    (nodes'.getD b default).families.toList

theorem Alike.symm (h : Alike R nodes nodes') : Alike (fun b a => R a b) nodes' nodes where
  lt hR := (h.lt hR).symm
  unique hR hR' := (h.unique hR hR').symm
  identity hR := (h.identity hR).symm
  families hR := (h.families hR).flip.imp fun _ _ hfamily => List.Forall₂.flip hfamily

theorem Alike.downward (h : Alike R nodes nodes') : Downward nodes fun a => ∃ b, R a b where
  lt := fun ⟨_, hR⟩ => (h.lt hR).1
  child := by
    intro a child family ⟨b, hR⟩ hfamily hchild
    obtain ⟨family', -, halike⟩ := exists_of_mem_forall₂ (h.families hR) (Array.mem_toList_iff.mpr hfamily)
    obtain ⟨child', -, hR'⟩ := exists_of_mem_forall₂ halike hchild
    exact ⟨child', hR'⟩

/-! ## Facts -/

theorem isGapped_alike (h : Alike R nodes nodes') (hfamily : FamilyAlike R family family') :
    isGapped nodes family = isGapped nodes' family' := by
  have hlength := hfamily.length_eq
  cases family <;> cases family' <;> simp only [Family.children, List.length_cons, List.length_nil] at hlength
  · rfl
  · cases hlength
  · cases hlength
  · cases hlength
  · rfl
  · cases hlength
  · cases hlength
  · cases hlength
  · cases hfamily with
    | cons hleft hright =>
      cases hright with
      | cons hright _ =>
        simp only [isGapped, Node.right, Node.left, Node.isEmpty, h.identity hleft, h.identity hright]

theorem factsOf_alike (hmarks : ∀ ⦃a b⦄, R a b → marks.getD a .unseen = marks'.getD b .unseen) (hR : R a b) :
    factsOf marks a = factsOf marks' b := by
  rw [factsOf, factsOf, hmarks hR]

theorem familyCount_alike (hmarks : ∀ ⦃a b⦄, R a b → marks.getD a .unseen = marks'.getD b .unseen)
    (hfamily : FamilyAlike R family family') : familyCount marks family = familyCount marks' family' :=
  foldl_eq_of_forall₂ hfamily (fun _ _ _ hR => by rw [factsOf_alike hmarks hR]) 1

theorem settle_alike (h : Alike R nodes nodes')
    (hmarks : ∀ ⦃a b⦄, R a b → marks.getD a .unseen = marks'.getD b .unseen) (hR : R a b) (loops : List Nat) :
    settle nodes marks (nodes.getD a default) loops = settle nodes' marks' (nodes'.getD b default) loops := by
  have hempty : (nodes.getD a default).isEmpty = (nodes'.getD b default).isEmpty := by
    simp only [Node.isEmpty, h.identity hR]
  have hfamilies := h.families hR
  have hsize : (nodes.getD a default).families.size = (nodes'.getD b default).families.size := hfamilies.length_eq
  have hgapped : (nodes.getD a default).families.any (isGapped nodes) =
      (nodes'.getD b default).families.any (isGapped nodes') := by
    rw [← Array.any_toList, ← Array.any_toList]
    exact any_eq_of_forall₂ hfamilies fun _ _ => isGapped_alike h
  have hforward := forall₂_filter_zipIdx hfamilies fun i => !loops.contains i
  have hcount := foldl_eq_of_forall₂ hforward (f := fun sum family => sum + familyCount marks family)
    (fun sum _ _ hfamily => congrArg (sum + ·) (familyCount_alike hmarks hfamily)) 0
  have hinfinite := any_eq_of_forall₂ hforward fun _ _ hfamily =>
    any_eq_of_forall₂ hfamily fun _ _ hR => congrArg Facts.infinite (factsOf_alike hmarks hR)
  simp only [settle, hgapped]
  simp only [Array.isEmpty, hempty, hsize, hcount, hinfinite]
  rfl

/-! ## Surveys in step -/

/-- Two surveys that have come equally far. -/
structure InStep (R : NodeId → NodeId → Prop) (nodes nodes' : Array Node) (fuel fuel' : Nat)
    (marks marks' : Array Mark) : Prop where
  alike : ∀ ⦃a b⦄, R a b → marks.getD a .unseen = marks'.getD b .unseen
  fueled : Fueled nodes fuel marks
  fueled' : Fueled nodes' fuel' marks'

variable {visit₁ visit₂ : NodeId → Array Mark → Array Mark}

theorem visitFamily_inStep
    (hvisit : ∀ {a b marks marks'}, R a b → InStep R nodes nodes' fuel fuel' marks marks' →
      marks.getD a .unseen = .unseen → InStep R nodes nodes' fuel fuel' (visit₁ a marks) (visit₂ b marks'))
    (hfamily : FamilyAlike R family family') (h : InStep R nodes nodes' fuel fuel' marks marks') :
    InStep R nodes nodes' fuel fuel' (visitFamily visit₁ marks family).1 (visitFamily visit₂ marks' family').1 ∧
      (visitFamily visit₁ marks family).2 = (visitFamily visit₂ marks' family').2 := by
  unfold visitFamily
  unfold FamilyAlike at hfamily
  generalize family.children = children at hfamily
  generalize family'.children = children' at hfamily
  generalize false = looped
  induction hfamily generalizing marks marks' looped with
  | nil => exact ⟨h, rfl⟩
  | @cons a b _ _ hR _ ih =>
    simp only [List.foldl_cons, visitChild, ← h.alike hR]
    cases hmark : marks.getD a .unseen with
    | unseen => exact ih (hvisit hR h hmark) looped
    | onPath => exact ih h true
    | done facts => exact ih h looped

theorem visitFamilies_inStep
    (hvisit : ∀ {a b marks marks'}, R a b → InStep R nodes nodes' fuel fuel' marks marks' →
      marks.getD a .unseen = .unseen → InStep R nodes nodes' fuel fuel' (visit₁ a marks) (visit₂ b marks'))
    {families families' : List (Family × Nat)}
    (hfamilies : List.Forall₂ (fun x y => FamilyAlike R x.1 y.1 ∧ x.2 = y.2) families families')
    (h : InStep R nodes nodes' fuel fuel' marks marks') :
    InStep R nodes nodes' fuel fuel' (visitFamilies visit₁ families marks).1
        (visitFamilies visit₂ families' marks').1 ∧
      (visitFamilies visit₁ families marks).2 = (visitFamilies visit₂ families' marks').2 := by
  induction hfamilies generalizing marks marks' with
  | nil => exact ⟨h, rfl⟩
  | cons hxy _ ih =>
    obtain ⟨hstep, hlooped⟩ := visitFamily_inStep hvisit hxy.1 h
    obtain ⟨hrest, hloops⟩ := ih hstep
    refine ⟨hrest, ?_⟩
    simp only [visitFamilies, hlooped, hloops, hxy.2]

/-- Marking matching nodes alike keeps surveys in step. -/
theorem alike_set (h : Alike R nodes nodes') (hmarks : ∀ ⦃a b⦄, R a b → marks.getD a .unseen = marks'.getD b .unseen)
    (hR : R a b) (hlt : a < marks.size) (hlt' : b < marks'.size) (mark : Mark) :
    ∀ ⦃c d⦄, R c d →
      (marks.setIfInBounds a mark).getD c .unseen = (marks'.setIfInBounds b mark).getD d .unseen := by
  intro c d hR'
  by_cases heq : a = c
  · obtain rfl := heq
    obtain rfl := (h.unique hR hR').mp rfl
    rw [getD_set_self hlt, getD_set_self hlt']
  · have hne : b ≠ d := fun hb => heq ((h.unique hR hR').mpr hb)
    rw [getD_set_of_ne heq, getD_set_of_ne hne, hmarks hR']

/-- Visits of matching nodes keep surveys in step. -/
theorem visit_inStep (h : Alike R nodes nodes') (fuel fuel' : Nat) (hR : R a b)
    (hstep : InStep R nodes nodes' fuel fuel' marks marks') (hunseen : marks.getD a .unseen = .unseen) :
    InStep R nodes nodes' fuel fuel' (visit nodes fuel a marks) (visit nodes' fuel' b marks') := by
  induction fuel generalizing fuel' a b marks marks' with
  | zero =>
    obtain ⟨rest, hrest, -⟩ := hstep.fueled.enter (h.lt hR).1 hunseen
    cases hrest
  | succ fuel ih =>
    have hunseen' := hunseen
    rw [hstep.alike hR] at hunseen'
    have hadvances := advances_visit h.downward (fuel + 1) ⟨b, hR⟩ hstep.fueled.size_eq hunseen
    have hadvances' := advances_visit h.symm.downward fuel' ⟨a, hR⟩ hstep.fueled'.size_eq hunseen'
    refine ⟨?_, hstep.fueled.advance hadvances, hstep.fueled'.advance hadvances'⟩
    obtain ⟨rest, hrest, hentered⟩ := hstep.fueled.enter (h.lt hR).1 hunseen
    cases hrest
    obtain ⟨fuel', rfl, hentered'⟩ := hstep.fueled'.enter (h.lt hR).2 hunseen'
    have hlt : a < marks.size := hstep.fueled.size_eq ▸ (h.lt hR).1
    have hlt' : b < marks'.size := hstep.fueled'.size_eq ▸ (h.lt hR).2
    have hpath : InStep R nodes nodes' fuel fuel' (marks.setIfInBounds a .onPath) (marks'.setIfInBounds b .onPath) :=
      ⟨alike_set h hstep.alike hR hlt hlt' .onPath, hentered, hentered'⟩
    obtain ⟨hseen, hloops⟩ := visitFamilies_inStep (ih fuel') (forall₂_zipIdx (h.families hR) 0) hpath
    have hfacts := settle_alike h hseen.alike hR
      (visitFamilies (visit nodes fuel) (nodes.getD a default).families.toList.zipIdx
        (marks.setIfInBounds a .onPath)).2
    simp only [visit]
    rw [← hloops, ← hfacts]
    refine alike_set h hseen.alike hR ?_ ?_ _
    · rw [hseen.fueled.size_eq]
      exact (h.lt hR).1
    · rw [hseen.fueled'.size_eq]
      exact (h.lt hR).2

/-- Surveys of alike arrays from matching roots mark matching nodes alike. -/
theorem run_alike (h : Alike R nodes nodes') {roots roots' : List NodeId} (hroots : List.Forall₂ R roots roots')
    (hR : R a b) : (run nodes roots).getD a .unseen = (run nodes' roots').getD b .unseen := by
  have hfold : ∀ {marks marks' : Array Mark}, InStep R nodes nodes' (nodes.size + 1) (nodes'.size + 1) marks marks' →
      InStep R nodes nodes' (nodes.size + 1) (nodes'.size + 1)
        (roots.foldl (see (visit nodes (nodes.size + 1))) marks)
        (roots'.foldl (see (visit nodes' (nodes'.size + 1))) marks') := by
    induction hroots with
    | nil => exact fun hstep => hstep
    | @cons root root' _ _ hroot _ ih =>
      intro marks marks' hstep
      apply ih
      simp only [see, ← hstep.alike hroot]
      cases hmark : marks.getD root .unseen with
      | unseen => exact visit_inStep h _ _ hroot hstep hmark
      | onPath => exact hstep
      | done facts => exact hstep
  refine (hfold ⟨fun c d _ => ?_, fueled_start nodes, fueled_start nodes'⟩).alike hR
  rw [unseen_start, unseen_start]

end Survey
end ContextFree
