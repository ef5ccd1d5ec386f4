-- SUMMARY: Compacting keeps the nodes that the survey is done with, and numbers them in their order.
import ContextFree.Forest.Compact
import ContextFree.Proofs.Forest.Survey

/-!
# Compacted nodes

The number of a node that stays is the number of nodes before it that stay. Read by these numbers, the arrays of nodes and of
facts hold what they held before, and a family names the same children.
-/
namespace ContextFree

theorem toList_eq_map_getD {β : Type} (xs : Array β) (default : β) :
    xs.toList = (List.range xs.size).map (xs.getD · default) := by
  apply List.ext_getElem (by simp)
  intro i hi _
  have hlt : i < xs.size := by simpa using hi
  simp [Array.getD_eq_getD_getElem?, hlt]

/-- Keeping what a partial function answers is answering for what passes. -/
theorem filterMap_eq_map_filter {β γ : Type} {f : β → Option γ} {g : β → γ} (h : ∀ {x y}, f x = some y → g x = y)
    (xs : List β) : xs.filterMap f = (xs.filter fun x => (f x).isSome).map g := by
  induction xs with
  | nil => rfl
  | cons x xs ih =>
    cases hx : f x with
    | none => simp [hx, ih]
    | some y => simp [hx, ih, h hx]

namespace Compact

open Survey (Mark)

variable {nodes : Array Node} {marks : Array Mark} {id : NodeId} {facts : Facts}

def isKept (marks : Array Mark) (id : NodeId) : Bool :=
  (marks.getD id .unseen).facts?.isSome

/-- The nodes that stay. -/
def kept (marks : Array Mark) : List NodeId :=
  (List.range marks.size).filter (isKept marks)

/-- The new number of a node that stays. -/
def number (marks : Array Mark) (id : NodeId) : NodeId :=
  ((List.range id).filter (isKept marks)).length

theorem isKept_iff : isKept marks id = true ↔ ∃ facts, marks.getD id .unseen = .done facts := by
  unfold isKept
  cases marks.getD id .unseen <;> simp [Mark.facts?]

theorem mem_kept : id ∈ kept marks ↔ ∃ facts, marks.getD id .unseen = .done facts := by
  rw [kept, List.mem_filter, isKept_iff, List.mem_range]
  refine ⟨fun h => h.2, fun ⟨facts, hdone⟩ => ⟨Survey.lt_of_seen (by simp [hdone]), facts, hdone⟩⟩

/-- A node that stays is found under its number. -/
theorem kept_number (h : marks.getD id .unseen = .done facts) : (kept marks)[number marks id]? = some id := by
  have hlt : id < marks.size := Survey.lt_of_seen (by simp [h])
  obtain ⟨rest, hrest⟩ := Nat.exists_eq_add_of_lt hlt
  have hkept : isKept marks id = true := isKept_iff.mpr ⟨facts, h⟩
  rw [kept, number, hrest, Nat.add_assoc, List.range_add, List.filter_append]
  rw [List.getElem?_append_right (Nat.le_refl _), Nat.sub_self, List.range_succ_eq_map]
  simp [hkept]

theorem number_eq_of_kept {n : Nat} (h : (kept marks)[n]? = some id) :
    number marks id = n ∧ ∃ facts, marks.getD id .unseen = .done facts := by
  obtain ⟨facts, hdone⟩ := mem_kept.mp (List.mem_of_getElem? h)
  refine ⟨?_, facts, hdone⟩
  have hnodup : (kept marks).Nodup := List.nodup_range.filter _
  obtain ⟨hlt, -⟩ := List.getElem?_eq_some_iff.mp (kept_number hdone)
  exact (List.getElem?_inj hlt hnodup).mp ((kept_number hdone).trans h.symm)

/-! ## Renumbering -/

/-- Giving a number to one node more. -/
def assign (state : Nat × Array NodeId) (mark : Mark) : Nat × Array NodeId :=
  match mark with
  | .done _ => (state.1 + 1, state.2.push state.1)
  | _       => (state.1, state.2.push state.2.size)

theorem renumbering_eq (marks : Array Mark) :
    renumbering marks = ((List.range marks.size).foldl (fun state id => assign state (marks.getD id .unseen)) (0, #[])).2 := by
  rw [← List.foldl_map, ← toList_eq_map_getD, Array.foldl_toList]
  rfl

theorem number_succ (marks : Array Mark) (n : Nat) :
    number marks (n + 1) = if isKept marks n then number marks n + 1 else number marks n := by
  simp only [number, List.range_succ, List.filter_append, List.filter_cons, List.filter_nil, List.length_append]
  split <;> rfl

/-- After the first `n` nodes, those among them that stay have their numbers. -/
theorem assign_range (marks : Array Mark) (n : Nat) :
    ∃ numbers : Array NodeId,
      (List.range n).foldl (fun state id => assign state (marks.getD id .unseen)) (0, #[]) =
        (number marks n, numbers) ∧ numbers.size = n ∧
      ∀ id < n, isKept marks id = true → numbers[id]? = some (number marks id) := by
  induction n with
  | zero => exact ⟨#[], rfl, rfl, by simp⟩
  | succ n ih =>
    obtain ⟨numbers, hfold, hsize, hnumbers⟩ := ih
    have hold : ∀ value, ∀ id < n, isKept marks id = true → (numbers.push value)[id]? = some (number marks id) := by
      intro value id hid hkept
      rw [Array.getElem?_push_lt (hsize ▸ hid), ← Array.getElem?_eq_getElem (hsize ▸ hid)]
      exact hnumbers id hid hkept
    rw [List.range_succ, List.foldl_append, hfold, number_succ]
    cases hmark : marks.getD n .unseen with
    | done facts =>
      have hkept : isKept marks n = true := isKept_iff.mpr ⟨facts, hmark⟩
      simp only [List.foldl_cons, List.foldl_nil, assign, hmark, hkept, if_true]
      refine ⟨_, rfl, by simp [hsize], fun id hid hkept => ?_⟩
      cases Nat.lt_succ_iff_lt_or_eq.mp hid with
      | inl hlt => exact hold _ id hlt hkept
      | inr heq => simp [heq, ← hsize]
    | unseen | onPath =>
      have hkept : isKept marks n = false := by simp [isKept, hmark, Mark.facts?]
      simp only [List.foldl_cons, List.foldl_nil, assign, hmark, hkept]
      refine ⟨_, rfl, by simp [hsize], fun id hid hid' => ?_⟩
      cases Nat.lt_succ_iff_lt_or_eq.mp hid with
      | inl hlt => exact hold _ id hlt hid'
      | inr heq => simp [heq, hkept] at hid'

theorem getD_renumbering (h : marks.getD id .unseen = .done facts) : (renumbering marks).getD id id = number marks id := by
  obtain ⟨numbers, hfold, -, hnumbers⟩ := assign_range marks marks.size
  rw [renumbering_eq, hfold, Array.getD_eq_getD_getElem?,
    hnumbers id (Survey.lt_of_seen (by simp [h])) (isKept_iff.mpr ⟨facts, h⟩)]
  rfl

/-! ## What stays -/

theorem toList_keptFacts (marks : Array Mark) : (keptFacts marks).toList = (kept marks).map (Survey.factsOf marks) := by
  rw [keptFacts, Array.toList_filterMap, toList_eq_map_getD marks .unseen, List.filterMap_map]
  refine filterMap_eq_map_filter (fun {id facts} h => ?_) _
  simp only [Function.comp] at h
  rw [Survey.factsOf, h]
  rfl

/-- A node with the new numbers of its children. -/
def renumbered (marks : Array Mark) (node : Node) : Node :=
  ⟨node.identity, node.families.map (·.map fun child => (renumbering marks).getD child child)⟩

theorem toList_keptNodes (hsize : marks.size = nodes.size) :
    (keptNodes nodes marks).toList = (kept marks).map fun id => renumbered marks (nodes.getD id default) := by
  have hzip : (nodes.zip marks).toList =
      (List.range marks.size).map fun id => (nodes.getD id default, marks.getD id .unseen) := by
    rw [Array.toList_zip, toList_eq_map_getD nodes default, toList_eq_map_getD marks .unseen, hsize, List.zip_map']
  have hkept : isKept marks = fun id =>
      ((marks.getD id .unseen).facts?.map fun _ => renumbered marks (nodes.getD id default)).isSome := by
    funext id
    rw [Option.isSome_map]
    rfl
  rw [keptNodes, Array.toList_filterMap, hzip, List.filterMap_map, kept, hkept]
  refine filterMap_eq_map_filter (fun {id node} h => ?_) _
  obtain ⟨facts, -, hnode⟩ := Option.map_eq_some_iff.mp h
  exact hnode

end Compact
end ContextFree
