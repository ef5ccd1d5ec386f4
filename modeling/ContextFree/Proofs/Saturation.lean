-- SUMMARY: Saturating a growing set that stays inside a finite space ends with a set that the step leaves alone.
import ContextFree.Saturate
import ContextFree.KeyOrder
import Mathlib.Algebra.BigOperators.Intervals

/-!
# Saturation reaches a closed set

The analyses of a grammar and of a forest saturate sets by rounds, and a round goes through rules or nodes one by one. Each
visit only adds elements, and adds more to a larger set. Such visits add up to such rounds, and a round that is
repeated more often than the space has elements ends with a set that is closed under it.
-/
namespace ContextFree

/-- Visiting the values of a list one by one: what each visit preserves, the whole list does, and what the visit of a value
achieves and later states keep is so at the end for all of them. -/
theorem foldl_visits {σ β : Type} {R : σ → σ → Prop} (hrefl : ∀ s, R s s)
    (htrans : ∀ {s s' s''}, R s s' → R s' s'' → R s s'') {P : σ → Prop} {Q : β → σ → Prop} {f : σ → β → σ} {l : List β}
    (hvisit : ∀ s, ∀ x ∈ l, P s → P (f s x) ∧ R s (f s x) ∧ Q x (f s x))
    (hkeep : ∀ s s' x, P s → R s s' → Q x s → Q x s') {s : σ} (hs : P s) :
    P (l.foldl f s) ∧ R s (l.foldl f s) ∧ ∀ x ∈ l, Q x (l.foldl f s) := by
  induction l generalizing s with
  | nil => exact ⟨hs, hrefl s, by simp⟩
  | cons x l ih =>
    obtain ⟨hP, hR, hQ⟩ := hvisit s x List.mem_cons_self hs
    obtain ⟨hP', hR', hQ'⟩ := ih (fun s y hy => hvisit s y (List.mem_cons_of_mem x hy)) hP
    refine ⟨hP', htrans hR hR', fun y hy => ?_⟩
    rcases List.mem_cons.mp hy with rfl | hmem
    · exact hkeep _ _ y hP hR' hQ
    · exact hQ' y hmem

variable {κ β : Type} [Ord κ]

/-- Every member of `s` is one of `t`. -/
def Sub (s t : Std.TreeSet κ) : Prop :=
  ∀ a ∈ s, a ∈ t

theorem Sub.refl (s : Std.TreeSet κ) : Sub s s := fun _ ha => ha

theorem Sub.trans {s t u : Std.TreeSet κ} (h : Sub s t) (h' : Sub t u) : Sub s u :=
  fun a ha => h' a (h a ha)

-- ---------------------------------------------------------------------------
-- Rounds
-- ---------------------------------------------------------------------------

/-- A step that loses nothing and adds more to a larger set. -/
structure Growing (step : Std.TreeSet κ → Std.TreeSet κ) : Prop where
  grow : ∀ s, Sub s (step s)
  mono : ∀ s t, Sub s t → Sub (step s) (step t)

/-- Visits that grow a set add up to a round that does. -/
theorem Growing.foldl {visit : Std.TreeSet κ → β → Std.TreeSet κ} (h : ∀ x, Growing (visit · x))
    (xs : List β) : Growing (xs.foldl visit ·) := by
  induction xs with
  | nil => exact ⟨Sub.refl, fun _ _ hsub => hsub⟩
  | cons x xs ih =>
    refine ⟨fun s => ?_, fun s t hsub => ?_⟩
    · exact ((h x).grow s).trans (ih.grow _)
    · exact ih.mono _ _ ((h x).mono s t hsub)

/-- What the visit of one value adds to the set at the beginning of a round is there at its end. -/
theorem Growing.sub_foldl {visit : Std.TreeSet κ → β → Std.TreeSet κ} (h : ∀ x, Growing (visit · x))
    {xs : List β} {x : β} (hx : x ∈ xs) (s : Std.TreeSet κ) : Sub (visit s x) (xs.foldl visit s) := by
  induction xs generalizing s with
  | nil => cases hx
  | cons y ys ih =>
    rw [List.foldl_cons]
    rcases List.mem_cons.mp hx with rfl | hmem
    · exact (Growing.foldl h ys).grow _
    · exact ((h x).mono s _ ((h y).grow s)).trans (ih hmem _)

/-- A round whose visits add only values of a space adds only values of that space. -/
theorem foldl_within {visit : Std.TreeSet κ → β → Std.TreeSet κ} {space : κ → Prop} {xs : List β}
    (h : ∀ x ∈ xs, ∀ s, ∀ a ∈ visit s x, a ∈ s ∨ space a) (s : Std.TreeSet κ) :
    ∀ a ∈ xs.foldl visit s, a ∈ s ∨ space a := by
  induction xs generalizing s with
  | nil => exact fun a ha => .inl ha
  | cons x xs ih =>
    intro a ha
    rw [List.foldl_cons] at ha
    rcases ih (fun y hy => h y (List.mem_cons_of_mem x hy)) _ a ha with hvisit | hspace
    · exact h x List.mem_cons_self s a hvisit
    · exact .inr hspace

/-- Saturation loses nothing. -/
theorem sub_saturate {step : Std.TreeSet κ → Std.TreeSet κ} (hstep : Growing step) (fuel : Nat)
    (s : Std.TreeSet κ) : Sub s (saturate Std.TreeSet.size step fuel s) :=
  saturate_induction (P := Sub s) (fun t ht => ht.trans (hstep.grow t)) fuel (Sub.refl s)

/-- What the members of the start have and every visit keeps, the members of the saturated set have. -/
theorem forall_mem_saturate {visit : Std.TreeSet κ → β → Std.TreeSet κ} {P : κ → Prop} {xs : List β}
    (hvisit : ∀ x ∈ xs, ∀ s, (∀ a ∈ s, P a) → ∀ a ∈ visit s x, P a) (fuel : Nat) {s : Std.TreeSet κ}
    (hs : ∀ a ∈ s, P a) : ∀ a ∈ saturate Std.TreeSet.size (xs.foldl visit ·) fuel s, P a := by
  refine saturate_induction (P := fun s => ∀ a ∈ s, P a) (fun s hs => ?_) fuel hs
  exact List.foldlRecOn (motive := fun s => ∀ a ∈ s, P a) xs visit hs fun s hs x hx => hvisit x hx s hs

-- ---------------------------------------------------------------------------
-- Conditional insertion
-- ---------------------------------------------------------------------------

variable [Std.TransOrd κ] [Std.LawfulEqOrd κ]

theorem mem_insert_iff {s : Std.TreeSet κ} {a b : κ} : a ∈ s.insert b ↔ a = b ∨ a ∈ s := by
  rw [Std.TreeSet.mem_insert, Std.LawfulEqCmp.compare_eq_iff_eq, eq_comm]

/-- Inserting a value under a condition that larger sets satisfy more easily. -/
theorem Growing.insertIf {cond : Std.TreeSet κ → Bool}
    (hcond : ∀ s t, Sub s t → cond s = true → cond t = true) (value : κ) :
    Growing fun s => if cond s then s.insert value else s := by
  refine ⟨fun s a ha => ?_, fun s t hsub a ha => ?_⟩
  · split
    · exact mem_insert_iff.mpr (.inr ha)
    · exact ha
  · by_cases hs : cond s = true
    · rw [if_pos hs] at ha
      rw [if_pos (hcond s t hsub hs)]
      exact mem_insert_iff.mpr ((mem_insert_iff.mp ha).imp id (hsub a))
    · rw [if_neg hs] at ha
      split
      · exact mem_insert_iff.mpr (.inr (hsub a ha))
      · exact hsub a ha

/-- Inserting a value under a condition adds at most that value. -/
theorem mem_insertIf {s : Std.TreeSet κ} {cond : Bool} {value a : κ}
    (ha : a ∈ if cond then s.insert value else s) : a ∈ s ∨ (cond = true ∧ a = value) := by
  split at ha
  · rename_i hcond
    exact (mem_insert_iff.mp ha).symm.imp id fun h => ⟨hcond, h⟩
  · exact .inl ha

/-- A round that inserts the values of the elements that pass a fixed test. -/
theorem mem_foldl_insertIf {test : β → Bool} {value : β → κ} {xs : List β} {s : Std.TreeSet κ} {a : κ} :
    a ∈ xs.foldl (fun s x => if test x then s.insert (value x) else s) s ↔
      a ∈ s ∨ ∃ x ∈ xs, test x = true ∧ a = value x := by
  induction xs generalizing s with
  | nil => simp
  | cons x xs ih =>
    rw [List.foldl_cons, ih]
    cases htest : test x with
    | true =>
      simp only [if_true, mem_insert_iff, List.mem_cons, exists_eq_or_imp, htest, true_and]
      rw [or_left_comm, or_assoc]
    | false => simp [htest]

-- ---------------------------------------------------------------------------
-- Saturation
-- ---------------------------------------------------------------------------

variable [DecidableEq κ]

/-- The members of a search tree as a finite set. -/
def members (s : Std.TreeSet κ) : Finset κ :=
  s.toList.toFinset

@[simp] theorem mem_members {s : Std.TreeSet κ} {a : κ} : a ∈ members s ↔ a ∈ s := by
  rw [members, List.mem_toFinset, Std.TreeSet.mem_toList]

@[simp] theorem card_members (s : Std.TreeSet κ) : (members s).card = s.size := by
  have hnodup : s.toList.Nodup := by
    refine Std.TreeSet.distinct_toList.imp fun {a b} hne (heq : a = b) => hne ?_
    rw [heq, Std.ReflOrd.compare_self]
  rw [members, List.toFinset_card_of_nodup hnodup, Std.TreeSet.length_toList]

theorem Sub.members_subset {s t : Std.TreeSet κ} (h : Sub s t) : members s ⊆ members t :=
  fun a ha => mem_members.mpr (h a (mem_members.mp ha))

theorem Sub.size_le {s t : Std.TreeSet κ} (h : Sub s t) : s.size ≤ t.size := by
  rw [← card_members s, ← card_members t]
  exact Finset.card_le_card h.members_subset

/-- A set that includes another one of its own size has no other members. -/
theorem Sub.of_size_eq {s t : Std.TreeSet κ} (h : Sub s t) (hsize : t.size = s.size) : Sub t s := by
  have hcard : (members t).card ≤ (members s).card := by
    rw [card_members, card_members, hsize]
  intro a ha
  rw [← mem_members, Finset.eq_of_subset_of_card_le h.members_subset hcard]
  exact mem_members.mpr ha

/-- A set within a finite space is no larger than the space. -/
theorem size_le_card {s : Std.TreeSet κ} {space : Finset κ} (hs : ∀ a ∈ s, a ∈ space) :
    s.size ≤ space.card := by
  rw [← card_members]
  exact Finset.card_le_card fun a ha => hs a (mem_members.mp ha)

/-- Saturation inside a finite space, with fuel for every element that the start does not have yet, ends with a set to which
the step adds nothing. -/
theorem saturate_closed {step : Std.TreeSet κ → Std.TreeSet κ} (hstep : Growing step) {space : Finset κ}
    (hspace : ∀ s, ∀ a ∈ step s, a ∈ s ∨ a ∈ space) (fuel : Nat) {s : Std.TreeSet κ}
    (hs : ∀ a ∈ s, a ∈ space) (hfuel : space.card < fuel + s.size) :
    Sub (step (saturate Std.TreeSet.size step fuel s)) (saturate Std.TreeSet.size step fuel s) := by
  induction fuel generalizing s with
  | zero =>
    have := size_le_card hs
    omega
  | succ fuel ih =>
    simp only [saturate]
    split
    · rename_i hsize
      exact hstep.mono _ _ ((hstep.grow s).of_size_eq hsize)
    · rename_i hsize
      have hle : s.size ≤ (step s).size := (hstep.grow s).size_le
      exact ih (fun a ha => (hspace s a ha).elim (hs a) id) (by omega)

/-! ## Extents -/

/-- The pairs of positions `i ≤ j ≤ n`. -/
def extents (n : Nat) : Finset (Nat × Nat) :=
  ((Finset.range (n + 1)).sigma fun j => Finset.range (j + 1)).image fun extent => (extent.2, extent.1)

theorem mem_extents {n i j : Nat} (hij : i ≤ j) (hj : j ≤ n) : (i, j) ∈ extents n :=
  Finset.mem_image.mpr ⟨⟨j, i⟩, by simpa using ⟨hj, hij⟩, rfl⟩

theorem card_extents_le (n : Nat) : (extents n).card ≤ (n + 1) * (n + 2) / 2 := by
  calc (extents n).card
      ≤ ((Finset.range (n + 1)).sigma fun j => Finset.range (j + 1)).card := Finset.card_image_le
    _ = ∑ j ∈ Finset.range (n + 1), (j + 1) := by simp
    _ = ∑ j ∈ Finset.range (n + 2), j := by rw [Finset.sum_range_succ' (fun j => j) (n + 1)]; rfl
    _ = (n + 1) * (n + 2) / 2 := by rw [Finset.sum_range_id, Nat.mul_comm]; rfl

end ContextFree
