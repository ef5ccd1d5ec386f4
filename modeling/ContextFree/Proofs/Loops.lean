-- SUMMARY: Loops as relations: the states that they come to, and the list of what they took on the way.
import ContextFree.Proofs.Saturation
import Mathlib.Data.List.ReduceOption

/-!
# Loops

A loop is given by its step: in one state it may take a value and go on in another state. The states that it comes to are
related to the list of the values taken on the way, so that it can be said how often each value was taken.
-/
namespace ContextFree

variable {σ β : Type} {step : σ → β → σ → Prop} {start s : σ} {taken : List β}

/-- The loop comes from `start` to a state by taking these values one after the other. -/
inductive Steps (step : σ → β → σ → Prop) (start : σ) : List β → σ → Prop where
  | start : Steps step start [] start
  | next {taken : List β} {s s' : σ} {x : β} : Steps step start taken s → step s x s' → Steps step start (taken ++ [x]) s'

/-- What is so at the start and what each step keeps is so in every state. -/
theorem Steps.invariant {P : σ → Prop} (h : Steps step start taken s) (hstart : P start)
    (hstep : ∀ {s x s'}, P s → step s x s' → P s') : P s := by
  induction h with
  | start => exact hstart
  | next _ hnext ih => exact hstep ih hnext

/-- What is so of every value that a step takes is so of all values taken. -/
theorem Steps.forall_mem {Q : β → Prop} (h : Steps step start taken s)
    (hstep : ∀ {taken s x s'}, Steps step start taken s → step s x s' → Q x) : ∀ x ∈ taken, Q x := by
  induction h with
  | start => exact fun x hx => absurd hx List.not_mem_nil
  | next hsteps hnext ih =>
    exact List.forall_mem_append.mpr ⟨ih, fun x hx => List.mem_singleton.mp hx ▸ hstep hsteps hnext⟩

/-- A list that covers a finite set without being longer lists every member once and nothing else. -/
theorem nodup_of_covers [DecidableEq β] {l : List β} {space : Finset β} (hcover : ∀ x ∈ space, x ∈ l)
    (hlength : l.length ≤ space.card) : l.Nodup ∧ ∀ x, x ∈ l ↔ x ∈ space := by
  have hsub : space ⊆ l.toFinset := fun x hx => List.mem_toFinset.mpr (hcover x hx)
  have hle : l.toFinset.card ≤ l.length := List.toFinset_card_le l
  have hge : space.card ≤ l.toFinset.card := Finset.card_le_card hsub
  have heq : space = l.toFinset := Finset.eq_of_subset_of_card_le hsub (Nat.le_trans hle hlength)
  refine ⟨?_, fun x => by rw [heq, List.mem_toFinset]⟩
  exact Multiset.coe_nodup.mp (Multiset.toFinset_card_eq_card_iff_nodup.mp (Nat.le_antisymm hle (Nat.le_trans hlength hge)))

/-! ## The space of items -/

/-- A dotted state with two positions in their order, the first one where its rule began. -/
def InSpace (states tokens : Nat) (x : Nat × Nat × Nat) : Prop :=
  x.1 < states ∧ x.2.1 ≤ x.2.2 ∧ x.2.2 ≤ tokens

theorem length_le_of_inSpace {states tokens : Nat} {l : List (Nat × Nat × Nat)} (hnodup : l.Nodup)
    (hspace : ∀ x ∈ l, InSpace states tokens x) : l.length ≤ states * (tokens + 1) * (tokens + 2) / 2 := by
  have hsub : l.toFinset ⊆ Finset.range states ×ˢ extents tokens := by
    intro x hx
    obtain ⟨hstate, hij, hj⟩ := hspace x (List.mem_toFinset.mp hx)
    exact Finset.mem_product.mpr ⟨Finset.mem_range.mpr hstate, mem_extents hij hj⟩
  calc l.length
      = l.toFinset.card := (List.toFinset_card_of_nodup hnodup).symm
    _ ≤ (Finset.range states ×ˢ extents tokens).card := Finset.card_le_card hsub
    _ = states * (extents tokens).card := by rw [Finset.card_product, Finset.card_range]
    _ ≤ states * ((tokens + 1) * (tokens + 2) / 2) := Nat.mul_le_mul_left _ (card_extents_le tokens)
    _ ≤ states * ((tokens + 1) * (tokens + 2)) / 2 := Nat.mul_div_le_mul_div_assoc _ _ _
    _ = states * (tokens + 1) * (tokens + 2) / 2 := by rw [Nat.mul_assoc]

end ContextFree
