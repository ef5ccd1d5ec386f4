-- SUMMARY: Iterating a growing step until it adds nothing.

/-!
# Saturation

The sets that an analysis of a grammar or of a forest looks for are least sets closed under some step. `saturate`
repeats the step until the size of the set stands still. For a step that only adds elements of a finite space,
the size of that space bounds the number of rounds.
-/
namespace ContextFree

/-- Apply `step` until `size` no longer changes, at most `fuel` times. -/
def saturate {α : Type} (size : α → Nat) (step : α → α) : (fuel : Nat) → α → α
  | 0,        a => a
  | fuel + 1, a =>
    let b := step a
    if size b = size a then b else saturate size step fuel b

/-- What the start satisfies and the step keeps holds of the result. -/
theorem saturate_induction {α : Type} {size : α → Nat} {step : α → α} {P : α → Prop}
    (hstep : ∀ a, P a → P (step a)) (fuel : Nat) {a : α} (ha : P a) :
    P (saturate size step fuel a) := by
  induction fuel generalizing a with
  | zero => exact ha
  | succ fuel ih =>
    simp only [saturate]
    split
    · exact hstep a ha
    · exact ih (hstep a ha)

end ContextFree
