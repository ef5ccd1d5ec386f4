-- SUMMARY: Where a terminal matches there is an atom that it accepts, and it takes no more than the input has.
import ContextFree.Derivation.Spans

/-!
# Matching and spans

A terminal that takes something at a position accepts the atom there and stops inside the input. Spans that are derived from a
position inside the input therefore end inside it.
-/
namespace ContextFree

variable {α : Type}

theorem runLength_le (accepts : α → Bool) (input : Array α) (fuel position : Nat) :
    runLength accepts input fuel position ≤ fuel := by
  induction fuel generalizing position with
  | zero => exact Nat.le_refl 0
  | succ fuel ih =>
    unfold runLength
    split
    · split
      · exact Nat.succ_le_succ (ih (position + 1))
      · exact Nat.zero_le _
    · exact Nat.zero_le _

theorem accepts_of_runLength_pos {accepts : α → Bool} {input : Array α} {fuel position : Nat}
    (h : 0 < runLength accepts input fuel position) :
    ∃ atom, input[position]? = some atom ∧ accepts atom = true := by
  cases fuel with
  | zero => exact absurd h (Nat.lt_irrefl 0)
  | succ fuel =>
    unfold runLength at h
    split at h
    · rename_i atom hatom
      split at h
      · exact ⟨atom, hatom, ‹_›⟩
      · exact absurd h (Nat.lt_irrefl 0)
    · exact absurd h (Nat.lt_irrefl 0)

variable [DecidableEq α]

namespace Terminal

theorem accepts_of_matchLength_pos {t : Terminal α} {input : Array α} {position : Nat}
    (h : 0 < t.matchLength input position) :
    ∃ atom, input[position]? = some atom ∧ t.accepts atom = true := by
  unfold matchLength at h
  split at h
  · exact accepts_of_runLength_pos h
  · split at h
    · rename_i hany
      rwa [Option.any_eq_true] at hany
    · exact absurd h (Nat.lt_irrefl 0)

theorem matchLength_le (t : Terminal α) (input : Array α) (position : Nat) :
    t.matchLength input position ≤ input.size - position := by
  unfold matchLength
  split
  · exact runLength_le t.accepts input _ position
  · split
    · rename_i hany
      obtain ⟨atom, hatom, _⟩ := (Option.any_eq_true _ _).mp hany
      have := (Array.getElem?_eq_some_iff.mp hatom).1
      omega
    · exact Nat.zero_le _

end Terminal

namespace Prepared

variable {p : Prepared α} {tokens : Array α}

theorem matchLength_le (p : Prepared α) (t : TerminalId) (tokens : Array α) (position : Nat) :
    p.matchLength t tokens position ≤ tokens.size - position := by
  unfold Prepared.matchLength
  split
  · exact Terminal.matchLength_le _ tokens position
  · exact Nat.zero_le _

/-- A terminal that matches is registered and accepts the atom where it matches. -/
theorem accepts_of_matchLength_pos {t : TerminalId} {position : Nat}
    (h : 0 < p.matchLength t tokens position) :
    t < p.grammar.terminals.size ∧
      ∃ atom, tokens[position]? = some atom ∧ p.accepts t atom = true := by
  unfold Prepared.matchLength at h
  split at h
  · rename_i terminal hterminal
    obtain ⟨atom, hatom, haccepts⟩ := Terminal.accepts_of_matchLength_pos h
    refine ⟨(Array.getElem?_eq_some_iff.mp hterminal).1, atom, hatom, ?_⟩
    rw [Prepared.accepts, hterminal]
    exact haccepts
  · exact absurd h (Nat.lt_irrefl 0)

/-- What is derived from a position inside the input ends inside the input. -/
theorem DerivesSpan.stop_le {symbols : List Symbol} {i j : Nat} (h : p.DerivesSpan tokens symbols i j)
    (hi : i ≤ tokens.size) : j ≤ tokens.size := by
  unfold DerivesSpan at h
  induction h with
  | nil i => exact hi
  | @terminal t rest i j hpos _ ih =>
    have := p.matchLength_le t tokens i
    exact ih (by omega)
  | nonterminal _ _ _ ihBody ihRest => exact ihRest (ihBody hi)

end Prepared
end ContextFree
