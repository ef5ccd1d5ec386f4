-- SUMMARY: The children of a way to derive a node divide its extent and its symbols among them.
import ContextFree.Proofs.DerivationTrees

/-!
# Divisions

A way to derive a node names children that stand one after the other from the left end of the node to its right end. What
they stand for, in order, is the body of a rule of the node's nonterminal, or the symbols before the dot of its state.
Children without extent can be left out of the row without leaving a gap.
-/
namespace ContextFree

variable {α : Type} {key : List Identity} {x y : Identity} {i j k : Nat}

/-! ## Rows of extents -/

/-- The identities stand one after the other from `i` to `j`. -/
inductive Abut : List Identity → Nat → Nat → Prop where
  | nil (i : Nat) : Abut [] i i
  | cons {x : Identity} {key : List Identity} {j : Nat} :
      x.left ≤ x.right → Abut key x.right j → Abut (x :: key) x.left j

theorem Abut.le (h : Abut key i j) : i ≤ j := by
  induction h with
  | nil i => exact Nat.le_refl i
  | cons hle _ ih => exact Nat.le_trans hle ih

/-- Every member lies within the row. -/
theorem Abut.inside (h : Abut key i j) (hx : x ∈ key) : i ≤ x.left ∧ x.right ≤ j := by
  induction h with
  | nil i => cases hx
  | @cons y key j hle hrest ih =>
    rcases List.mem_cons.mp hx with rfl | hmem
    · exact ⟨Nat.le_refl _, hrest.le⟩
    · obtain ⟨hleft, hright⟩ := ih hmem
      exact ⟨Nat.le_trans hle hleft, hright⟩

/-- What stands before a member ends where it begins, and what stands after it begins where it ends. -/
theorem Abut.of_append {before after : List Identity} (h : Abut (before ++ x :: after) i j) :
    Abut before i x.left ∧ Abut after x.right j := by
  induction before generalizing i with
  | nil =>
    cases h with
    | cons _ hafter => exact ⟨.nil _, hafter⟩
  | cons y before ih =>
    cases h with
    | cons hle hrest => exact ⟨.cons hle (ih hrest).1, (ih hrest).2⟩

/-- Members without extent can be left out. -/
theorem Abut.filter {keep : Identity → Bool} (h : Abut key i j)
    (hempty : ∀ {y}, y ∈ key → keep y = false → y.left = y.right) : Abut (key.filter keep) i j := by
  induction h with
  | nil i => exact .nil i
  | @cons x key j hle _ ih =>
    have hrest := ih fun hy => hempty (List.mem_cons_of_mem _ hy)
    cases hkeep : keep x with
    | true =>
      rw [List.filter_cons_of_pos hkeep]
      exact .cons hle hrest
    | false =>
      rw [List.filter_cons_of_neg (by simp [hkeep]), hempty List.mem_cons_self hkeep]
      exact hrest

/-! ## Divisions of rules -/

variable {p : Prepared α} {symbols : List Symbol} {slot : StateId} {id : RuleId} {before after : List Symbol}

/-- The bodies that a label is derived by: those of the useful rules of a nonterminal, or what stands before the dot. -/
def Prepared.Expands (p : Prepared α) : Label → List Symbol → Prop
  | .symbol (.terminal _),    _       => False
  | .symbol (.nonterminal A), symbols => ∃ id ∈ p.rulesFor A, (p.rule id).rhs = symbols
  | .state slot,              symbols => p.symbolsOf (.state slot) = symbols

variable [DecidableEq α] {tokens : Array α}

/-- The nodes are derived, and divide the symbols and the stretch from `i` to `j` among them. -/
inductive Prepared.Divides (p : Prepared α) (tokens : Array α) : List Identity → List Symbol → Nat → Nat → Prop where
  | nil (i : Nat) : Divides p tokens [] [] i i
  | cons {x : Identity} {key : List Identity} {rest : List Symbol} {j : Nat} :
      Derived p tokens x → Divides p tokens key rest x.right j →
      Divides p tokens (x :: key) (p.symbolsOf x.label ++ rest) x.left j

theorem Prepared.Divides.abut (h : p.Divides tokens key symbols i j) : Abut key i j := by
  induction h with
  | nil i => exact .nil i
  | cons hderived _ ih => exact .cons hderived.le ih

/-- What a label stands for is derived over the extent. -/
theorem Derived.derivesSpan (hp : p.Regular) (h : Derived p tokens x) :
    p.DerivesSpan tokens (p.symbolsOf x.label) x.left x.right := by
  obtain ⟨label, left, right⟩ := x
  cases label with
  | symbol symbol => exact h
  | state slot =>
    obtain ⟨id, before, after, hdot, -, -, hderives⟩ := h
    rw [hdot.symbolsOf hp]
    exact hderives

theorem Prepared.Divides.derivesSpan (hp : p.Regular) (h : p.Divides tokens key symbols i j) :
    p.DerivesSpan tokens symbols i j := by
  induction h with
  | nil i => exact .nil i
  | cons hderived _ ih => exact (hderived.derivesSpan hp).append ih

/-- A split divides the symbols before the dot. -/
theorem Prepared.SplitsAt.divides (hp : p.Regular) (hdot : p.AtDot slot id before after)
    (hsplit : p.SplitsAt tokens before i k j) : p.Divides tokens (splitKey slot before i k j) before i j := by
  rcases List.eq_nil_or_concat before with rfl | ⟨init, symbol, rfl⟩
  · cases hsplit.derives
    exact .nil i
  · rw [List.concat_eq_append] at hdot hsplit ⊢
    obtain ⟨previous, rfl, hprevious⟩ := hdot.back
    have hlast : p.Divides tokens [⟨.symbol symbol, k, j⟩] [symbol] k j :=
      .cons (x := ⟨.symbol symbol, k, j⟩) hsplit.of_append.2 (.nil j)
    by_cases hne : init = []
    · obtain rfl := hsplit.pivot_eq hne
      subst hne
      exact hlast
    · have hderived : Derived p tokens ⟨partLabel previous init, i, k⟩ := by
        refine derived_of_mem_splitKey hdot hsplit ?_
        rw [splitKey_append hne]
        exact List.mem_cons_self
      have hboth := Prepared.Divides.cons hderived hlast
      rw [symbolsOf_partLabel hp hprevious] at hboth
      rw [splitKey_append hne]
      exact hboth

/-- The children of a way divide what its label is derived by. -/
theorem Way.exists_division (hp : p.Regular) (h : Way p tokens x key) :
    ∃ symbols, p.Expands x.label symbols ∧ p.Divides tokens key symbols x.left x.right := by
  cases h with
  | rule hid hsplit => exact ⟨_, ⟨_, hid, rfl⟩, hsplit.divides hp (Prepared.atDot_completed (hp.mem_rulesFor.mp hid).1)⟩
  | part hdot _ _ hsplit => exact ⟨_, hdot.symbolsOf hp, hsplit.divides hp hdot⟩

end ContextFree
