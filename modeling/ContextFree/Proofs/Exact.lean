-- SUMMARY: Exact tables: every node below the root has one family for each way to derive it, and no other.
import ContextFree.Proofs.Splits

/-!
# Exact tables

A node is relevant if a whole derivation of the start symbol up to some position can pass it. The children of a relevant
node are relevant, so everything below the root is. A closed search records all ways to derive a relevant node; a
faithful table that has recorded them is exact.
-/
namespace ContextFree

variable {α : Type} [DecidableEq α] {p : Prepared α} {tokens : Array α} {stop : Nat} {x y : Identity}
  {key : List Identity}

/-- A derivation of the start symbol up to `stop` can pass the node. -/
def Relevant (p : Prepared α) (tokens : Array α) (stop : Nat) (x : Identity) : Prop :=
  match x.label with
  | .symbol (.terminal _)    => True
  | .symbol (.nonterminal A) => Within p tokens stop A x.left x.right
  | .state slot              => ∃ id before after l, p.AtDot slot id before after ∧
      id ∈ p.rulesFor (p.rule id).lhs ∧ Within p tokens stop (p.rule id).lhs x.left l ∧
      p.DerivesSpan tokens after x.right l

/-- The node of a position in a relevant rule is relevant. -/
theorem relevant_part {slot : StateId} {id : RuleId} {before after : List Symbol} {i k j : Nat}
    (hdot : p.AtDot slot id before after) (hid : id ∈ p.rulesFor (p.rule id).lhs)
    (hwithin : Within p tokens stop (p.rule id).lhs i j) (hbefore : p.DerivesSpan tokens before i k)
    (hafter : p.DerivesSpan tokens after k j) : Relevant p tokens stop ⟨partLabel slot before, i, k⟩ := by
  match before with
  | []               => exact ⟨id, _, _, j, hdot, hid, hwithin, hafter⟩
  | [.terminal _]    => exact trivial
  | [.nonterminal B] =>
    have hrhs : (p.rule id).rhs = [] ++ .nonterminal B :: after := hdot.rhs_eq
    exact .inner hwithin hid hrhs (.nil i) hafter
  | _ :: _ :: _      => exact ⟨id, _, _, j, hdot, hid, hwithin, hafter⟩

theorem relevant_symbol {slot : StateId} {id : RuleId} {before after : List Symbol} {symbol : Symbol} {i k l j : Nat}
    (hdot : p.AtDot slot id before (symbol :: after)) (hid : id ∈ p.rulesFor (p.rule id).lhs)
    (hwithin : Within p tokens stop (p.rule id).lhs i j) (hbefore : p.DerivesSpan tokens before i k)
    (hafter : p.DerivesSpan tokens after l j) : Relevant p tokens stop ⟨.symbol symbol, k, l⟩ := by
  cases symbol with
  | terminal t => exact trivial
  | nonterminal B => exact .inner hwithin hid hdot.rhs_eq hbefore hafter

/-- A split of a position in a rule that is part of a whole derivation. -/
structure RelevantSplit (p : Prepared α) (tokens : Array α) (stop : Nat) (slot : StateId) (id : RuleId)
    (before after : List Symbol) (i k j : Nat) : Prop where
  atDot : p.AtDot slot id before after
  useful : id ∈ p.rulesFor (p.rule id).lhs
  own : HasOwnNode before after
  splits : p.SplitsAt tokens before i k j
  within : ∃ l, Within p tokens stop (p.rule id).lhs i l ∧ p.DerivesSpan tokens after j l

/-- Every way to derive a relevant node is such a split. -/
theorem Way.exists_split (hp : p.Regular) (h : Way p tokens x key) (hrel : Relevant p tokens stop x) :
    ∃ slot id before after i k j, RelevantSplit p tokens stop slot id before after i k j ∧
      x = partIdentity p slot id before after i j ∧ key = splitKey slot before i k j := by
  cases h with
  | @rule A id i k j hid hsplit =>
    obtain ⟨hlt, huseful, rfl⟩ := hp.mem_rulesFor.mp hid
    exact ⟨_, id, _, [], i, k, j, ⟨Prepared.atDot_completed hlt, hid, .inl rfl, hsplit, j, hrel, .nil j⟩, rfl, rfl⟩
  | @part slot id before after i k j hdot htwo hne hsplit =>
    obtain ⟨id', before', after', l, hdot', hid, hwithin, hafter⟩ := hrel
    obtain ⟨rfl, rfl, rfl⟩ := hdot.unique hp hdot'
    refine ⟨slot, id, before, after, i, k, j, ⟨hdot, hid, .inr htwo, hsplit, l, hwithin, hafter⟩, ?_, rfl⟩
    have hown : HasOwnNode before after := .inr htwo
    rcases hown.identity_cases p slot id i j with ⟨hnil, -⟩ | ⟨-, -, hidentity⟩
    · exact absurd hnil hne
    · exact hidentity.symm

/-- The children of a relevant node are relevant. -/
theorem Relevant.child (hp : p.Regular) (hrel : Relevant p tokens stop x) (hway : Way p tokens x key) (hy : y ∈ key) :
    Relevant p tokens stop y := by
  obtain ⟨slot, id, symbols, after, i, k, j, hsplit, rfl, rfl⟩ := hway.exists_split hp hrel
  obtain ⟨l, hwithin, hafter⟩ := hsplit.within
  have hdot := hsplit.atDot
  cases hsplit.splits with
  | nothing => simp [splitKey] at hy
  | @last before symbol _ _ _ hbefore hsymbol =>
    have hprevious : p.AtDot (p.states.initial id + before.length) id before (symbol :: after) :=
      ⟨hdot.lt, rfl, by rw [hdot.rhs_eq, List.append_assoc, List.singleton_append]⟩
    have hslot : slot = p.states.initial id + before.length + 1 := hdot.slot_eq.trans (by simp [Nat.add_assoc])
    have hright := relevant_symbol hprevious hsplit.useful hwithin hbefore hafter
    cases before with
    | nil =>
      obtain rfl : y = ⟨.symbol symbol, k, j⟩ := by simpa [splitKey] using hy
      exact hright
    | cons first before =>
      rw [hslot, splitKey_append (List.cons_ne_nil first before)] at hy
      rcases List.mem_pair.mp hy with rfl | rfl
      · exact relevant_part hprevious hsplit.useful hwithin hbefore (hsymbol.append hafter)
      · exact hright

/-- A closed search has recorded every way to derive a relevant node. -/
theorem ClosedSearch.splits_of_relevant {admits : RuleId → Nat → Prop} {visits : StateId → Nat → Nat → Prop}
    {splits : StateId → Nat → Nat → Nat → Prop} (hp : p.Regular) (hs : ClosedSearch p tokens admits visits splits)
    (hr : Relevance p tokens admits (Within p tokens stop)) {slot : StateId} {id : RuleId} {before after : List Symbol}
    {i k j : Nat} (h : RelevantSplit p tokens stop slot id before after i k j) : splits slot i k j := by
  obtain ⟨l, hwithin, hafter⟩ := h.within
  have hdot := h.atDot
  cases h.splits with
  | nothing =>
    -- a rule whose part before the dot is empty has an own node there only if it is empty itself
    obtain rfl : after = [] := h.own.resolve_right (by simp)
    have hvisit := hs.visits_within hp hr hwithin h.useful hdot.rhs_eq (.nil i) hafter
    rw [← hdot.slot_eq] at hvisit
    exact hs.nothing hdot hvisit
  | @last before symbol _ _ _ hbefore hsymbol =>
    have hrhs : (p.rule id).rhs = before ++ symbol :: after := by
      rw [hdot.rhs_eq, List.append_assoc, List.singleton_append]
    have hslot : slot = p.states.initial id + before.length + 1 := hdot.slot_eq.trans (by simp [Nat.add_assoc])
    rw [hslot]
    exact hs.splits_within hp hr hwithin h.useful hrhs hbefore hsymbol hafter

/-! ## Exact tables -/

/-- The table has the start symbol over everything up to `stop` as its root, and all families of relevant nodes. -/
structure NodeTable.Exact (t : NodeTable) (p : Prepared α) (tokens : Array α) (stop : Nat) (root : NodeId) : Prop where
  faithful : t.Faithful p tokens
  root : t.find? ⟨.symbol (.nonterminal p.start), 0, stop⟩ = some root
  complete : ∀ {x key}, t.Has x → Relevant p tokens stop x → Way p tokens x key → t.HasFamily x key

end ContextFree
