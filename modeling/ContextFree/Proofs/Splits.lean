-- SUMMARY: The ways to derive a node of a forest, the children that stand for each of them, and tables that record them.
import ContextFree.Proofs.NodeTable
import ContextFree.Proofs.Search

/-!
# Ways to derive a node

A node over `i` to `j` stands for a nonterminal or for the part of a rule before a position. Each way to derive it is a
split: the symbols before the dot derive `i` to `j`, and the last of them begins at `k`. The children of the split are the
node of the symbols before the last one, if there are any, and the node of the last one. A single symbol is its own
node.
-/
namespace ContextFree

variable {α : Type} {p : Prepared α} {slot : StateId} {id : RuleId} {before after : List Symbol}
  {symbol : Symbol} {i k j : Nat}

/-! ## Nodes and children of splits -/

/-- The label of the part of a rule before `slot`, when that is not all of the rule. -/
def partLabel (slot : StateId) : List Symbol → Label
  | [symbol] => .symbol symbol
  | _        => .state slot

/-- The node of the part of the rule `id` before `slot`. -/
def partIdentity (p : Prepared α) (slot : StateId) (id : RuleId) (before after : List Symbol) (i j : Nat) : Identity :=
  match after with
  | []     => ⟨.symbol (.nonterminal (p.rule id).lhs), i, j⟩
  | _ :: _ => ⟨partLabel slot before, i, j⟩

/-- The children of a split of the symbols before `slot`. -/
def splitKey (slot : StateId) : List Symbol → Nat → Nat → Nat → List Identity
  | [],                      _, _, _ => []
  | [only],                  _, k, j => [⟨.symbol only, k, j⟩]
  | [first, last],           i, k, j => [⟨.symbol first, i, k⟩, ⟨.symbol last, k, j⟩]
  | _ :: _ :: third :: rest, i, k, j =>
    [⟨.state (slot - 1), i, k⟩, ⟨.symbol ((third :: rest).getLast (List.cons_ne_nil third rest)), k, j⟩]

theorem splitKey_append (hne : before ≠ []) :
    splitKey (slot + 1) (before ++ [symbol]) i k j = [⟨partLabel slot before, i, k⟩, ⟨.symbol symbol, k, j⟩] := by
  match before, hne with
  | [_], _               => rfl
  | [_, _], _            => rfl
  | _ :: _ :: _ :: _, _  => simp [splitKey, partLabel]

/-- Splits with the same children are of the same symbols or, if these are at least three, of the same position. -/
theorem splitKey_cases {slot' : StateId} {before' : List Symbol} {k' : Nat}
    (heq : splitKey slot before i k j = splitKey slot' before' i k' j) :
    before = before' ∧ (before = [] ∨ k = k') ∨
      0 < before.length ∧ 0 < before'.length ∧ slot - 1 = slot' - 1 ∧ k = k' := by
  match before, before' with
  | [], []                             => exact .inl ⟨rfl, .inl rfl⟩
  | [_], [_]                           => simp_all [splitKey]
  | [_, _], [_, _]                     => simp_all [splitKey]
  | _ :: _ :: _ :: _, _ :: _ :: _ :: _ => simp_all [splitKey]
  | [], [_] | [], [_, _] | [], _ :: _ :: _ :: _ => simp [splitKey] at heq
  | [_], [] | [_], [_, _] | [_], _ :: _ :: _ :: _ => simp [splitKey] at heq
  | [_, _], [] | [_, _], [_] | [_, _], _ :: _ :: _ :: _ => simp [splitKey] at heq
  | _ :: _ :: _ :: _, [] | _ :: _ :: _ :: _, [_] | _ :: _ :: _ :: _, [_, _] => simp [splitKey] at heq

/-- The children of a split of a whole rule of `A` tell the rule. -/
theorem splitKey_rule (hp : p.Regular) {A : Nonterminal} {id' : RuleId} {k' : Nat} (hid : id ∈ p.rulesFor A)
    (hid' : id' ∈ p.rulesFor A)
    (heq : splitKey (p.states.completed id (p.rule id).rhs.length) (p.rule id).rhs i k j =
      splitKey (p.states.completed id' (p.rule id').rhs.length) (p.rule id').rhs i k' j) : id = id' := by
  obtain ⟨hlt, -, hlhs⟩ := hp.mem_rulesFor.mp hid
  obtain ⟨hlt', -, hlhs'⟩ := hp.mem_rulesFor.mp hid'
  rcases splitKey_cases heq with ⟨hrhs, -⟩ | ⟨hpos, hpos', hslot, -⟩
  · have hrule : p.rule id = p.rule id' := by
      cases h : p.rule id
      cases h' : p.rule id'
      simp_all
    exact hp.indexed.rule_injective hlt hlt' hrule
  · have hpred : ∀ {m n : Nat}, 0 < m → 0 < n → m - 1 = n - 1 → m = n := by omega
    have hslots := hpred (Nat.lt_of_lt_of_le hpos (Nat.le_add_left _ _))
      (Nat.lt_of_lt_of_le hpos' (Nat.le_add_left _ _)) hslot
    have hdot : p.AtDot (p.states.initial id + (p.rule id).rhs.length) id (p.rule id).rhs [] :=
      Prepared.atDot_completed hlt
    rw [hslots] at hdot
    exact (hdot.unique hp (Prepared.atDot_completed hlt')).1

/-- The symbols before a position have a node of their own, with a family for each split, if they are all of the rule or
more than one. -/
def HasOwnNode (before after : List Symbol) : Prop :=
  after = [] ∨ 2 ≤ before.length

/-- An own node is that of the left-hand side at the end of the rule, and that of the state before. -/
theorem HasOwnNode.identity_cases (h : HasOwnNode before after) (p : Prepared α) (slot : StateId) (id : RuleId)
    (i j : Nat) :
    after = [] ∧ partIdentity p slot id before after i j = ⟨.symbol (.nonterminal (p.rule id).lhs), i, j⟩ ∨
      2 ≤ before.length ∧ after ≠ [] ∧ partIdentity p slot id before after i j = ⟨.state slot, i, j⟩ := by
  cases after with
  | nil => exact .inl ⟨rfl, rfl⟩
  | cons next after =>
    have htwo : 2 ≤ before.length := h.resolve_left (List.cons_ne_nil next after)
    refine .inr ⟨htwo, List.cons_ne_nil next after, ?_⟩
    match before, htwo with
    | _ :: _ :: _, _ => rfl

/-! ## Recording splits in a table -/

/-- The table has the split of the symbols before `slot`, if they have a node of their own. -/
def NodeTable.Records (t : NodeTable) (p : Prepared α) (slot : StateId) (i k j : Nat) : Prop :=
  ∀ ⦃id before after⦄, p.AtDot slot id before after → HasOwnNode before after →
    t.HasFamily (partIdentity p slot id before after i j) (splitKey slot before i k j)

/-- The node of an item: none before the first symbol, and then that of the symbols before its position. -/
def NodeTable.IsPart (t : NodeTable) (p : Prepared α) (slot : StateId) (id : RuleId) (before after : List Symbol)
    (i j : Nat) (node? : Option NodeId) : Prop :=
  (before = [] ∧ node? = none) ∨
    (before ≠ [] ∧ ∃ node < t.size, node? = some node ∧ (t.node node).identity = partIdentity p slot id before after i j)

namespace NodeTable

variable {t t' : NodeTable} {before? : Option NodeId} {child : Nat}

theorem Records.mono (h : t.Records p slot i k j) (ht : t.Consistent) (hextends : t.Extends t') :
    t'.Records p slot i k j :=
  fun _ _ _ hdot hown => hextends.hasFamily ht (h hdot hown)

theorem IsPart.mono {node? : Option NodeId} (h : t.IsPart p slot id before after i j node?) (hextends : t.Extends t') :
    t'.IsPart p slot id before after i j node? := by
  refine h.imp (fun h => h) fun ⟨hne, node, hlt, hnode, hidentity⟩ => ⟨hne, node, ?_, hnode, ?_⟩
  · exact Nat.lt_of_lt_of_le hlt hextends.size_le
  · rw [hextends.identity_eq hlt, hidentity]

theorem recordStep_of_single (hp : p.Regular) (hdot : p.AtDot slot id before (symbol :: after))
    (hown : ¬ HasOwnNode (before ++ [symbol]) after) : t.recordStep p (slot + 1) i j before? child = (child, t) := by
  have hlength : before.length = 0 := by
    by_contra hne
    exact hown (.inr (by rw [List.length_append, List.length_singleton]; omega))
  have hafter : after ≠ [] := fun h => hown (.inl h)
  have hstep := hdot.step
  simp [recordStep, hstep.dot_eq hp, hstep.isComplete_eq hp, hlength, hafter]

theorem recordStep_of_own (hp : p.Regular) (hdot : p.AtDot slot id before (symbol :: after))
    (hown : HasOwnNode (before ++ [symbol]) after) :
    t.recordStep p (slot + 1) i j before? child =
      let made := t.intern (partIdentity p (slot + 1) id (before ++ [symbol]) after i j)
      (made.1, made.2.addFamily made.1 (.ofPair before? (some child))) := by
  have hstep := hdot.step
  rcases hown.identity_cases p (slot + 1) id i j with ⟨rfl, hidentity⟩ | ⟨htwo, hne, hidentity⟩
  · simp [recordStep, hstep.isComplete_eq hp, hstep.lhs_eq hp, hidentity]
  · have hdots : (p.state (slot + 1)).dot ≠ 1 := by
      rw [hstep.dot_eq hp]
      omega
    simp [recordStep, hstep.isComplete_eq hp, hdots, hidentity, hne]

/-- Recording a step adds the node of the symbols up to the new position and the split over the last of them, if they have a
node of their own, and gives that node. -/
theorem recordStep_spec (hp : p.Regular) (ht : t.Consistent) (hdot : p.AtDot slot id before (symbol :: after))
    (hk : before = [] → k = i) (hbefore : t.IsPart p slot id before (symbol :: after) i k before?)
    (hlt : child < t.size) (hchild : (t.node child).identity = ⟨.symbol symbol, k, j⟩) :
    Adds t (t.recordStep p (slot + 1) i j before? child).2
        (fun y => HasOwnNode (before ++ [symbol]) after ∧
          y = partIdentity p (slot + 1) id (before ++ [symbol]) after i j)
        (fun y key => HasOwnNode (before ++ [symbol]) after ∧
          y = partIdentity p (slot + 1) id (before ++ [symbol]) after i j ∧
          key = splitKey (slot + 1) (before ++ [symbol]) i k j) ∧
      (t.recordStep p (slot + 1) i j before? child).2.IsPart p (slot + 1) id (before ++ [symbol]) after i j
        (some (t.recordStep p (slot + 1) i j before? child).1) := by
  by_cases hown : HasOwnNode (before ++ [symbol]) after
  · rw [recordStep_of_own hp hdot hown]
    generalize hx : partIdentity p (slot + 1) id (before ++ [symbol]) after i j = x
    dsimp only
    have hmade := intern_adds ht x
    obtain ⟨hmadeLt, hmadeId⟩ := intern_node ht x
    generalize t.intern x = made at hmade hmadeLt hmadeId
    have hchildren : ∀ node ∈ (Family.ofPair before? (some child)).children, node < t.size := by
      rcases hbefore with ⟨-, rfl⟩ | ⟨-, node, hnode, rfl, -⟩
      · simp [Family.ofPair, Family.children, hlt]
      · simp [Family.ofPair, Family.children, hlt, hnode]
    have hkey : Order.familyKey made.2.nodes (.ofPair before? (some child)) =
        splitKey (slot + 1) (before ++ [symbol]) i k j := by
      rw [hmade.extension.familyKey hchildren]
      rcases hbefore with ⟨rfl, rfl⟩ | ⟨hne, node, hnode, rfl, hpart⟩
      · simp [familyKey_eq, Family.ofPair, Family.children, hchild, splitKey]
      · rw [splitKey_append hne]
        simp [familyKey_eq, Family.ofPair, Family.children, hchild, hpart, partIdentity]
    have hfamily := addFamily_adds hmade.consistent hmadeLt fun node hnode =>
      Nat.lt_of_lt_of_le (hchildren node hnode) hmade.extension.size_le
    rw [hmadeId, hkey] at hfamily
    have hadds := hmade.trans hfamily
    refine ⟨⟨hadds.consistent, hadds.extension, ?_, ?_⟩, .inr ⟨by simp, made.1, ?_, rfl, ?_⟩⟩
    · simp [hadds.has, hown]
    · simp [hadds.hasFamily, hown]
    · rw [size_addFamily]
      exact hmadeLt
    · rw [identity_addFamily, hmadeId, hx]
  · rw [recordStep_of_single hp hdot hown]
    have hnil : before = [] := by
      by_contra hne
      have := List.length_pos_iff.mpr hne
      exact hown (.inr (by rw [List.length_append, List.length_singleton]; omega))
    obtain ⟨next, rest, rfl⟩ := List.exists_cons_of_ne_nil fun h => hown (.inl h)
    subst hnil
    refine ⟨⟨ht, .refl t, ?_, ?_⟩, .inr ⟨by simp, child, hlt, rfl, ?_⟩⟩
    · exact ⟨.inl, fun h => h.elim (fun h => h) fun h => absurd h.1 hown⟩
    · exact ⟨.inl, fun h => h.elim (fun h => h) fun h => absurd h.1 hown⟩
    · rw [hchild, hk rfl]
      rfl

end NodeTable

/-! ## Splits -/

variable [DecidableEq α] {tokens : Array α}

/-- The symbols derive `i` to `j`, and the last of them begins at `k`. -/
inductive Prepared.SplitsAt (p : Prepared α) (tokens : Array α) : List Symbol → Nat → Nat → Nat → Prop where
  | nothing (i : Nat) : SplitsAt p tokens [] i i i
  | last {before : List Symbol} {symbol : Symbol} {i k j : Nat} :
      p.DerivesSpan tokens before i k → p.DerivesSpan tokens [symbol] k j →
      SplitsAt p tokens (before ++ [symbol]) i k j

theorem Prepared.SplitsAt.derives (h : p.SplitsAt tokens before i k j) : p.DerivesSpan tokens before i j := by
  cases h with
  | nothing => exact .nil i
  | last hbefore hlast => exact hbefore.append hlast

theorem Prepared.SplitsAt.exists_of_derives (h : p.DerivesSpan tokens before i j) :
    ∃ k, p.SplitsAt tokens before i k j := by
  rcases List.eq_nil_or_concat before with rfl | ⟨init, symbol, rfl⟩
  · unfold DerivesSpan at h
    cases h
    exact ⟨i, .nothing i⟩
  · rw [List.concat_eq_append] at h ⊢
    obtain ⟨k, hinit, hlast⟩ := Derives.of_append h
    exact ⟨k, .last hinit hlast⟩

theorem Prepared.SplitsAt.pivot_of_nil (h : p.SplitsAt tokens [] i k j) : k = i := by
  generalize hnil : ([] : List Symbol) = symbols at h
  cases h with
  | nothing => rfl
  | last => simp at hnil

/-- The children of a split tell its pivot. -/
theorem splitKey_pivot {slot' : StateId} {before' : List Symbol} {k' : Nat} (hsplit : p.SplitsAt tokens before i k j)
    (hsplit' : p.SplitsAt tokens before' i k' j)
    (heq : splitKey slot before i k j = splitKey slot' before' i k' j) : k = k' := by
  rcases splitKey_cases heq with ⟨rfl, rfl | hk⟩ | ⟨-, -, -, hk⟩
  · rw [hsplit.pivot_of_nil, hsplit'.pivot_of_nil]
  · exact hk
  · exact hk

/-- The ways to derive a node, given by their children. -/
inductive Way (p : Prepared α) (tokens : Array α) : Identity → List Identity → Prop where
  | rule {A : Nonterminal} {id : RuleId} {i k j : Nat} :
      id ∈ p.rulesFor A → p.SplitsAt tokens (p.rule id).rhs i k j →
      Way p tokens ⟨.symbol (.nonterminal A), i, j⟩
        (splitKey (p.states.completed id (p.rule id).rhs.length) (p.rule id).rhs i k j)
  | part {slot : StateId} {id : RuleId} {before after : List Symbol} {i k j : Nat} :
      p.AtDot slot id before after → 2 ≤ before.length → after ≠ [] → p.SplitsAt tokens before i k j →
      Way p tokens ⟨.state slot, i, j⟩ (splitKey slot before i k j)

/-- The label of a node derives its extent. A state stands for two symbols at least, and not for a whole rule. -/
def Derived (p : Prepared α) (tokens : Array α) (x : Identity) : Prop :=
  match x.label with
  | .symbol symbol => p.DerivesSpan tokens [symbol] x.left x.right
  | .state slot    => ∃ id before after, p.AtDot slot id before after ∧ 2 ≤ before.length ∧ after ≠ [] ∧
      p.DerivesSpan tokens before x.left x.right

/-! ## Ways -/

theorem Way.of_atDot (hdot : p.AtDot slot id before after) (hid : id ∈ p.rulesFor (p.rule id).lhs)
    (hown : HasOwnNode before after) (hsplit : p.SplitsAt tokens before i k j) :
    Way p tokens (partIdentity p slot id before after i j) (splitKey slot before i k j) := by
  rcases hown.identity_cases p slot id i j with ⟨rfl, hidentity⟩ | ⟨htwo, hne, hidentity⟩
  · have hrhs : (p.rule id).rhs = before := by rw [hdot.rhs_eq, List.append_nil]
    have hslot : slot = p.states.completed id (p.rule id).rhs.length := by rw [hrhs, hdot.slot_eq]; rfl
    rw [hidentity, hslot]
    rw [← hrhs] at hsplit ⊢
    exact .rule hid hsplit
  · rw [hidentity]
    exact .part hdot htwo hne hsplit

theorem derived_partLabel (hdot : p.AtDot slot id before after) (hne : before ≠ []) (hafter : after ≠ [])
    (h : p.DerivesSpan tokens before i j) : Derived p tokens ⟨partLabel slot before, i, j⟩ := by
  match before, hne with
  | [_], _         => exact h
  | _ :: _ :: _, _ => exact ⟨id, _, _, hdot, by simp, hafter, h⟩

theorem Derived.le {x : Identity} (h : Derived p tokens x) : x.left ≤ x.right := by
  obtain ⟨label, left, right⟩ := x
  cases label with
  | symbol symbol =>
    have hderives : p.DerivesSpan tokens [symbol] left right := h
    exact hderives.le
  | state slot =>
    obtain ⟨id, before, after, -, -, -, hderives⟩ := h
    exact hderives.le

/-- Something of the input is derived by a node that has a way. -/
theorem Way.derived (hp : p.Regular) {x : Identity} {key : List Identity} (h : Way p tokens x key) :
    Derived p tokens x := by
  cases h with
  | rule hid hsplit => exact .single (hp.hasRule_of_mem hid) hsplit.derives
  | part hdot htwo hne hsplit => exact ⟨_, _, _, hdot, htwo, hne, hsplit.derives⟩

namespace NodeTable

variable {t t' : NodeTable}

/-- The table has only nodes that are derived, and only families that are ways to derive them. -/
structure Faithful (t : NodeTable) (p : Prepared α) (tokens : Array α) : Prop where
  consistent : t.Consistent
  derived : ∀ {x}, t.Has x → Derived p tokens x
  way : ∀ {x key}, t.HasFamily x key → Way p tokens x key

theorem Faithful.adds {nodes : Identity → Prop} {families : Identity → List Identity → Prop}
    (h : t.Faithful p tokens) (hadds : Adds t t' nodes families) (hnodes : ∀ x, nodes x → Derived p tokens x)
    (hfamilies : ∀ x key, families x key → Way p tokens x key) : t'.Faithful p tokens where
  consistent := hadds.consistent
  derived hx := (hadds.has.mp hx).elim h.derived (hnodes _)
  way hx := (hadds.hasFamily.mp hx).elim h.way (hfamilies _ _)

end NodeTable
end ContextFree
