-- SUMMARY: The derivation trees of nodes: what they are made of, what determines them, and how many there are.
import ContextFree.Derivation.Trees
import ContextFree.Proofs.Splits
import ContextFree.Proofs.Forest.Alike
import Mathlib.Data.Set.Card

/-!
# Derivation trees of nodes

A node stands for one symbol, or for the symbols of a rule before a position. A derivation of it is a list of trees, one
for each of these symbols, that cover its extent. The list determines the rule and the pivot, and falls apart into
derivations of the children: so the number of derivations of a node is the sum, over the ways to derive it, of the products
of the numbers for the children.
-/
namespace ContextFree

/-! ## Covering -/

namespace Covers

variable {lengths : TerminalId → Nat → Nat} {rules : RuleId → Option Rule} {trees trees' : List DerivationTree}
  {symbols symbols' left right : List Symbol} {i k j : Nat}

theorem append (h : Covers lengths rules trees symbols i k) (h' : Covers lengths rules trees' symbols' k j) :
    Covers lengths rules (trees ++ trees') (symbols ++ symbols') i j := by
  induction h with
  | nil i => exact h'
  | leaf hpos _ ih => exact .leaf hpos (ih h')
  | node hrule hchildren _ _ ih => exact .node hrule hchildren (ih h')

theorem of_append (h : Covers lengths rules trees (left ++ right) i j) :
    ∃ k before after, trees = before ++ after ∧ Covers lengths rules before left i k ∧
      Covers lengths rules after right k j := by
  induction left generalizing trees i with
  | nil => exact ⟨i, [], trees, rfl, .nil i, h⟩
  | cons symbol left ih =>
    cases h with
    | leaf hpos hrest =>
      obtain ⟨k, before, after, rfl, hbefore, hafter⟩ := ih hrest
      exact ⟨k, _, after, rfl, .leaf hpos hbefore, hafter⟩
    | node hrule hchildren hrest =>
      obtain ⟨k, before, after, rfl, hbefore, hafter⟩ := ih hrest
      exact ⟨k, _, after, rfl, .node hrule hchildren hbefore, hafter⟩

theorem length_eq (h : Covers lengths rules trees symbols i j) : trees.length = symbols.length := by
  induction h with
  | nil => rfl
  | leaf _ _ ih => rw [List.length_cons, List.length_cons, ih]
  | node _ _ _ _ ih => rw [List.length_cons, List.length_cons, ih]

/-- Trees and the position where they begin determine what they derive and where they end. -/
theorem unique (h : Covers lengths rules trees symbols i j) {j' : Nat}
    (h' : Covers lengths rules trees symbols' i j') : symbols = symbols' ∧ j = j' := by
  induction h generalizing symbols' j' with
  | nil =>
    cases h'
    exact ⟨rfl, rfl⟩
  | leaf _ _ ih =>
    cases h' with
    | leaf _ hrest =>
      obtain ⟨rfl, hstop⟩ := ih hrest
      exact ⟨rfl, hstop⟩
  | node hrule _ _ ihChildren ih =>
    cases h' with
    | node hrule' hchildren hrest =>
      cases hrule.symm.trans hrule'
      obtain ⟨-, rfl⟩ := ihChildren hchildren
      obtain ⟨rfl, hstop⟩ := ih hrest
      exact ⟨rfl, hstop⟩

end Covers

/-! ## Counting lists -/

section Counting

variable {ι β : Type}

/-- A union over a list of sets that have nothing in common. -/
theorem encard_exists_mem {S : ι → Set β} {xs : List ι} (hnodup : xs.Nodup)
    (hdisjoint : ∀ x ∈ xs, ∀ y ∈ xs, ∀ b, b ∈ S x → b ∈ S y → x = y) :
    {b | ∃ x ∈ xs, b ∈ S x}.encard = (xs.map fun x => (S x).encard).sum := by
  induction xs with
  | nil => simp
  | cons x xs ih =>
    obtain ⟨hx, hnodup⟩ := List.nodup_cons.mp hnodup
    have hunion : {b | ∃ y ∈ x :: xs, b ∈ S y} = S x ∪ {b | ∃ y ∈ xs, b ∈ S y} := by
      ext b
      simp
    have hrest : Disjoint (S x) {b | ∃ y ∈ xs, b ∈ S y} := by
      rw [Set.disjoint_left]
      rintro b hb ⟨y, hy, hby⟩
      exact hx (hdisjoint x List.mem_cons_self y (List.mem_cons_of_mem x hy) b hb hby ▸ hy)
    rw [hunion, Set.encard_union_eq hrest, List.map_cons, List.sum_cons, ih hnodup]
    exact fun y hy z hz => hdisjoint y (List.mem_cons_of_mem x hy) z (List.mem_cons_of_mem x hz)

/-- Lists with one member from each set of a list. -/
theorem encard_forall₂ (S : ι → Set β) (xs : List ι) :
    {bs | List.Forall₂ (fun x b => b ∈ S x) xs bs}.encard = (xs.map fun x => (S x).encard).prod := by
  induction xs with
  | nil => simp
  | cons x xs ih =>
    have himage : {bs | List.Forall₂ (fun x b => b ∈ S x) (x :: xs) bs} =
        (fun pair : β × List β => pair.1 :: pair.2) '' S x ×ˢ {bs | List.Forall₂ (fun x b => b ∈ S x) xs bs} := by
      ext bs
      simp only [List.forall₂_cons_left_iff, Set.mem_ofPred_eq, Set.mem_image, Set.mem_prod, Prod.exists]
      exact ⟨fun ⟨b, rest, hb, hrest, heq⟩ => ⟨b, rest, ⟨hb, hrest⟩, heq.symm⟩,
        fun ⟨b, rest, ⟨hb, hrest⟩, heq⟩ => ⟨b, rest, hb, hrest, heq.symm⟩⟩
    have hinjective : Function.Injective fun pair : β × List β => pair.1 :: pair.2 := by
      rintro ⟨b, bs⟩ ⟨c, cs⟩ heq
      simpa using heq
    rw [himage, hinjective.encard_image, Set.encard_prod, ih, List.map_cons, List.prod_cons]

/-- Lists of known lengths can be told apart in their concatenation. -/
theorem eq_of_flatten_eq {length : ι → Nat} {xs : List ι} {parts parts' : List (List β)}
    (h : List.Forall₂ (fun x part => part.length = length x) xs parts)
    (h' : List.Forall₂ (fun x part => part.length = length x) xs parts') (heq : parts.flatten = parts'.flatten) :
    parts = parts' := by
  induction h generalizing parts' with
  | nil =>
    cases h'
    rfl
  | cons hpart _ ih =>
    cases h' with
    | cons hpart' hrest =>
      obtain ⟨rfl, hflatten⟩ := List.append_inj heq (hpart.trans hpart'.symm)
      rw [ih hrest hflatten]

end Counting

/-! ## Trees of nodes -/

variable {α : Type} {p : Prepared α} {slot : StateId} {id : RuleId} {before after : List Symbol} {x y : Identity}
  {key : List Identity} {i k j : Nat} {trees : List DerivationTree}

namespace Prepared

/-- The symbols that a label stands for: itself, or the symbols before the dot of a state. -/
def symbolsOf (p : Prepared α) : Label → List Symbol
  | .symbol symbol => [symbol]
  | .state slot    => (p.rule (p.state slot).rule).rhs.take (p.state slot).dot

theorem AtDot.symbolsOf (hp : p.Regular) (h : p.AtDot slot id before after) : p.symbolsOf (.state slot) = before := by
  rw [Prepared.symbolsOf, h.rule_eq hp, h.dot_eq hp, h.rhs_eq, List.take_left]

theorem symbolsOf_partLabel (hp : p.Regular) (h : p.AtDot slot id before after) :
    p.symbolsOf (partLabel slot before) = before := by
  match before with
  | []          => exact h.symbolsOf hp
  | [_]         => rfl
  | _ :: _ :: _ => exact h.symbolsOf hp

/-- The position before the last symbol that the dot has passed. -/
theorem AtDot.back {symbol : Symbol} (h : p.AtDot slot id (before ++ [symbol]) after) :
    ∃ previous, slot = previous + 1 ∧ p.AtDot previous id before (symbol :: after) := by
  refine ⟨p.states.initial id + before.length, h.slot_eq.trans (by simp [Nat.add_assoc]), h.lt, rfl, ?_⟩
  rw [h.rhs_eq, List.append_assoc, List.singleton_append]

variable [DecidableEq α] {tokens : Array α}

/-- A split over the last of several symbols is one in two. -/
theorem SplitsAt.of_append {symbol : Symbol} (h : p.SplitsAt tokens (before ++ [symbol]) i k j) :
    p.DerivesSpan tokens before i k ∧ p.DerivesSpan tokens [symbol] k j := by
  generalize hsymbols : before ++ [symbol] = symbols at h
  cases h with
  | nothing => simp at hsymbols
  | last hbefore hlast =>
    obtain ⟨rfl, heq⟩ := List.append_inj' hsymbols rfl
    cases heq
    exact ⟨hbefore, hlast⟩

theorem SplitsAt.pivot_eq {symbol : Symbol} (h : p.SplitsAt tokens (before ++ [symbol]) i k j) (hnil : before = []) :
    k = i := by
  subst hnil
  cases h.of_append.1
  rfl

/-- The trees derive the symbols from `i` to `j` by the closed rules. -/
def CoversSpan (p : Prepared α) (tokens : Array α) (trees : List DerivationTree) (symbols : List Symbol) (i j : Nat) :
    Prop :=
  Covers (fun t position => p.matchLength t tokens position) (fun id => p.grammar.rules[id]?) trees symbols i j

/-- The derivations of a node. -/
def treesOf (p : Prepared α) (tokens : Array α) (x : Identity) : Set (List DerivationTree) :=
  {trees | p.CoversSpan tokens trees (p.symbolsOf x.label) x.left x.right}

/-- The derivations of nodes one after the other. -/
def treesOfAll (p : Prepared α) (tokens : Array α) (key : List Identity) : Set (List DerivationTree) :=
  List.flatten '' {parts | List.Forall₂ (fun y part => part ∈ p.treesOf tokens y) key parts}

theorem exists_covers_iff {symbols : List Symbol} :
    (∃ trees, p.CoversSpan tokens trees symbols i j) ↔ p.DerivesSpan tokens symbols i j := by
  have hrules : p.grammar.HasRule = fun rule => ∃ id : RuleId, p.grammar.rules[id]? = some rule := by
    funext rule
    exact propext Array.mem_iff_getElem?
  rw [DerivesSpan, hrules]
  exact ⟨fun ⟨_, h⟩ => h.derives, fun h => h.covers⟩

/-- A node that is derived has a derivation. -/
theorem nonempty_treesOf (hp : p.Regular) (h : Derived p tokens x) : (p.treesOf tokens x).Nonempty := by
  obtain ⟨label, left, right⟩ := x
  cases label with
  | symbol symbol => exact exists_covers_iff.mpr h
  | state slot =>
    obtain ⟨id, before, after, hdot, -, -, hderives⟩ := h
    obtain ⟨trees, htrees⟩ := exists_covers_iff.mpr hderives
    refine ⟨trees, ?_⟩
    rw [treesOf, Set.mem_ofPred_eq, hdot.symbolsOf hp]
    exact htrees

/-- The number of derivations of nodes one after the other is the product of their numbers. -/
theorem encard_treesOfAll (p : Prepared α) (tokens : Array α) (key : List Identity) :
    (p.treesOfAll tokens key).encard = (key.map fun y => (p.treesOf tokens y).encard).prod := by
  have hlengths : ∀ {parts}, List.Forall₂ (fun y part => part ∈ p.treesOf tokens y) key parts →
      List.Forall₂ (fun y (part : List DerivationTree) => part.length = (p.symbolsOf y.label).length) key parts :=
    fun h => h.imp fun _ _ hpart => Covers.length_eq hpart
  have hinjective : Set.InjOn List.flatten {parts | List.Forall₂ (fun y part => part ∈ p.treesOf tokens y) key parts} :=
    fun parts hparts parts' hparts' heq => eq_of_flatten_eq (hlengths hparts) (hlengths hparts') heq
  rw [treesOfAll, hinjective.encard_image, encard_forall₂]

@[simp] theorem treesOfAll_nil (p : Prepared α) (tokens : Array α) : p.treesOfAll tokens [] = {[]} := by
  ext trees
  simp [treesOfAll]

theorem mem_treesOfAll_singleton : trees ∈ p.treesOfAll tokens [x] ↔ trees ∈ p.treesOf tokens x := by
  constructor
  · rintro ⟨parts, hparts, rfl⟩
    cases hparts with
    | cons hpart hrest =>
      cases hrest
      simpa using hpart
  · intro htrees
    exact ⟨[trees], .cons htrees .nil, by simp⟩

theorem mem_treesOfAll_pair : trees ∈ p.treesOfAll tokens [x, y] ↔
    ∃ left ∈ p.treesOf tokens x, ∃ right ∈ p.treesOf tokens y, trees = left ++ right := by
  constructor
  · rintro ⟨parts, hparts, rfl⟩
    cases hparts with
    | cons hleft hrest =>
      cases hrest with
      | cons hright hrest =>
        cases hrest
        exact ⟨_, hleft, _, hright, by simp⟩
  · rintro ⟨left, hleft, right, hright, rfl⟩
    exact ⟨[left, right], .cons hleft (.cons hright .nil), by simp⟩

/-! ## Splits -/

/-- A split of the symbols before a position is derived by the trees of the symbols before the last one, and those of the
last one. -/
theorem mem_treesOfAll_splitKey (hp : p.Regular) {symbol : Symbol} (hdot : p.AtDot slot id before (symbol :: after))
    (hk : before = [] → k = i) :
    trees ∈ p.treesOfAll tokens (splitKey (slot + 1) (before ++ [symbol]) i k j) ↔
      ∃ left right, trees = left ++ right ∧ p.CoversSpan tokens left before i k ∧
        p.CoversSpan tokens right [symbol] k j := by
  by_cases hne : before = []
  · subst hne
    obtain rfl := hk rfl
    rw [List.nil_append, splitKey, mem_treesOfAll_singleton]
    constructor
    · exact fun htrees => ⟨[], trees, rfl, .nil k, htrees⟩
    · rintro ⟨left, right, rfl, hleft, hright⟩
      cases hleft
      exact hright
  · rw [splitKey_append hne, mem_treesOfAll_pair]
    have hpart : ∀ {left}, left ∈ p.treesOf tokens ⟨partLabel slot before, i, k⟩ ↔
        p.CoversSpan tokens left before i k := by
      intro left
      rw [treesOf, Set.mem_ofPred_eq, symbolsOf_partLabel hp hdot]
    constructor
    · rintro ⟨left, hleft, right, hright, rfl⟩
      exact ⟨left, right, rfl, hpart.mp hleft, hright⟩
    · rintro ⟨left, right, rfl, hleft, hright⟩
      exact ⟨left, hpart.mpr hleft, right, hright, rfl⟩

/-- What the symbols before a position derive, they derive by a split, with trees of its children. -/
theorem coversSpan_iff (hp : p.Regular) (hdot : p.AtDot slot id before after) :
    p.CoversSpan tokens trees before i j ↔
      ∃ k, p.SplitsAt tokens before i k j ∧ trees ∈ p.treesOfAll tokens (splitKey slot before i k j) := by
  rcases List.eq_nil_or_concat before with rfl | ⟨init, symbol, rfl⟩
  · constructor
    · intro h
      cases h
      exact ⟨i, .nothing i, by simp [splitKey]⟩
    · rintro ⟨k, hsplit, htrees⟩
      obtain rfl : trees = [] := by simpa [splitKey] using htrees
      generalize hnil : ([] : List Symbol) = symbols at hsplit
      cases hsplit with
      | nothing => exact .nil i
      | last => simp at hnil
  · rw [List.concat_eq_append] at hdot ⊢
    obtain ⟨previous, rfl, hprevious⟩ := hdot.back
    constructor
    · intro h
      obtain ⟨k, left, right, rfl, hleft, hright⟩ := Covers.of_append h
      have hsplit : p.SplitsAt tokens (init ++ [symbol]) i k j :=
        .last (exists_covers_iff.mp ⟨left, hleft⟩) (exists_covers_iff.mp ⟨right, hright⟩)
      exact ⟨k, hsplit, (mem_treesOfAll_splitKey hp hprevious hsplit.pivot_eq).mpr ⟨left, right, rfl, hleft, hright⟩⟩
    · rintro ⟨k, hsplit, htrees⟩
      obtain ⟨left, right, rfl, hleft, hright⟩ := (mem_treesOfAll_splitKey hp hprevious hsplit.pivot_eq).mp htrees
      exact Covers.append hleft hright

/-- The trees of a split tell its pivot. -/
theorem pivot_unique (hp : p.Regular) (hdot : p.AtDot slot id before after) {k' : Nat}
    (hsplit : p.SplitsAt tokens before i k j) (hsplit' : p.SplitsAt tokens before i k' j)
    (htrees : trees ∈ p.treesOfAll tokens (splitKey slot before i k j))
    (htrees' : trees ∈ p.treesOfAll tokens (splitKey slot before i k' j)) : k = k' := by
  rcases List.eq_nil_or_concat before with rfl | ⟨init, symbol, rfl⟩
  · rw [hsplit.pivot_of_nil, hsplit'.pivot_of_nil]
  · rw [List.concat_eq_append] at *
    obtain ⟨previous, rfl, hprevious⟩ := hdot.back
    obtain ⟨left, right, rfl, hleft, -⟩ := (mem_treesOfAll_splitKey hp hprevious hsplit.pivot_eq).mp htrees
    obtain ⟨left', right', heq, hleft', -⟩ := (mem_treesOfAll_splitKey hp hprevious hsplit'.pivot_eq).mp htrees'
    obtain ⟨rfl, -⟩ := List.append_inj heq (Covers.length_eq hleft |>.trans (Covers.length_eq hleft').symm)
    exact (Covers.unique hleft hleft').2

/-! ## The derivations of a node -/

/-- The children of a split of a whole rule. -/
def ruleKey (p : Prepared α) (i j : Nat) (way : RuleId × Nat) : List Identity :=
  splitKey (p.states.completed way.1 (p.rule way.1).rhs.length) (p.rule way.1).rhs i way.2 j

/-- A derivation of a nonterminal is a node over derivations of the children of a split of one of its rules. -/
theorem mem_treesOf_nonterminal (hp : p.Regular) {A : Nonterminal} :
    trees ∈ p.treesOf tokens ⟨.symbol (.nonterminal A), i, j⟩ ↔
      ∃ way : RuleId × Nat, (way.1 ∈ p.rulesFor A ∧ p.SplitsAt tokens (p.rule way.1).rhs i way.2 j) ∧
        trees ∈ (fun children => [.node way.1 children]) '' p.treesOfAll tokens (p.ruleKey i j way) := by
  constructor
  · intro h
    have hcovers : p.CoversSpan tokens trees [.nonterminal A] i j := h
    cases hcovers with
    | @node id A body _ children _ _ k _ hrule hchildren hrest =>
      cases hrest
      obtain ⟨hlt, hget⟩ := Array.getElem?_eq_some_iff.mp hrule
      have hrule : p.rule id = ⟨A, body⟩ := by
        rw [Prepared.rule, Grammar.rule, Array.getD_eq_getD_getElem?, Array.getElem?_eq_getElem hlt, hget]
        rfl
      have hcovers : p.CoversSpan tokens children (p.rule id).rhs i j := by
        rw [hrule]
        exact hchildren
      have hmem := hp.mem_rulesFor_of_derives hlt (exists_covers_iff.mp ⟨children, hcovers⟩)
      rw [hrule] at hmem
      obtain ⟨k, hsplit, htrees⟩ := (coversSpan_iff hp (atDot_completed hlt)).mp hcovers
      exact ⟨(id, k), ⟨hmem, hsplit⟩, children, htrees, rfl⟩
  · rintro ⟨⟨id, k⟩, ⟨hmem, hsplit⟩, children, hchildren, rfl⟩
    obtain ⟨hlt, -, rfl⟩ := hp.mem_rulesFor.mp hmem
    have hcovers := (coversSpan_iff hp (atDot_completed hlt)).mpr ⟨k, hsplit, hchildren⟩
    refine Covers.node ?_ hcovers (.nil j)
    rw [Prepared.rule, Grammar.rule, Array.getD_eq_getD_getElem?, Array.getElem?_eq_getElem hlt]
    rfl

theorem mem_treesOf_state (hp : p.Regular) (hdot : p.AtDot slot id before after) :
    trees ∈ p.treesOf tokens ⟨.state slot, i, j⟩ ↔
      ∃ k, p.SplitsAt tokens before i k j ∧ trees ∈ p.treesOfAll tokens (splitKey slot before i k j) := by
  rw [treesOf, Set.mem_ofPred_eq, hdot.symbolsOf hp]
  exact coversSpan_iff hp hdot

theorem treesOf_terminal {t : TerminalId} (h : Derived p tokens ⟨.symbol (.terminal t), i, j⟩) :
    p.treesOf tokens ⟨.symbol (.terminal t), i, j⟩ = {[.leaf t]} := by
  have hlength : 0 < p.matchLength t tokens i ∧ j = i + p.matchLength t tokens i := by
    have hderives : p.DerivesSpan tokens [.terminal t] i j := h
    cases hderives with
    | terminal hpos hrest =>
      cases hrest
      exact ⟨hpos, rfl⟩
  ext trees
  constructor
  · intro htrees
    have hcovers : p.CoversSpan tokens trees [.terminal t] i j := htrees
    cases hcovers with
    | leaf _ hrest =>
      cases hrest
      rfl
  · rintro rfl
    obtain ⟨hpos, rfl⟩ := hlength
    exact Covers.leaf hpos (.nil _)

/-- The number of derivations of a nonterminal, given all ways to derive it. -/
theorem encard_treesOf_nonterminal (hp : p.Regular) {A : Nonterminal} {ways : List (RuleId × Nat)}
    (hnodup : ways.Nodup)
    (hways : ∀ rule k, (rule, k) ∈ ways ↔ rule ∈ p.rulesFor A ∧ p.SplitsAt tokens (p.rule rule).rhs i k j) :
    (p.treesOf tokens ⟨.symbol (.nonterminal A), i, j⟩).encard =
      (ways.map fun way => ((p.ruleKey i j way).map fun y => (p.treesOf tokens y).encard).prod).sum := by
  have hset : p.treesOf tokens ⟨.symbol (.nonterminal A), i, j⟩ = {trees | ∃ way ∈ ways,
      trees ∈ (fun children => [.node way.1 children]) '' p.treesOfAll tokens (p.ruleKey i j way)} := by
    ext trees
    rw [mem_treesOf_nonterminal hp]
    exact exists_congr fun way => and_congr_left' (hways way.1 way.2).symm
  have hinjective : ∀ rule : RuleId, Function.Injective fun children => [DerivationTree.node rule children] := by
    intro rule children children' heq
    simpa using heq
  rw [hset, encard_exists_mem hnodup]
  · simp only [(hinjective _).encard_image, encard_treesOfAll]
  · rintro ⟨rule, k⟩ hway ⟨rule', k'⟩ hway' trees ⟨children, hchildren, rfl⟩ ⟨children', hchildren', heq⟩
    obtain ⟨rfl, rfl⟩ : rule' = rule ∧ children' = children := by simpa using heq
    obtain ⟨hmem, hsplit⟩ := (hways _ _).mp hway
    have hdot := atDot_completed (hp.mem_rulesFor.mp hmem).1
    rw [pivot_unique hp hdot hsplit ((hways _ _).mp hway').2 hchildren hchildren']

/-- The number of derivations of the symbols before a dot, given all ways to split them. -/
theorem encard_treesOf_state (hp : p.Regular) (hdot : p.AtDot slot id before after) {pivots : List Nat}
    (hnodup : pivots.Nodup) (hpivots : ∀ k, k ∈ pivots ↔ p.SplitsAt tokens before i k j) :
    (p.treesOf tokens ⟨.state slot, i, j⟩).encard =
      (pivots.map fun k => ((splitKey slot before i k j).map fun y => (p.treesOf tokens y).encard).prod).sum := by
  have hset : p.treesOf tokens ⟨.state slot, i, j⟩ =
      {trees | ∃ k ∈ pivots, trees ∈ p.treesOfAll tokens (splitKey slot before i k j)} := by
    ext trees
    rw [mem_treesOf_state hp hdot]
    exact exists_congr fun k => and_congr_left' (hpivots k).symm
  rw [hset, encard_exists_mem hnodup]
  · simp only [encard_treesOfAll]
  · intro k hk k' hk' trees htrees htrees'
    exact pivot_unique hp hdot ((hpivots k).mp hk) ((hpivots k').mp hk') htrees htrees'

/-! ## Larger and smaller derivations -/

theorem sizeOf_append (left right : List DerivationTree) : sizeOf (left ++ right) + 1 = sizeOf left + sizeOf right := by
  induction left with
  | nil => simp [Nat.add_comm]
  | cons tree left ih =>
    simp only [List.cons_append, List.cons.sizeOf_spec]
    omega

theorem sizeOf_pos (trees : List DerivationTree) : 0 < sizeOf trees := by
  cases trees <;> simp

theorem sizeOf_le_flatten {part : List DerivationTree} {parts : List (List DerivationTree)} (h : part ∈ parts) :
    sizeOf part ≤ sizeOf parts.flatten := by
  induction parts with
  | nil => cases h
  | cons first parts ih =>
    have hsize := sizeOf_append first parts.flatten
    have hfirst := sizeOf_pos first
    have hrest := sizeOf_pos parts.flatten
    rw [List.flatten_cons]
    cases h with
    | head => omega
    | tail _ hmem =>
      have := ih hmem
      omega

/-- Both parts of a list are smaller than the list, if neither is empty. -/
theorem sizeOf_lt_append {left right : List DerivationTree} (hleft : left ≠ []) (hright : right ≠ []) :
    sizeOf left < sizeOf (left ++ right) ∧ sizeOf right < sizeOf (left ++ right) := by
  have hsize := sizeOf_append left right
  obtain ⟨tree, left, rfl⟩ := List.exists_cons_of_ne_nil hleft
  obtain ⟨tree', right, rfl⟩ := List.exists_cons_of_ne_nil hright
  have hleft := sizeOf_pos left
  have hright := sizeOf_pos right
  simp only [List.cons.sizeOf_spec] at hsize ⊢
  omega

theorem ne_nil_of_coversSpan {symbols : List Symbol} (h : p.CoversSpan tokens trees symbols i j) (hne : symbols ≠ []) :
    trees ≠ [] := by
  rintro rfl
  exact hne (List.length_eq_zero_iff.mp (Covers.length_eq h).symm)

theorem derived_of_mem_splitKey (hdot : p.AtDot slot id before after) (hsplit : p.SplitsAt tokens before i k j)
    (hy : y ∈ splitKey slot before i k j) : Derived p tokens y := by
  rcases List.eq_nil_or_concat before with rfl | ⟨init, symbol, rfl⟩
  · simp [splitKey] at hy
  · rw [List.concat_eq_append] at hdot hsplit hy
    obtain ⟨previous, rfl, hprevious⟩ := hdot.back
    obtain ⟨hinit, hlast⟩ := hsplit.of_append
    by_cases hne : init = []
    · subst hne
      obtain rfl : y = ⟨.symbol symbol, k, j⟩ := by simpa [splitKey] using hy
      exact hlast
    · rw [splitKey_append hne] at hy
      rcases List.mem_pair.mp hy with rfl | rfl
      · exact derived_partLabel hprevious hne (List.cons_ne_nil symbol after) hinit
      · exact hlast

end Prepared

open Prepared

variable [DecidableEq α] {tokens : Array α}

/-- The children of a way to derive a node are derived. -/
theorem Way.derived_child (hp : p.Regular) (h : Way p tokens x key) (hy : y ∈ key) : Derived p tokens y := by
  cases h with
  | rule hid hsplit => exact derived_of_mem_splitKey (atDot_completed (hp.mem_rulesFor.mp hid).1) hsplit hy
  | part hdot _ _ hsplit => exact derived_of_mem_splitKey hdot hsplit hy

/-- One derivation of each child, with a given one of a given child. -/
theorem Way.exists_parts (hp : p.Regular) (h : Way p tokens x key) (hy : y ∈ key) (htrees : trees ∈ p.treesOf tokens y) :
    ∃ parts, List.Forall₂ (fun y part => part ∈ p.treesOf tokens y) key parts ∧ trees ∈ parts := by
  have hsome : ∀ key, (∀ z ∈ key, Derived p tokens z) →
      ∃ parts, List.Forall₂ (fun y part => part ∈ p.treesOf tokens y) key parts := by
    intro key hderived
    induction key with
    | nil => exact ⟨[], .nil⟩
    | cons z key ih =>
      obtain ⟨part, hpart⟩ := nonempty_treesOf hp (hderived z List.mem_cons_self)
      obtain ⟨parts, hparts⟩ := ih fun z hz => hderived z (List.mem_cons_of_mem _ hz)
      exact ⟨part :: parts, .cons hpart hparts⟩
  have hderived : ∀ z ∈ key, Derived p tokens z := fun z => h.derived_child hp
  obtain ⟨before, after, rfl⟩ := List.append_of_mem hy
  obtain ⟨parts, hparts⟩ := hsome before fun z hz => hderived z (List.mem_append_left _ hz)
  obtain ⟨parts', hparts'⟩ := hsome after fun z hz => hderived z (List.mem_append_right _ (List.mem_cons_of_mem y hz))
  exact ⟨parts ++ trees :: parts', List.rel_append hparts (.cons htrees hparts'), by simp⟩

/-- A state is derived from two children, neither of which derives no symbol at all. -/
theorem Prepared.sizeOf_lt_flatten (hp : p.Regular) (hdot : p.AtDot slot id before after) (htwo : 2 ≤ before.length)
    {parts : List (List DerivationTree)}
    (hparts : List.Forall₂ (fun y part => part ∈ p.treesOf tokens y) (splitKey slot before i k j) parts)
    {part : List DerivationTree} (hpart : part ∈ parts) : sizeOf part < sizeOf parts.flatten := by
  rcases List.eq_nil_or_concat before with rfl | ⟨init, symbol, rfl⟩
  · simp at htwo
  · rw [List.concat_eq_append] at hdot htwo hparts
    obtain ⟨previous, rfl, hprevious⟩ := hdot.back
    have hne : init ≠ [] := by
      rintro rfl
      simp at htwo
    rw [splitKey_append hne] at hparts
    cases hparts with
    | @cons _ left _ _ hleft hrest =>
      cases hrest with
      | @cons _ right _ _ hright hrest =>
        cases hrest
        have hleft : p.CoversSpan tokens left (p.symbolsOf (partLabel previous init)) i k := hleft
        rw [symbolsOf_partLabel hp hprevious] at hleft
        have hright : p.CoversSpan tokens right [symbol] k j := hright
        have hlt := sizeOf_lt_append (ne_nil_of_coversSpan hleft hne) (ne_nil_of_coversSpan hright (by simp))
        rw [List.flatten_cons, List.flatten_cons, List.flatten_nil, List.append_nil]
        rcases List.mem_pair.mp hpart with rfl | rfl
        · exact hlt.1
        · exact hlt.2

/-- Every derivation of a child is part of a larger derivation of the node. -/
theorem Way.exists_larger (hp : p.Regular) (h : Way p tokens x key) (hy : y ∈ key)
    (htrees : trees ∈ p.treesOf tokens y) : ∃ larger ∈ p.treesOf tokens x, sizeOf trees < sizeOf larger := by
  obtain ⟨parts, hparts, hmem⟩ := h.exists_parts hp hy htrees
  cases h with
  | @rule A id i k j hid hsplit =>
    refine ⟨[.node id parts.flatten], (mem_treesOf_nonterminal hp).mpr ⟨(id, k), ⟨hid, hsplit⟩, ?_⟩, ?_⟩
    · exact ⟨parts.flatten, ⟨parts, hparts, rfl⟩, rfl⟩
    · have hle := sizeOf_le_flatten hmem
      simp only [List.cons.sizeOf_spec, DerivationTree.node.sizeOf_spec]
      omega
  | @part slot id before after i k j hdot htwo hne hsplit =>
    refine ⟨parts.flatten, (mem_treesOf_state hp hdot).mpr ⟨k, hsplit, parts, hparts, rfl⟩, ?_⟩
    exact sizeOf_lt_flatten hp hdot htwo hparts hmem

/-- A derivation of a node that is no terminal is made by one of the ways, of smaller derivations of the children. -/
theorem Prepared.exists_smaller (hp : p.Regular) (hderived : Derived p tokens x) (hinner : x.label.isTerminal = false)
    (htrees : trees ∈ p.treesOf tokens x) :
    ∃ key, Way p tokens x key ∧ ∀ y ∈ key, ∃ part ∈ p.treesOf tokens y, sizeOf part < sizeOf trees := by
  obtain ⟨label, i, j⟩ := x
  match label with
  | .symbol (.terminal t) => simp [Label.isTerminal, Symbol.isTerminal] at hinner
  | .symbol (.nonterminal A) =>
    obtain ⟨⟨id, k⟩, ⟨hid, hsplit⟩, _, ⟨parts, hparts, rfl⟩, rfl⟩ := (mem_treesOf_nonterminal hp).mp htrees
    refine ⟨_, .rule hid hsplit, fun y hy => ?_⟩
    obtain ⟨part, hpart, htrees⟩ := exists_of_mem_forall₂ hparts hy
    refine ⟨part, htrees, ?_⟩
    have hle := sizeOf_le_flatten hpart
    simp only [List.cons.sizeOf_spec, DerivationTree.node.sizeOf_spec]
    omega
  | .state slot =>
    obtain ⟨id, before, after, hdot, htwo, hne, -⟩ := hderived
    obtain ⟨k, hsplit, parts, hparts, rfl⟩ := (mem_treesOf_state hp hdot).mp htrees
    refine ⟨_, .part hdot htwo hne hsplit, fun y hy => ?_⟩
    obtain ⟨part, hpart, htrees⟩ := exists_of_mem_forall₂ hparts hy
    exact ⟨part, htrees, sizeOf_lt_flatten hp hdot htwo hparts hpart⟩

end ContextFree
