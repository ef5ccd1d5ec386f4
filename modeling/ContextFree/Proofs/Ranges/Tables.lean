-- SUMMARY: The ranges of symbols, rules and states in a grammar over its own symbols, and of nodes in a table.
import ContextFree.Proofs.DerivationTrees
import ContextFree.Proofs.Expansion

/-!
# Ranges of tables

Symbols, rules, dotted states and nodes are numbers by which tables are read. If the declarations of a grammar mention its own
symbols only, then so do its rules, every table by rule has a place for each rule, and every state is a position in the
body of a rule. A dot that moves stays in its rule.
-/
namespace ContextFree

variable {α : Type}

namespace Grammar

variable {g : Grammar α}

/-- The symbol is one that the grammar has numbered. -/
def Owns (g : Grammar α) : Symbol → Prop
  | .terminal t    => t < g.terminals.size
  | .nonterminal A => A < g.names.size

instance (g : Grammar α) : DecidablePred g.Owns
  | .terminal t    => inferInstanceAs (Decidable (t < g.terminals.size))
  | .nonterminal A => inferInstanceAs (Decidable (A < g.names.size))

/-- Rules were declared with the grammar's own symbols only. -/
def SelfContained (g : Grammar α) : Prop :=
  ∀ d ∈ g.declared, g.Owns (.nonterminal d.lhs) ∧ ∀ item ∈ d.items, g.Owns item.symbol

instance (g : Grammar α) : Decidable g.SelfContained :=
  inferInstanceAs (Decidable (∀ d ∈ g.declared, g.Owns (.nonterminal d.lhs) ∧ ∀ item ∈ d.items, g.Owns item.symbol))

theorem exists_item_of_expands {nullable : Std.TreeSet Nonterminal} {items : List RuleItem} {body : List Symbol}
    (h : Expands nullable items body) {symbol : Symbol} (hsymbol : symbol ∈ body) :
    ∃ item ∈ items, item.symbol = symbol := by
  induction h with
  | nil => cases hsymbol
  | @keep item items body _ ih =>
    rcases List.mem_cons.mp hsymbol with rfl | hrest
    · exact ⟨item, List.mem_cons_self, rfl⟩
    · obtain ⟨item', hitem, heq⟩ := ih hrest
      exact ⟨item', List.mem_cons_of_mem _ hitem, heq⟩
  | skip _ _ _ ih =>
    obtain ⟨item', hitem, heq⟩ := ih hsymbol
    exact ⟨item', List.mem_cons_of_mem _ hitem, heq⟩

/-- Closing brings no other symbols into the rules. -/
theorem SelfContained.owns_rule (h : g.SelfContained) (hexpanded : g.Expanded) (hclosed : g.closed = true) {rule : Rule}
    (hrule : rule ∈ g.rules) : g.Owns (.nonterminal rule.lhs) ∧ ∀ symbol ∈ rule.rhs, g.Owns symbol := by
  obtain ⟨d, hd, hlhs, hexpands⟩ := (hexpanded.mem_rules hclosed rule).mp hrule
  obtain ⟨hlhs', hitems⟩ := h d hd
  refine ⟨hlhs ▸ hlhs', fun symbol hsymbol => ?_⟩
  obtain ⟨item, hitem, rfl⟩ := exists_item_of_expands hexpands hsymbol
  exact hitems item hitem

theorem foldl_bound_eq {terminals : List TerminalId} {bound : Nat} (h : ∀ t ∈ terminals, t < bound) :
    terminals.foldl (fun bound t => max bound (t + 1)) bound = bound := by
  induction terminals with
  | nil => rfl
  | cons t terminals ih =>
    obtain ⟨ht, hrest⟩ := List.forall_mem_cons.mp h
    rw [List.foldl_cons, Nat.max_eq_left ht, ih hrest]

/-- The sets of terminals of a grammar have no others than its own. -/
theorem terminalBound_eq (h : ∀ rule ∈ g.rules, ∀ symbol ∈ rule.rhs, g.Owns symbol) :
    g.terminalBound = g.terminals.size := by
  refine foldl_bound_eq fun t ht => ?_
  obtain ⟨rule, hrule, hmem⟩ := List.mem_flatMap.mp ht
  obtain ⟨symbol, hsymbol, hterminal⟩ := List.mem_filterMap.mp hmem
  have hown := h rule (Array.mem_toList_iff.mp hrule) symbol hsymbol
  cases symbol with
  | terminal u => exact Option.some.inj hterminal ▸ hown
  | nonterminal A => cases hterminal

@[simp] theorem size_usefulRules (g : Grammar α) : g.usefulRules.size = g.rules.size := by
  simp [usefulRules]

end Grammar

/-! ## Sets of terminals -/

namespace Analysis

variable {g : Grammar α} {included : Array Bool} {start : Nonterminal}

theorem lt_of_mem_first {A : Nonterminal} {t : TerminalId} (h : (A, t) ∈ (compute g included start).first) :
    t < g.terminalBound := by
  refine forall_mem_saturate (P := fun a : Nonterminal × TerminalId => a.2 < g.terminalBound)
    (fun rule _ s hs a ha => ?_) _ (fun a ha => absurd ha Std.TreeSet.not_mem_emptyc) (A, t) h
  rcases mem_foldl_insertIf.mp ha with hold | ⟨u, hu, -, rfl⟩
  · exact hs a hold
  · exact List.mem_range.mp hu

theorem lt_of_mem_follow {A : Nonterminal} {t : TerminalId} (h : (A, .terminal t) ∈ (compute g included start).follow) :
    t < g.terminalBound := by
  have hall : ∀ a ∈ (compute g included start).follow, a.2 ∈ followers g.terminalBound := by
    refine forall_mem_saturate (P := fun a : Nonterminal × Follower => a.2 ∈ followers g.terminalBound)
      (fun rule _ s hs a ha => ?_) _ (fun a ha => ?_)
    · exact (followBody_within rule.rhs s a ha).elim (hs a) fun hnew => hnew.2
    · rcases mem_insert_iff.mp ha with rfl | hnone
      · exact List.mem_cons_self
      · exact absurd hnone Std.TreeSet.not_mem_emptyc
  simpa [followers] using hall _ h

end Analysis

/-! ## States -/

namespace StateTable

/-- Every state is a position in one of the rules. -/
def Covered (t : StateTable) (rules : List Rule) : Prop :=
  ∀ slot < t.size, ∃ id rule dot, rules[id]? = some rule ∧ dot ≤ rule.rhs.length ∧ slot = t.initial id + dot

theorem Covered.pushRule {t : StateTable} {rules : List Rule} (h : t.Covered rules) (hlays : t.Lays rules) (rule : Rule) :
    (t.pushRule rule).Covered (rules ++ [rule]) := by
  intro slot hslot
  have hsize : (t.pushRule rule).size = t.size + (rule.rhs.length + 1) := by
    rw [size, ← Array.length_toList, states_pushRule, statesOf_eq]
    simp [size]
  rcases Nat.lt_or_ge slot t.size with hold | hnew
  · obtain ⟨id, rule', dot, hrule, hdot, rfl⟩ := h slot hold
    have hid := (List.getElem?_eq_some_iff.mp hrule).1
    refine ⟨id, rule', dot, by rw [List.getElem?_append_left hid, hrule], hdot, ?_⟩
    rw [initial_pushRule_of_lt (hlays.size_base ▸ hid)]
  · have hinitial : (t.pushRule rule).initial t.base.size = t.size := initial_pushRule_self t rule
    refine ⟨t.base.size, rule, slot - t.size, ?_, by omega, by rw [hinitial]; omega⟩
    rw [hlays.size_base, List.getElem?_concat_length]

theorem ofRules_covered (rules : Array Rule) : (ofRules rules).Covered rules.toList := by
  have hlist : ∀ l : List Rule, (ofRules l.toArray).Covered l := by
    intro l
    induction l using List.reverseRecOn with
    | nil => exact fun slot hslot => absurd hslot (Nat.not_lt_zero slot)
    | append_singleton l rule ih =>
      have hpush : ofRules (l ++ [rule]).toArray = (ofRules l.toArray).pushRule rule := by simp [ofRules]
      rw [hpush]
      exact ih.pushRule (ofRules_lays l.toArray) rule
  exact hlist rules.toList

end StateTable

namespace Prepared

variable {p : Prepared α} {slot : StateId}

theorem Regular.exists_atDot (hp : p.Regular) (h : slot < p.states.size) : ∃ id before after, p.AtDot slot id before after := by
  rw [hp.states_eq] at h
  obtain ⟨id, rule, dot, hrule, hdot, hslot⟩ := StateTable.ofRules_covered p.grammar.rules slot h
  rw [Array.getElem?_toList] at hrule
  obtain ⟨hid, -⟩ := Array.getElem?_eq_some_iff.mp hrule
  have heq : p.rule id = rule := by
    rw [Prepared.rule, Grammar.rule, Array.getD_eq_getD_getElem?, hrule, Option.getD_some]
  refine ⟨id, rule.rhs.take dot, rule.rhs.drop dot, hid, ?_, by rw [heq, List.take_append_drop]⟩
  rw [hp.states_eq, hslot, List.length_take, Nat.min_eq_left hdot]

/-! ## The whole grammar -/

/-- Every number by which the tables of the grammar are read is in range. A dot that moves, forwards or back, stays in its
rule. -/
structure InRange (p : Prepared α) : Prop where
  start : p.grammar.Owns (.nonterminal p.start)
  rule : ∀ id < p.grammar.rules.size,
    p.grammar.Owns (.nonterminal (p.rule id).lhs) ∧ ∀ symbol ∈ (p.rule id).rhs, p.grammar.Owns symbol
  rulesFor : ∀ A, ∀ id ∈ p.rulesFor A, id < p.grammar.rules.size
  useful_size : p.useful.size = p.grammar.rules.size
  base_size : p.states.base.size = p.grammar.rules.size
  ruleFirst_size : p.analysis.ruleFirst.size = p.grammar.rules.size
  ruleNullable_size : p.analysis.ruleNullable.size = p.grammar.rules.size
  ruleFirst : ∀ id, ∀ t ∈ p.analysis.ruleFirst.getD id [], t < p.grammar.terminals.size
  first : ∀ A t, p.analysis.isFirst A t = true → t < p.grammar.terminals.size
  follow : ∀ A t, p.analysis.isFollower A (.terminal t) = true → t < p.grammar.terminals.size
  initial : ∀ id < p.grammar.rules.size, p.states.initial id < p.states.size
  completed : ∀ id < p.grammar.rules.size, p.states.completed id (p.rule id).rhs.length < p.states.size
  state : ∀ slot < p.states.size, (p.state slot).rule < p.grammar.rules.size ∧
    (p.state slot).dot ≤ (p.rule (p.state slot).rule).rhs.length ∧ p.grammar.Owns (.nonterminal (p.state slot).lhs)
  next : ∀ slot < p.states.size, ∀ symbol, (p.state slot).next = some symbol → p.grammar.Owns symbol
  previous : ∀ slot < p.states.size, ∀ symbol, (p.state slot).previous = some symbol → p.grammar.Owns symbol
  advance : ∀ slot < p.states.size, ∀ slot', p.states.advance slot = .ok slot' → slot' < p.states.size ∧
    (p.state slot').rule = (p.state slot).rule ∧ (p.state slot').dot = (p.state slot).dot + 1
  retreat : ∀ slot < p.states.size, ∀ slot', p.states.retreat slot = some slot' → slot' < p.states.size ∧
    (p.state slot').rule = (p.state slot).rule ∧ (p.state slot').dot + 1 = (p.state slot).dot

theorem advance_inside (hp : p.Regular) {slot' : StateId} (hslot : slot < p.states.size)
    (h : p.states.advance slot = .ok slot') : slot' < p.states.size ∧ (p.state slot').rule = (p.state slot).rule ∧
      (p.state slot').dot = (p.state slot).dot + 1 := by
  obtain ⟨id, before, after, hdot⟩ := hp.exists_atDot hslot
  cases after with
  | nil =>
    have hcomplete : (p.states.get slot).isComplete = true := hdot.isComplete_eq hp
    rw [StateTable.advance, hcomplete] at h
    cases h
  | cons symbol after =>
    obtain rfl := Except.ok.inj ((hdot.advance_eq hp).symm.trans h)
    have hstep := hdot.step
    refine ⟨hstep.lt_size hp, by rw [hstep.rule_eq hp, hdot.rule_eq hp], ?_⟩
    rw [hstep.dot_eq hp, hdot.dot_eq hp, List.length_append, List.length_singleton]

theorem retreat_inside (hp : p.Regular) {slot' : StateId} (hslot : slot < p.states.size)
    (h : p.states.retreat slot = some slot') : slot' < p.states.size ∧ (p.state slot').rule = (p.state slot).rule ∧
      (p.state slot').dot + 1 = (p.state slot).dot := by
  obtain ⟨id, before, after, hdot⟩ := hp.exists_atDot hslot
  rcases List.eq_nil_or_concat before with rfl | ⟨before, symbol, rfl⟩
  · have hzero : (p.states.get slot).dot = 0 := hdot.dot_eq hp
    rw [StateTable.retreat, hzero] at h
    cases h
  · rw [List.concat_eq_append] at hdot
    obtain ⟨previous, rfl, hback⟩ := hdot.back
    obtain rfl := Option.some.inj ((hdot.retreat_eq hp).symm.trans h)
    refine ⟨hback.lt_size hp, by rw [hback.rule_eq hp, hdot.rule_eq hp], ?_⟩
    rw [hback.dot_eq hp, hdot.dot_eq hp, List.length_append, List.length_singleton]

/-- Around the dot of a state stand symbols of the body of its rule. -/
theorem mem_rhs_of_next (hp : p.Regular) (hslot : slot < p.states.size) {symbol : Symbol}
    (h : (p.state slot).next = some symbol ∨ (p.state slot).previous = some symbol) :
    symbol ∈ (p.rule (p.state slot).rule).rhs := by
  obtain ⟨id, before, after, hdot⟩ := hp.exists_atDot hslot
  rw [hdot.next_eq hp, hdot.previous_eq hp] at h
  rw [hdot.rule_eq hp, hdot.rhs_eq]
  rcases h with hnext | hprevious
  · exact List.mem_append_right _ (List.mem_of_mem_head? hnext)
  · exact List.mem_append_left _ (List.mem_of_mem_getLast? hprevious)

theorem state_inside (hp : p.Regular) (hslot : slot < p.states.size) : (p.state slot).rule < p.grammar.rules.size ∧
    (p.state slot).dot ≤ (p.rule (p.state slot).rule).rhs.length ∧
    (p.state slot).lhs = (p.rule (p.state slot).rule).lhs := by
  obtain ⟨id, before, after, hdot⟩ := hp.exists_atDot hslot
  rw [hdot.rule_eq hp, hdot.dot_eq hp, hdot.lhs_eq hp, hdot.rhs_eq, List.length_append]
  exact ⟨hdot.lt, Nat.le_add_right _ _, rfl⟩

/-- A prepared grammar is closed, and its start symbol has a rule. -/
theorem Built.closed [DecidableEq α] (hp : p.Built) :
    p.grammar.closed = true ∧ ∃ id < p.grammar.rules.size, (p.rule id).lhs = p.start := by
  have hindexed := hp.regular.indexed
  obtain ⟨g, start, -, hok⟩ := hp
  unfold Prepared.ofGrammar at hok
  dsimp only at hok
  split at hok
  · cases hok
  · rename_i hne
    cases hok
    refine ⟨g.closed_close, ?_⟩
    obtain ⟨id, hid⟩ := Array.exists_mem_of_ne_empty _ (by simpa using hne)
    exact ⟨id, hindexed.mem_rulesFor.mp hid⟩

/-- A grammar that was built from its own symbols is in range when it is prepared. -/
theorem Built.inRange [DecidableEq α] (hp : p.Built) (hown : p.grammar.SelfContained) : p.InRange := by
  have hregular := hp.regular
  obtain ⟨hclosed, first, hfirst, hstart⟩ := hp.closed
  have hrule : ∀ id < p.grammar.rules.size,
      p.grammar.Owns (.nonterminal (p.rule id).lhs) ∧ ∀ symbol ∈ (p.rule id).rhs, p.grammar.Owns symbol :=
    fun id hid => hown.owns_rule hp.grammar_built.expanded hclosed (Grammar.rule_mem hid)
  have hbody : ∀ slot < p.states.size, ∀ symbol ∈ (p.rule (p.state slot).rule).rhs, p.grammar.Owns symbol :=
    fun slot hslot => (hrule _ (state_inside hregular hslot).1).2
  have hbound : p.grammar.terminalBound = p.grammar.terminals.size := by
    refine Grammar.terminalBound_eq fun rule hmem => ?_
    obtain ⟨id, hid, rfl⟩ := Grammar.exists_rule_of_mem hmem
    exact (hrule id hid).2
  have hbase := (StateTable.ofRules_lays p.grammar.rules).size_base
  rw [← hregular.states_eq, Array.length_toList] at hbase
  have hfirstSize : p.analysis.ruleFirst.size = p.grammar.rules.size := by
    rw [hregular.analysis_eq]
    exact Array.size_map
  exact
    { start := hstart ▸ (hrule first hfirst).1
      rule := hrule
      rulesFor := fun A id hid => (hregular.mem_rulesFor.mp hid).1
      useful_size := by rw [hregular.useful_eq, Grammar.size_usefulRules]
      base_size := hbase
      ruleFirst_size := hfirstSize
      ruleNullable_size := by
        rw [hregular.analysis_eq]
        exact Array.size_map
      ruleFirst := fun id t ht => by
        have hid : id < p.grammar.rules.size := by
          by_contra hge
          rw [Array.getD_eq_getD_getElem?, Array.getElem?_eq_none (hfirstSize ▸ Nat.le_of_not_lt hge)] at ht
          cases ht
        rw [hregular.analysis_eq] at ht
        exact hbound ▸ ((Analysis.mem_ruleFirst_compute hid).mp ht).1
      first := fun A t ht => by
        rw [hregular.analysis_eq] at ht
        exact hbound ▸ Analysis.lt_of_mem_first (Std.TreeSet.contains_iff_mem.mp ht)
      follow := fun A t ht => by
        rw [hregular.analysis_eq] at ht
        exact hbound ▸ Analysis.lt_of_mem_follow (Std.TreeSet.contains_iff_mem.mp ht)
      initial := fun id hid => (atDot_initial hid).lt_size hregular
      completed := fun id hid => (atDot_completed hid).lt_size hregular
      state := fun slot hslot => by
        obtain ⟨hlt, hdot, hlhs⟩ := state_inside hregular hslot
        exact ⟨hlt, hdot, hlhs ▸ (hrule _ hlt).1⟩
      next := fun slot hslot symbol h => hbody slot hslot symbol (mem_rhs_of_next hregular hslot (.inl h))
      previous := fun slot hslot symbol h => hbody slot hslot symbol (mem_rhs_of_next hregular hslot (.inr h))
      advance := fun slot hslot slot' => advance_inside hregular hslot
      retreat := fun slot hslot slot' => retreat_inside hregular hslot }

/-! ## Nodes -/

/-- The label is a symbol of the grammar or one of its states. -/
def HasLabel (p : Prepared α) : Label → Prop
  | .symbol symbol => p.grammar.Owns symbol
  | .state slot    => slot < p.states.size

end Prepared

/-- What is derived has a label of the grammar. -/
theorem Derived.hasLabel [DecidableEq α] {p : Prepared α} {tokens : Array α} {x : Identity} (hp : p.Regular)
    (hrange : p.InRange) (h : Derived p tokens x) : p.HasLabel x.label := by
  obtain ⟨label, left, right⟩ := x
  match label with
  | .symbol (.terminal t) =>
    have hderives : p.DerivesSpan tokens [.terminal t] left right := h
    unfold Prepared.DerivesSpan at hderives
    cases hderives with
    | terminal hpos _ => exact (Prepared.accepts_of_matchLength_pos hpos).1
  | .symbol (.nonterminal A) =>
    have hderives : p.DerivesSpan tokens [.nonterminal A] left right := h
    unfold Prepared.DerivesSpan at hderives
    cases hderives with
    | nonterminal hrule _ _ =>
      obtain ⟨id, hid, heq⟩ := Grammar.exists_rule_of_mem hrule
      have hown := (hrange.rule id hid).1
      rwa [Prepared.rule, heq] at hown
  | .state slot =>
    obtain ⟨id, before, after, hdot, -⟩ := h
    exact hdot.lt_size hp

namespace NodeTable

variable {p : Prepared α} {t : NodeTable} {stop : Nat} {x : Identity}

/-- Lookup and families name nodes of the table. Every node has a label of the grammar, and an extent that ends by `stop`. -/
structure InRange (p : Prepared α) (stop : Nat) (t : NodeTable) : Prop where
  find_lt : ∀ x id, t.find? x = some id → id < t.size
  child_lt : ∀ id < t.size, ∀ family ∈ (t.node id).families, ∀ child ∈ family.children, child < t.size
  label : ∀ id < t.size, p.HasLabel (t.node id).label
  left_le : ∀ id < t.size, (t.node id).left ≤ (t.node id).right
  right_le : ∀ id < t.size, (t.node id).right ≤ stop

/-- All nodes end by the position. -/
def EndsBy (stop : Nat) (t : NodeTable) : Prop :=
  ∀ id < t.size, (t.node id).right ≤ stop

theorem EndsBy.intern (h : t.EndsBy stop) (hx : x.right ≤ stop) : (t.intern x).2.EndsBy stop := by
  cases hfind : t.find? x with
  | some id => rwa [intern_of_some hfind]
  | none =>
    have happended := intern_appended hfind
    intro id hid
    rcases happended.new_or_old hid with rfl | hold
    · rwa [Node.right, happended.identity_new]
    · rw [Node.right, happended.extension.identity_eq hold]
      exact h id hold

theorem EndsBy.addFamily (h : t.EndsBy stop) (id : NodeId) (family : Family) : (t.addFamily id family).EndsBy stop := by
  intro id' hid
  rw [Node.right, identity_addFamily]
  rw [size_addFamily] at hid
  exact h id' hid

theorem EndsBy.recordStep (h : t.EndsBy stop) {right : Nat} (hright : right ≤ stop) (state : StateId) (left : Nat)
    (before? : Option NodeId) (child : NodeId) : (t.recordStep p state left right before? child).2.EndsBy stop := by
  rcases t.recordStep_cases p state left right before? child with heq | ⟨label, heq⟩
  · rwa [heq]
  · rw [heq]
    have hinterned : (t.intern ⟨label, left, right⟩).2.EndsBy stop := h.intern hright
    exact hinterned.addFamily _ _

theorem Consistent.recordStep_lt (ht : t.Consistent) {child : NodeId} (hchild : child < t.size) (state : StateId)
    (left right : Nat) (before? : Option NodeId) :
    (t.recordStep p state left right before? child).1 < (t.recordStep p state left right before? child).2.size := by
  rcases t.recordStep_cases p state left right before? child with heq | ⟨label, heq⟩
  · rwa [heq]
  · rw [heq, size_addFamily]
    exact (intern_node ht _).1

/-- A table in which everything is derived is in range. -/
theorem Faithful.inRange [DecidableEq α] {tokens : Array α} (hp : p.Regular) (hrange : p.InRange)
    (h : t.Faithful p tokens) (hends : t.EndsBy stop) : t.InRange p stop where
  find_lt _ _ hfind := (h.consistent.find_iff.mp hfind).1
  child_lt _ _ _ hfamily _ hchild := h.consistent.child_lt hfamily hchild
  label id hid := Derived.hasLabel hp hrange (h.derived ⟨id, hid, rfl⟩)
  left_le id hid := Derived.le (h.derived ⟨id, hid, rfl⟩)
  right_le := hends

end NodeTable
end ContextFree
