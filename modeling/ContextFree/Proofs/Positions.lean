-- SUMMARY: The numbers of dotted states and the positions in rules that they stand for.
import ContextFree.Proofs.Rules

/-!
# Positions in rules

Every position in the body of a rule has a state of its own. `Prepared.AtDot` says which position a state stands for: a
rule, the symbols before the dot and those after it. Moving the dot adds one to the number of the state.
-/
namespace ContextFree

variable {α : Type}

namespace StateTable

/-- A rule with the dot after its first `dot` symbols. -/
def dotted (id : RuleId) (rule : Rule) (dot : Nat) : Dotted :=
  { rule := id, lhs := rule.lhs, dot
    next := rule.rhs[dot]?
    previous := if dot = 0 then none else rule.rhs[dot - 1]? }

theorem statesOf_eq (id : RuleId) (rule : Rule) :
    statesOf id rule = (List.range (rule.rhs.length + 1)).map (dotted id rule) := rfl

/-- The table has the states of the rules, one rule after the other. -/
structure Lays (t : StateTable) (rules : List Rule) : Prop where
  size_base : t.base.size = rules.length
  get : ∀ {id : Nat} {rule : Rule} {dot : Nat}, rules[id]? = some rule → dot ≤ rule.rhs.length →
    t.states.toList[t.initial id + dot]? = some (dotted id rule dot)

theorem states_pushRule (t : StateTable) (rule : Rule) :
    (t.pushRule rule).states.toList = t.states.toList ++ statesOf t.base.size rule := by
  simp [pushRule]

theorem initial_pushRule_of_lt {t : StateTable} {rule : Rule} {id : RuleId} (h : id < t.base.size) :
    (t.pushRule rule).initial id = t.initial id := by
  simp [pushRule, initial, Array.getD_eq_getD_getElem?, Array.getElem?_push, Nat.ne_of_lt h]

theorem initial_pushRule_self (t : StateTable) (rule : Rule) :
    (t.pushRule rule).initial t.base.size = t.states.toList.length := by
  simp [pushRule, initial, Array.getD_eq_getD_getElem?]

theorem Lays.pushRule {t : StateTable} {rules : List Rule} (h : t.Lays rules) (rule : Rule) :
    (t.pushRule rule).Lays (rules ++ [rule]) := by
  have hsize := h.size_base
  refine ⟨by simp [StateTable.pushRule, hsize], ?_⟩
  intro id rule' dot hrule hdot
  rw [states_pushRule]
  rcases Nat.lt_or_ge id rules.length with hid | hid
  · rw [List.getElem?_append_left hid] at hrule
    have hold := h.get hrule hdot
    rw [initial_pushRule_of_lt (hsize ▸ hid),
      List.getElem?_append_left (List.getElem?_eq_some_iff.mp hold).1, hold]
  · rw [List.getElem?_append_right hid, List.getElem?_singleton] at hrule
    split at hrule
    · cases hrule
      obtain rfl : id = t.base.size := by omega
      have hin : dot < rule.rhs.length + 1 := by omega
      rw [initial_pushRule_self, List.getElem?_append_right (Nat.le_add_right _ _),
        Nat.add_sub_cancel_left, statesOf_eq]
      simp [hin]
    · cases hrule

theorem ofRules_lays (rules : Array Rule) : (ofRules rules).Lays rules.toList := by
  have hfold : ∀ (rest done : List Rule) (t : StateTable), t.Lays done →
      (rest.foldl StateTable.pushRule t).Lays (done ++ rest) := by
    intro rest
    induction rest with
    | nil => exact fun done t h => by simpa using h
    | cons rule rest ih =>
      intro done t h
      simpa using ih (done ++ [rule]) _ (h.pushRule rule)
  have hempty : ({} : StateTable).Lays [] :=
    ⟨rfl, fun hrule => by simp at hrule⟩
  simpa [ofRules] using hfold rules.toList [] {} hempty

end StateTable

/-! ## Positions of a prepared grammar -/

namespace Prepared

/-- The state `slot` is the position in the rule `id` after the symbols `before`, where `after` are those that remain. -/
structure AtDot (p : Prepared α) (slot : StateId) (id : RuleId) (before after : List Symbol) : Prop where
  lt : id < p.grammar.rules.size
  slot_eq : slot = p.states.initial id + before.length
  rhs_eq : (p.rule id).rhs = before ++ after

variable {p : Prepared α} {slot : StateId} {id : RuleId} {before after : List Symbol}

theorem atDot_initial (hid : id < p.grammar.rules.size) :
    p.AtDot (p.states.initial id) id [] (p.rule id).rhs :=
  ⟨hid, rfl, rfl⟩

theorem atDot_completed (hid : id < p.grammar.rules.size) :
    p.AtDot (p.states.completed id (p.rule id).rhs.length) id (p.rule id).rhs [] :=
  ⟨hid, rfl, (List.append_nil _).symm⟩

namespace AtDot

/-- The dot moves over symbols by adding their number to the state. -/
theorem move {symbols : List Symbol} (h : p.AtDot slot id before (symbols ++ after)) :
    p.AtDot (slot + symbols.length) id (before ++ symbols) after := by
  refine ⟨h.lt, ?_, ?_⟩
  · rw [h.slot_eq, List.length_append, Nat.add_assoc]
  · rw [h.rhs_eq, List.append_assoc]

theorem step {symbol : Symbol} (h : p.AtDot slot id before (symbol :: after)) :
    p.AtDot (slot + 1) id (before ++ [symbol]) after := by
  have hmove : p.AtDot slot id before ([symbol] ++ after) := h
  exact hmove.move

theorem states_get (hp : p.Regular) (h : p.AtDot slot id before after) :
    p.states.states[slot]? = some (StateTable.dotted id (p.rule id) before.length) := by
  have hrule : p.grammar.rules.toList[id]? = some (p.rule id) := by
    rw [Array.getElem?_toList, Prepared.rule, Grammar.rule, Array.getD_eq_getD_getElem?,
      Array.getElem?_eq_getElem h.lt, Option.getD_some]
  have hdot : before.length ≤ (p.rule id).rhs.length := by
    rw [h.rhs_eq, List.length_append]
    exact Nat.le_add_right _ _
  have hget := (StateTable.ofRules_lays p.grammar.rules).get hrule hdot
  rw [← hp.states_eq, Array.getElem?_toList] at hget
  rw [h.slot_eq, hget]

theorem state_eq (hp : p.Regular) (h : p.AtDot slot id before after) :
    p.state slot = StateTable.dotted id (p.rule id) before.length := by
  rw [Prepared.state, StateTable.get, Array.getD_eq_getD_getElem?, h.states_get hp, Option.getD_some]

theorem rule_eq (hp : p.Regular) (h : p.AtDot slot id before after) : (p.state slot).rule = id := by
  rw [h.state_eq hp]
  rfl

theorem lhs_eq (hp : p.Regular) (h : p.AtDot slot id before after) :
    (p.state slot).lhs = (p.rule id).lhs := by
  rw [h.state_eq hp]
  rfl

theorem dot_eq (hp : p.Regular) (h : p.AtDot slot id before after) :
    (p.state slot).dot = before.length := by
  rw [h.state_eq hp]
  rfl

theorem next_eq (hp : p.Regular) (h : p.AtDot slot id before after) :
    (p.state slot).next = after.head? := by
  rw [h.state_eq hp, StateTable.dotted, h.rhs_eq, List.getElem?_append_right (Nat.le_refl _), Nat.sub_self,
    List.head?_eq_getElem?]

theorem previous_eq (hp : p.Regular) (h : p.AtDot slot id before after) :
    (p.state slot).previous = before.getLast? := by
  rw [h.state_eq hp]
  rcases List.eq_nil_or_concat before with rfl | ⟨before, symbol, rfl⟩
  · rfl
  · simp [StateTable.dotted, h.rhs_eq]

theorem isComplete_eq (hp : p.Regular) (h : p.AtDot slot id before after) :
    (p.state slot).isComplete = after.isEmpty := by
  rw [Dotted.isComplete, h.next_eq hp]
  cases after <;> rfl

/-- A dot before a symbol can be moved over it. -/
theorem advance_eq (hp : p.Regular) {symbol : Symbol} (h : p.AtDot slot id before (symbol :: after)) :
    p.states.advance slot = .ok (slot + 1) := by
  have hcomplete : (p.states.get slot).isComplete = false := h.isComplete_eq hp
  rw [StateTable.advance, hcomplete, if_neg Bool.false_ne_true]

/-- A dot behind a symbol can be moved back over it. -/
theorem retreat_eq (hp : p.Regular) {symbol : Symbol} (h : p.AtDot (slot + 1) id (before ++ [symbol]) after) :
    p.states.retreat (slot + 1) = some slot := by
  have hdot : (p.states.get (slot + 1)).dot = (before ++ [symbol]).length := h.dot_eq hp
  rw [StateTable.retreat, hdot, if_neg (by simp), Nat.add_sub_cancel]

theorem lt_size (hp : p.Regular) (h : p.AtDot slot id before after) : slot < p.states.size :=
  (Array.getElem?_eq_some_iff.mp (h.states_get hp)).1

/-- A state stands for one position only. -/
theorem unique (hp : p.Regular) (h : p.AtDot slot id before after) {id' : RuleId}
    {before' after' : List Symbol} (h' : p.AtDot slot id' before' after') :
    id = id' ∧ before = before' ∧ after = after' := by
  have hid : id = id' := by rw [← h.rule_eq hp, ← h'.rule_eq hp]
  have hlen : before.length = before'.length := by rw [← h.dot_eq hp, ← h'.dot_eq hp]
  subst hid
  exact ⟨rfl, List.append_inj (h.rhs_eq.symm.trans h'.rhs_eq) hlen⟩

end AtDot

end Prepared
end ContextFree
