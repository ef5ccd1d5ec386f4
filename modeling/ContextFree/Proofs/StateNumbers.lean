-- SUMMARY: The numbers of dotted states stand for the positions in rules one to one, and moving the dot keeps to its rule.
import ContextFree.Proofs.Ranges.Tables

/-!
# Numbers of dotted states

The states of the rules are laid out back to back, whatever the lengths of the rules. A number below the size of the table
stands for one position, that is, a rule and a dot in its body, and each position has one number. To move the dot is to
add one to the number or to take one away. That never leads to the states of another rule: the last state of a rule does
not advance, and the first one does not retreat.
-/
namespace ContextFree.StateTable

/-- The rule and the dot that a number stands for. -/
def position (t : StateTable) (slot : StateId) : RuleId × Nat :=
  ((t.get slot).rule, (t.get slot).dot)

/-- All positions in rules: the number of a rule, and a dot that is not behind the end of its body. -/
def positions (rules : Array Rule) : Set (RuleId × Nat) :=
  {x | ∃ rule, rules[x.1]? = some rule ∧ x.2 ≤ rule.rhs.length}

/-- The table has one number for each position in the rules, its states say what stands on either side of the dot, and its
moves lead from one position of a rule to the next one or back. -/
structure Interns (t : StateTable) (rules : Array Rule) : Prop where
  bijOn : Set.BijOn t.position (Set.Iio t.size) (positions rules)
  initial : ∀ {id rule}, rules[id]? = some rule → t.initial id < t.size ∧ t.position (t.initial id) = (id, 0)
  completed : ∀ {id rule}, rules[id]? = some rule → t.completed id rule.rhs.length < t.size ∧
    t.position (t.completed id rule.rhs.length) = (id, rule.rhs.length)
  around : ∀ {slot}, slot < t.size → ∃ rule before after, rules[(t.get slot).rule]? = some rule ∧
    rule.rhs = before ++ after ∧ before.length = (t.get slot).dot ∧ (t.get slot).lhs = rule.lhs ∧
    (t.get slot).previous = before.getLast? ∧ (t.get slot).next = after.head? ∧
    ((t.get slot).isComplete = true ↔ (t.get slot).dot = rule.rhs.length)
  /-- A complete state does not advance. -/
  stuck : ∀ {slot}, slot < t.size → (t.advance slot = .error .completedState ↔ (t.get slot).isComplete = true)
  /-- Any other state advances to the next position of its rule, and retreating leads back. -/
  advance : ∀ {slot}, slot < t.size → (t.get slot).isComplete = false → ∃ next < t.size, t.advance slot = .ok next ∧
    t.position next = ((t.get slot).rule, (t.get slot).dot + 1) ∧ (t.get next).previous = (t.get slot).next ∧
    t.retreat next = some slot
  /-- Only a dot at the start does not retreat. -/
  first : ∀ {slot}, slot < t.size → (t.retreat slot = none ↔ (t.get slot).dot = 0)
  /-- Any other dot retreats to the position before it, and advancing leads back. -/
  retreat : ∀ {slot}, slot < t.size → (t.get slot).dot ≠ 0 → ∃ last < t.size, t.retreat slot = some last ∧
    t.position last = ((t.get slot).rule, (t.get slot).dot - 1) ∧ t.advance last = .ok slot

/-! ## Positions and numbers -/

variable {rules : Array Rule} {id : RuleId} {rule : Rule} {dot : Nat} {slot : StateId}

/-- The state of a position stands as many places behind the first state of its rule as the dot says. -/
theorem get_ofRules (hrule : rules[id]? = some rule) (hdot : dot ≤ rule.rhs.length) :
    (ofRules rules).initial id + dot < (ofRules rules).size ∧
      (ofRules rules).get ((ofRules rules).initial id + dot) = dotted id rule dot := by
  rw [← Array.getElem?_toList] at hrule
  have hget := (ofRules_lays rules).get hrule hdot
  rw [Array.getElem?_toList] at hget
  refine ⟨(Array.getElem?_eq_some_iff.mp hget).1, ?_⟩
  rw [get, Array.getD_eq_getD_getElem?, hget, Option.getD_some]

theorem position_ofRules (hrule : rules[id]? = some rule) (hdot : dot ≤ rule.rhs.length) :
    (ofRules rules).position ((ofRules rules).initial id + dot) = (id, dot) := by
  rw [position, (get_ofRules hrule hdot).2]
  rfl

/-- Every number in the table is that of a position. -/
theorem exists_position (hslot : slot < (ofRules rules).size) : ∃ id rule dot, rules[id]? = some rule ∧
    dot ≤ rule.rhs.length ∧ slot = (ofRules rules).initial id + dot := by
  obtain ⟨id, rule, dot, hrule, hdot, heq⟩ := ofRules_covered rules slot hslot
  rw [Array.getElem?_toList] at hrule
  exact ⟨id, rule, dot, hrule, hdot, heq⟩

/-- Numbers and positions correspond one to one. -/
theorem bijOn_position (rules : Array Rule) :
    Set.BijOn (ofRules rules).position (Set.Iio (ofRules rules).size) (positions rules) := by
  refine ⟨fun slot hslot => ?_, fun slot hslot slot' hslot' heq => ?_, ?_⟩
  · obtain ⟨id, rule, dot, hrule, hdot, rfl⟩ := exists_position hslot
    rw [position_ofRules hrule hdot]
    exact ⟨rule, hrule, hdot⟩
  · obtain ⟨id, rule, dot, hrule, hdot, rfl⟩ := exists_position hslot
    obtain ⟨id', rule', dot', hrule', hdot', rfl⟩ := exists_position hslot'
    rw [position_ofRules hrule hdot, position_ofRules hrule' hdot'] at heq
    cases heq
    rfl
  · rintro ⟨id, dot⟩ ⟨rule, hrule, hdot⟩
    exact ⟨(ofRules rules).initial id + dot, (get_ofRules hrule hdot).1, position_ofRules hrule hdot⟩

/-! ## Symbols around the dot -/

theorem next_dotted (id : RuleId) (rule : Rule) (dot : Nat) : (dotted id rule dot).next = (rule.rhs.drop dot).head? := by
  rw [List.head?_drop]
  rfl

theorem previous_dotted (hdot : dot ≤ rule.rhs.length) :
    (dotted id rule dot).previous = (rule.rhs.take dot).getLast? := by
  cases dot with
  | zero => rfl
  | succ dot =>
    rw [List.getLast?_take, if_neg (Nat.succ_ne_zero dot), Nat.add_sub_cancel, List.getElem?_eq_getElem hdot]
    exact List.getElem?_eq_getElem hdot

theorem isComplete_dotted (hdot : dot ≤ rule.rhs.length) :
    (dotted id rule dot).isComplete = true ↔ dot = rule.rhs.length := by
  rw [Dotted.isComplete, Option.isNone_iff_eq_none, dotted, List.getElem?_eq_none_iff]
  exact ⟨Nat.le_antisymm hdot, fun heq => Nat.le_of_eq heq.symm⟩

/-! ## Moves -/

/-- A dot before the end moves to the next position of its rule, and can be moved back. -/
theorem moves_ofRules (hrule : rules[id]? = some rule) (hdot : dot < rule.rhs.length) :
    (ofRules rules).advance ((ofRules rules).initial id + dot) = .ok ((ofRules rules).initial id + (dot + 1)) ∧
      (ofRules rules).retreat ((ofRules rules).initial id + (dot + 1)) = some ((ofRules rules).initial id + dot) := by
  have hdot' := Nat.le_of_lt hdot
  have hopen : (dotted id rule dot).isComplete = false := by
    rw [← Bool.not_eq_true, isComplete_dotted hdot']
    exact Nat.ne_of_lt hdot
  constructor
  · rw [StateTable.advance, (get_ofRules hrule hdot').2, hopen, if_neg Bool.false_ne_true, Nat.add_assoc]
  · have hne : (dotted id rule (dot + 1)).dot ≠ 0 := Nat.succ_ne_zero dot
    rw [StateTable.retreat, (get_ofRules hrule hdot).2, if_neg hne, ← Nat.add_assoc, Nat.add_sub_cancel]

/-- The table of a grammar interns the positions in its rules. -/
theorem interns_rules {α : Type} (g : Grammar α) : (ofRules g.rules).Interns g.rules where
  bijOn := bijOn_position g.rules
  initial hrule := ⟨(get_ofRules hrule (Nat.zero_le _)).1, position_ofRules hrule (Nat.zero_le _)⟩
  completed hrule := ⟨(get_ofRules hrule (Nat.le_refl _)).1, position_ofRules hrule (Nat.le_refl _)⟩
  around hslot := by
    obtain ⟨id, rule, dot, hrule, hdot, rfl⟩ := exists_position hslot
    rw [(get_ofRules hrule hdot).2]
    exact ⟨rule, rule.rhs.take dot, rule.rhs.drop dot, hrule, (List.take_append_drop dot _).symm,
      List.length_take_of_le hdot, rfl, previous_dotted hdot, next_dotted id rule dot, isComplete_dotted hdot⟩
  stuck {slot} _ := by
    cases hcomplete : ((ofRules g.rules).get slot).isComplete <;> simp [StateTable.advance, hcomplete]
  advance hslot hopen := by
    obtain ⟨id, rule, dot, hrule, hdot, rfl⟩ := exists_position hslot
    rw [(get_ofRules hrule hdot).2] at hopen ⊢
    have hlt : dot < rule.rhs.length := by
      refine Nat.lt_of_le_of_ne hdot fun heq => ?_
      exact absurd ((isComplete_dotted hdot).mpr heq) (Bool.eq_false_iff.mp hopen)
    obtain ⟨hadvance, hretreat⟩ := moves_ofRules hrule hlt
    obtain ⟨hsize, hget⟩ := get_ofRules hrule hlt
    exact ⟨_, hsize, hadvance, position_ofRules hrule hlt, by rw [hget]; rfl, hretreat⟩
  first {slot} _ := by
    by_cases hdot : ((ofRules g.rules).get slot).dot = 0 <;> simp [StateTable.retreat, hdot]
  retreat hslot hne := by
    obtain ⟨id, rule, dot, hrule, hdot, rfl⟩ := exists_position hslot
    rw [(get_ofRules hrule hdot).2] at hne ⊢
    obtain ⟨dot, rfl⟩ : ∃ before, dot = before + 1 := Nat.exists_eq_succ_of_ne_zero hne
    obtain ⟨hadvance, hretreat⟩ := moves_ofRules hrule hdot
    exact ⟨_, (get_ofRules hrule (Nat.le_of_lt hdot)).1, hretreat, position_ofRules hrule (Nat.le_of_lt hdot), hadvance⟩

end ContextFree.StateTable
