-- SUMMARY: Grammars that the operations build, and what their rule lists and indexes hold.
import ContextFree.Derivation.Spans
import ContextFree.Proofs.Lookup

/-!
# Built grammars

A grammar is built if it comes from the empty one by interning, registering, declaring, setting attributes and closing. In
such a grammar no rule is listed twice, the index by left-hand side lists exactly the rules, and names tell nonterminals
apart. A prepared grammar is built if it was prepared from a built grammar; its index lists exactly the useful rules.
-/
namespace ContextFree

variable {α : Type}

/-- The grammars that the operations lead to. -/
inductive Grammar.Built [DecidableEq α] : Grammar α → Prop where
  | empty : Built .empty
  | nonterminal {g : Grammar α} (name : String) : Built g → Built (g.nonterminal name).2
  | terminal {g : Grammar α} (t : Terminal α) : Built g → Built (g.terminal t).2
  | declare {g g' : Grammar α} (lhs : Nonterminal) (items : List RuleItem) :
      Built g → g.declare lhs items = .ok g' → Built g'
  | setAttribute {g g' : Grammar α} (symbol : Symbol) (name value : String) :
      Built g → g.setAttribute symbol name value = .ok g' → Built g'
  | close {g : Grammar α} : Built g → Built g.close

/-- The prepared grammars that the operations lead to. -/
def Prepared.Built [DecidableEq α] (p : Prepared α) : Prop :=
  ∃ g start, Grammar.Built g ∧ Prepared.ofGrammar g start = .ok p

-- ---------------------------------------------------------------------------
-- Rules of a grammar
-- ---------------------------------------------------------------------------

/-- No rule is listed twice, and the index has the rules of each nonterminal in increasing order. -/
structure Grammar.Indexed (g : Grammar α) : Prop where
  nodup : g.rules.toList.Nodup
  rulesFor_eq : ∀ A, (g.rulesFor A).toList =
    (List.range g.rules.size).filter fun id => (g.rule id).lhs == A

namespace Grammar

theorem rule_push_of_lt {g : Grammar α} {rule : Rule} {id : RuleId} (h : id < g.rules.size) :
    (g.rules.push rule).getD id default = g.rule id := by
  simp [Grammar.rule, Array.getD_eq_getD_getElem?, Array.getElem?_push, Nat.ne_of_lt h]

theorem Indexed.pushRule {g : Grammar α} (h : g.Indexed) (rule : Rule) : (g.pushRule rule).Indexed := by
  unfold Grammar.pushRule
  split
  · exact h
  · rename_i hnew
    rw [Array.contains_iff_mem] at hnew
    refine ⟨?_, fun A => ?_⟩
    · rw [Array.toList_push]
      apply h.nodup.append (List.nodup_singleton rule)
      rw [List.disjoint_singleton]
      exact fun hmem => hnew (Array.mem_toList_iff.mp hmem)
    · have hold : (List.range g.rules.size).filter
            (fun id => ((g.rules.push rule).getD id default).lhs == A) = (g.rulesFor A).toList := by
        rw [h.rulesFor_eq A]
        apply List.filter_congr
        intro id hid
        rw [rule_push_of_lt (List.mem_range.mp hid)]
      have hnext : (g.rules.push rule).getD g.rules.size default = rule := by
        simp [Array.getD_eq_getD_getElem?]
      simp only [Grammar.rulesFor, Grammar.rule, getD_alter_push, Array.size_push, List.range_succ,
        List.filter_append, hold, List.filter_cons, List.filter_nil, hnext, beq_iff_eq]
      split
      · rw [Array.toList_push]
      · rw [List.append_nil]

/-- What adding a rule keeps, closing keeps. -/
theorem close_induction {P : Grammar α → Prop} (hpush : ∀ {g : Grammar α} (rule : Rule), P g → P (g.pushRule rule))
    (hclosed : ∀ {g : Grammar α}, P g → P { g with closed := true }) {g : Grammar α} (h : P g) : P g.close := by
  unfold Grammar.close
  split
  · exact h
  · have hfold : ∀ (bodies : List (List Symbol)) (lhs : Nonterminal) (g : Grammar α), P g →
        P (bodies.foldl (fun g rhs => g.pushRule ⟨lhs, rhs⟩) g) := by
      intro bodies lhs
      induction bodies with
      | nil => exact fun _ h => h
      | cons body bodies ih => exact fun _ h => ih _ (hpush _ h)
    have hall : ∀ (declarations : List Declaration) (nullable : Std.TreeSet Nonterminal) (g : Grammar α), P g →
        P (declarations.foldl (fun g d =>
          (expansions nullable d.items).foldl (fun g rhs => g.pushRule ⟨d.lhs, rhs⟩) g) g) := by
      intro declarations nullable
      induction declarations with
      | nil => exact fun _ h => h
      | cons d declarations ih => exact fun _ h => ih _ (hfold _ _ _ h)
    have hrules := hall g.declared.toList (nullableNonterminals g.declared.toList) g h
    rw [Array.foldl_toList] at hrules
    exact hclosed hrules

theorem Indexed.close {g : Grammar α} (h : g.Indexed) : g.close.Indexed :=
  close_induction (fun rule h => h.pushRule rule) (fun h => ⟨h.nodup, h.rulesFor_eq⟩) h

theorem names_pushRule (g : Grammar α) (rule : Rule) : (g.pushRule rule).names = g.names := by
  unfold Grammar.pushRule
  split <;> rfl

theorem names_close (g : Grammar α) : g.close.names = g.names :=
  close_induction (P := fun g' => g'.names = g.names) (fun rule h => (names_pushRule _ rule).trans h) (fun h => h) rfl

/-- What a property of declarations and rules needs to hold of every built grammar: names, terminals and attributes do not
matter, and only an open grammar takes declarations. -/
theorem Built.core_induction [DecidableEq α] {P : Grammar α → Prop} (hempty : P .empty)
    (hsame : ∀ {g g' : Grammar α}, P g → g'.declared = g.declared → g'.rules = g.rules → g'.byLhs = g.byLhs →
      g'.closed = g.closed → P g')
    (hdeclare : ∀ {g : Grammar α} (d : Declaration), g.closed = false → P g →
      P { g with declared := g.declared.push d })
    (hclose : ∀ {g : Grammar α}, P g → P g.close) {g : Grammar α} (h : g.Built) : P g := by
  induction h with
  | empty => exact hempty
  | nonterminal name _ ih =>
    unfold Grammar.nonterminal
    split
    · exact ih
    · exact hsame ih rfl rfl rfl rfl
  | terminal t _ ih =>
    unfold Grammar.terminal
    split
    · exact ih
    · exact hsame ih rfl rfl rfl rfl
  | declare lhs items _ hok ih =>
    unfold Grammar.declare at hok
    split at hok
    · cases hok
    · rename_i hopen
      split at hok
      · cases hok
        exact ih
      · cases hok
        exact hdeclare ⟨lhs, items⟩ (eq_false_of_ne_true hopen) ih
  | setAttribute symbol name value _ hok ih =>
    unfold Grammar.setAttribute at hok
    split at hok
    · cases hok
      exact hsame ih rfl rfl rfl rfl
    · cases hok
  | close _ ih => exact hclose ih

/-- Every built grammar is indexed. -/
theorem Built.indexed [DecidableEq α] {g : Grammar α} (h : g.Built) : g.Indexed := by
  refine h.core_induction (P := Indexed) ?_ ?_ ?_ Indexed.close
  · exact ⟨List.nodup_nil, fun A => by simp [Grammar.empty, Grammar.rulesFor]⟩
  · intro g g' hg _ hrules hindex _
    refine ⟨hrules ▸ hg.nodup, fun A => ?_⟩
    simpa only [Grammar.rulesFor, Grammar.rule, hrules, hindex] using hg.rulesFor_eq A
  · exact fun _ _ hg => ⟨hg.nodup, hg.rulesFor_eq⟩

/-- No two nonterminals of a built grammar have the same name. -/
theorem Built.nodup_names [DecidableEq α] {g : Grammar α} (h : g.Built) : g.names.toList.Nodup := by
  induction h with
  | empty => exact List.nodup_nil
  | @nonterminal g name _ ih =>
    unfold Grammar.nonterminal
    split
    · exact ih
    · rename_i hnew
      have hfresh : name ∉ g.names.toList := by
        intro hmem
        have hno := Array.findIdx?_eq_none_iff.mp hnew name (Array.mem_toList_iff.mp hmem)
        simp at hno
      rw [Array.toList_push]
      exact ih.append (List.nodup_singleton name) (List.disjoint_singleton.mpr hfresh)
  | terminal t _ ih =>
    unfold Grammar.terminal
    split <;> exact ih
  | declare lhs items _ hok ih =>
    unfold Grammar.declare at hok
    split at hok
    · cases hok
    · split at hok <;> cases hok <;> exact ih
  | setAttribute symbol name value _ hok ih =>
    unfold Grammar.setAttribute at hok
    split at hok <;> cases hok
    exact ih
  | close _ ih => rwa [names_close]

theorem Indexed.mem_rulesFor {g : Grammar α} (h : g.Indexed) {A : Nonterminal} {id : RuleId} :
    id ∈ g.rulesFor A ↔ id < g.rules.size ∧ (g.rule id).lhs = A := by
  rw [← Array.mem_toList_iff, h.rulesFor_eq, List.mem_filter, List.mem_range, beq_iff_eq]

theorem rule_mem {g : Grammar α} {id : RuleId} (hid : id < g.rules.size) : g.rule id ∈ g.rules := by
  rw [Grammar.rule, Array.getD_eq_getD_getElem?, Array.getElem?_eq_getElem hid]
  exact Array.getElem_mem hid

theorem exists_rule_of_mem {g : Grammar α} {rule : Rule} (h : rule ∈ g.rules) :
    ∃ id < g.rules.size, g.rule id = rule := by
  obtain ⟨id, hid, rfl⟩ := Array.getElem_of_mem h
  refine ⟨id, hid, ?_⟩
  rw [Grammar.rule, Array.getD_eq_getD_getElem?, Array.getElem?_eq_getElem hid, Option.getD_some]

/-- Rules are told apart by their numbers. -/
theorem Indexed.rule_injective {g : Grammar α} (h : g.Indexed) {id id' : RuleId} (hid : id < g.rules.size)
    (hid' : id' < g.rules.size) (heq : g.rule id = g.rule id') : id = id' := by
  simp only [Grammar.rule, Array.getD_eq_getD_getElem?, Array.getElem?_eq_getElem hid,
    Array.getElem?_eq_getElem hid', Option.getD_some] at heq
  have hlist : g.rules.toList[id] = g.rules.toList[id'] := by simpa using heq
  exact (List.Nodup.getElem_inj_iff h.nodup).mp hlist

end Grammar

-- ---------------------------------------------------------------------------
-- Rules of a prepared grammar
-- ---------------------------------------------------------------------------

namespace Prepared

/-- What preparing a built grammar leaves behind. -/
structure Regular (p : Prepared α) : Prop where
  indexed : p.grammar.Indexed
  useful_eq : p.useful = p.grammar.usefulRules
  byLhs_eq : p.usefulByLhs = indexUseful p.grammar p.useful
  states_eq : p.states = StateTable.ofRules p.grammar.rules
  analysis_eq : p.analysis = Analysis.compute p.grammar p.useful p.start

theorem Built.regular [DecidableEq α] {p : Prepared α} (h : p.Built) : p.Regular := by
  obtain ⟨g, start, hg, hok⟩ := h
  unfold Prepared.ofGrammar at hok
  dsimp only at hok
  split at hok
  · cases hok
  · cases hok
    exact ⟨hg.indexed.close, rfl, rfl, rfl, rfl⟩

/-- What is prepared is a closed copy of a built grammar. -/
theorem Built.grammar_built [DecidableEq α] {p : Prepared α} (h : p.Built) : p.grammar.Built := by
  obtain ⟨g, start, hg, hok⟩ := h
  unfold Prepared.ofGrammar at hok
  dsimp only at hok
  split at hok
  · cases hok
  · cases hok
    exact .close hg

theorem getD_indexUseful (g : Grammar α) (useful : Array Bool) (A : Nonterminal) :
    ((indexUseful g useful).getD A #[]).toList =
      (List.range g.rules.size).filter fun id => useful.getD id false && (g.rule id).lhs == A := by
  unfold indexUseful
  induction g.rules.size with
  | zero => simp
  | succ size ih =>
    rw [List.range_succ, List.foldl_append, List.filter_append, ← ih]
    simp only [List.foldl_cons, List.foldl_nil, List.filter_cons, List.filter_nil]
    split
    · rename_i huseful
      rw [getD_alter_push, huseful, Bool.true_and]
      simp only [beq_iff_eq]
      split
      · rw [Array.toList_push]
      · rw [List.append_nil]
    · rename_i huseful
      rw [Bool.not_eq_true] at huseful
      simp [huseful]

/-- The index of a prepared grammar lists the useful rules. -/
theorem Regular.mem_rulesFor {p : Prepared α} (h : p.Regular) {A : Nonterminal} {id : RuleId} :
    id ∈ p.rulesFor A ↔
      id < p.grammar.rules.size ∧ p.useful.getD id false = true ∧ (p.rule id).lhs = A := by
  rw [Prepared.rulesFor, h.byLhs_eq, ← Array.mem_toList_iff, getD_indexUseful, List.mem_filter,
    List.mem_range, Bool.and_eq_true, beq_iff_eq]
  rfl

theorem Regular.pairwise_rulesFor {p : Prepared α} (h : p.Regular) (A : Nonterminal) :
    (p.rulesFor A).toList.Pairwise (· < ·) := by
  rw [Prepared.rulesFor, h.byLhs_eq, getD_indexUseful]
  exact List.pairwise_lt_range.filter _

end Prepared
end ContextFree
