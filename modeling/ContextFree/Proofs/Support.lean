-- SUMMARY: Broken nonterminals derive nothing, so a rule whose body derives a span is useful.
import ContextFree.Derivation.Sentential
import ContextFree.Proofs.Rules
import ContextFree.Proofs.Saturation

/-!
# Rules that derive are useful

Preparing a grammar leaves out the rules that mention a broken nonterminal. Nothing is lost: no rule of a broken nonterminal
can be completed over any span, so a rule whose body derives some span mentions none.
-/
namespace ContextFree

variable {α : Type} {lengths : TerminalId → Nat → Nat}

/-- A symbol of a body that derives a span derives a part of it. -/
theorem Derives.exists_of_mem {rules : Rule → Prop} {A : Nonterminal} {body : List Symbol} {i j : Nat}
    (h : Derives lengths rules body i j) (hmem : Symbol.nonterminal A ∈ body) :
    ∃ inner k l, rules ⟨A, inner⟩ ∧ Derives lengths rules inner k l := by
  obtain ⟨before, after, rfl⟩ := List.append_of_mem hmem
  obtain ⟨k, _, hafter⟩ := h.of_append
  cases hafter with
  | nonterminal hrule hinner _ => exact ⟨_, _, _, hrule, hinner⟩

theorem Rule.mem_bodyNonterminals {rule : Rule} {A : Nonterminal} :
    A ∈ rule.bodyNonterminals ↔ .nonterminal A ∈ rule.rhs := by
  simp only [Rule.bodyNonterminals, List.mem_filterMap]
  constructor
  · rintro ⟨symbol, hmem, hA⟩
    rwa [← Symbol.eq_nonterminal_of_nonterminal? hA]
  · exact fun hmem => ⟨_, hmem, rfl⟩

namespace Grammar

variable {g : Grammar α}

/-- No rule of `A` derives any span. -/
def Barren (lengths : TerminalId → Nat → Nat) (g : Grammar α) (A : Nonterminal) : Prop :=
  ∀ body i j, g.HasRule ⟨A, body⟩ → ¬ Derives lengths g.HasRule body i j

theorem mentions_iff {broken : Std.TreeSet Nonterminal} {id : RuleId} :
    g.mentions broken id = true ↔ ∃ A ∈ broken, Symbol.nonterminal A ∈ (g.rule id).rhs := by
  simp only [mentions, List.any_eq_true, Rule.mem_bodyNonterminals, Std.TreeSet.contains_iff_mem, and_comm]

theorem mem_ruleless {A : Nonterminal} :
    A ∈ g.ruleless ↔ (∃ rule, g.HasRule rule ∧ .nonterminal A ∈ rule.rhs) ∧ g.rulesFor A = #[] := by
  have hused : A ∈ g.rules.toList.flatMap Rule.bodyNonterminals ↔
      ∃ rule, g.HasRule rule ∧ .nonterminal A ∈ rule.rhs := by
    simp only [List.mem_flatMap, Array.mem_toList_iff, Rule.mem_bodyNonterminals, HasRule]
  rw [ruleless, mem_foldl_insertIf, ← hused]
  constructor
  · rintro (hempty | ⟨_, hmem, hempty, rfl⟩)
    · exact absurd hempty Std.TreeSet.not_mem_emptyc
    · exact ⟨hmem, Array.isEmpty_iff.mp hempty⟩
  · exact fun ⟨hmem, hempty⟩ => .inr ⟨A, hmem, Array.isEmpty_iff.mpr hempty, rfl⟩

theorem brokenRound_eq : g.brokenRound = (g.rules.toList.foldl (fun set rule =>
    if (g.rulesFor rule.lhs).all (g.mentions set) then set.insert rule.lhs else set) ·) :=
  funext fun _ => (Array.foldl_toList _).symm

/-- The broken nonterminals are the least set of that kind: what a nonterminal has if each of its rules mentions one that has
it holds of all of them. -/
theorem brokenNonterminals_induction (hg : g.Indexed) {P : Nonterminal → Prop}
    (hstep : ∀ A, (∀ body, g.HasRule ⟨A, body⟩ → ∃ B, P B ∧ .nonterminal B ∈ body) → P A) :
    ∀ A ∈ g.brokenNonterminals, P A := by
  have hmentions : ∀ {A : Nonterminal}, (∀ id ∈ g.rulesFor A, ∃ B, P B ∧ .nonterminal B ∈ (g.rule id).rhs) → P A := by
    intro A hall
    refine hstep A fun body hrule => ?_
    obtain ⟨id, hid, heq⟩ := exists_rule_of_mem hrule
    have := hall id (hg.mem_rulesFor.mpr ⟨hid, by rw [heq]⟩)
    rwa [heq] at this
  unfold brokenNonterminals
  rw [brokenRound_eq]
  refine forall_mem_saturate (fun rule _ broken hbroken A hA => ?_) _ fun A hA => ?_
  · rcases mem_insertIf hA with hold | ⟨hall, rfl⟩
    · exact hbroken A hold
    · refine hmentions fun id hid => ?_
      obtain ⟨B, hB, hmem⟩ := mentions_iff.mp (Array.all_eq_true'.mp hall id hid)
      exact ⟨B, hbroken B hB, hmem⟩
  · refine hmentions fun id hid => ?_
    rw [(mem_ruleless.mp hA).2] at hid
    exact absurd hid (Array.not_mem_empty id)

/-- A broken nonterminal derives nothing. -/
theorem barren_of_broken (hg : g.Indexed) : ∀ A ∈ g.brokenNonterminals, Barren lengths g A := by
  refine brokenNonterminals_induction hg fun A hall body i j hrule hbody => ?_
  obtain ⟨B, hB, hmem⟩ := hall body hrule
  obtain ⟨inner, k, l, hinner, hderives⟩ := hbody.exists_of_mem hmem
  exact hB inner k l hinner hderives

/-- A rule is useful if no nonterminal of its body is broken. -/
theorem getD_usefulRules {id : RuleId} (hid : id < g.rules.size) :
    g.usefulRules.getD id false = true ↔ ∀ A, .nonterminal A ∈ (g.rule id).rhs → A ∉ g.brokenNonterminals := by
  have hnot : g.usefulRules.getD id false = !g.mentions g.brokenNonterminals id := by
    simp [usefulRules, Array.getD_eq_getD_getElem?, hid]
  rw [hnot, Bool.not_eq_true', ← Bool.not_eq_true, mentions_iff]
  exact ⟨fun h A hmem hA => h ⟨A, hA, hmem⟩, fun h ⟨A, hA, hmem⟩ => h A hmem hA⟩

/-- A rule whose body derives some span is useful. -/
theorem Indexed.useful_of_derives (hg : g.Indexed) {id : RuleId} (hid : id < g.rules.size) {rule : Rule}
    (hrule : g.rule id = rule) {i j : Nat} (h : Derives lengths g.HasRule rule.rhs i j) :
    g.usefulRules.getD id false = true := by
  subst hrule
  refine (getD_usefulRules hid).mpr fun A hmem hbroken => ?_
  obtain ⟨inner, k, l, hrule, hinner⟩ := h.exists_of_mem hmem
  exact barren_of_broken hg A hbroken inner k l hrule hinner

/-- What derives a span derives it by useful rules. -/
theorem Indexed.derives_useful_iff (hg : g.Indexed) {symbols : List Symbol} {i j : Nat} :
    Derives lengths (g.Includes g.usefulRules) symbols i j ↔ Derives lengths g.HasRule symbols i j := by
  constructor
  · apply Derives.mono
    rintro _ ⟨id, hid, _, rfl⟩
    exact rule_mem hid
  · intro h
    induction h with
    | nil i => exact .nil i
    | terminal hpos _ ih => exact .terminal hpos ih
    | nonterminal hrule hbody _ ihBody ihRest =>
      obtain ⟨id, hid, heq⟩ := exists_rule_of_mem hrule
      exact .nonterminal ⟨id, hid, hg.useful_of_derives hid heq hbody, heq⟩ ihBody ihRest

end Grammar

namespace Prepared

variable {p : Prepared α}

/-- A rule whose body derives some span is listed. -/
theorem Regular.mem_rulesFor_of_derives (hp : p.Regular) {id : RuleId} (hid : id < p.grammar.rules.size)
    {i j : Nat} (h : Derives lengths p.grammar.HasRule (p.rule id).rhs i j) :
    id ∈ p.rulesFor (p.rule id).lhs := by
  refine hp.mem_rulesFor.mpr ⟨hid, ?_, rfl⟩
  rw [hp.useful_eq]
  exact hp.indexed.useful_of_derives hid rfl h

/-- The rules that a derivation uses are listed among the useful ones. -/
theorem Regular.exists_rule_of_derives (hp : p.Regular) {A : Nonterminal} {body : List Symbol} {i j : Nat}
    (hrule : p.grammar.HasRule ⟨A, body⟩) (h : Derives lengths p.grammar.HasRule body i j) :
    ∃ id ∈ p.rulesFor A, p.rule id = ⟨A, body⟩ := by
  obtain ⟨id, hid, heq⟩ := Grammar.exists_rule_of_mem hrule
  have heq : p.rule id = ⟨A, body⟩ := heq
  have hbody : Derives lengths p.grammar.HasRule (p.rule id).rhs i j := by rw [heq]; exact h
  have hmem := hp.mem_rulesFor_of_derives hid hbody
  rw [heq] at hmem
  exact ⟨id, hmem, heq⟩

theorem Regular.hasRule_of_mem (hp : p.Regular) {A : Nonterminal} {id : RuleId} (h : id ∈ p.rulesFor A) :
    p.grammar.HasRule ⟨A, (p.rule id).rhs⟩ := by
  obtain ⟨hid, _, rfl⟩ := hp.mem_rulesFor.mp h
  exact Grammar.rule_mem hid

end Prepared
end ContextFree
