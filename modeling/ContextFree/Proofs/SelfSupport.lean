-- SUMMARY: The useful rules are the largest self-supporting set of rules, and nothing is lost without the others.
import Mathlib.Order.Bounds.Defs
import ContextFree.Proofs.Recognition

/-!
# The largest self-supporting set of rules

A set of rules supports itself if every nonterminal of its bodies has a rule in the set. That is less than being able to derive
something: `A → A` supports itself. The broken nonterminals are the least set that contains what has no rule and what
mentions a broken nonterminal in all its rules, so the rules without them are the largest set that supports itself.
-/
namespace ContextFree

variable {α : Type}

/-- Every nonterminal in the body of a rule is the left-hand side of some rule. -/
def SelfSupporting (rules : Set Rule) : Prop :=
  ∀ rule ∈ rules, ∀ A, .nonterminal A ∈ rule.rhs → ∃ rule' ∈ rules, rule'.lhs = A

namespace Grammar

variable {g : Grammar α}

/-! ## What all rules pass on -/

theorem mentions_mono {broken broken' : Std.TreeSet Nonterminal} (hsub : Sub broken broken') {id : RuleId}
    (h : g.mentions broken id = true) : g.mentions broken' id = true := by
  obtain ⟨A, hA, hmem⟩ := mentions_iff.mp h
  exact mentions_iff.mpr ⟨A, hsub A hA, hmem⟩

theorem growing_brokenVisit (rule : Rule) : Growing fun broken =>
    if (g.rulesFor rule.lhs).all (g.mentions broken) then broken.insert rule.lhs else broken := by
  refine Growing.insertIf (fun s t hsub hall => ?_) rule.lhs
  rw [Array.all_eq_true'] at hall ⊢
  exact fun id hid => mentions_mono hsub (hall id hid)

theorem growing_brokenRound : Growing g.brokenRound := by
  rw [brokenRound_eq]
  exact Growing.foldl growing_brokenVisit g.rules.toList

theorem brokenRound_closed : Sub (g.brokenRound g.brokenNonterminals) g.brokenNonterminals := by
  let space : Finset Nonterminal := members g.ruleless ∪ (g.rules.toList.map Rule.lhs).toFinset
  have hspace : ∀ s, ∀ A ∈ g.brokenRound s, A ∈ s ∨ A ∈ space := by
    rw [brokenRound_eq]
    apply foldl_within
    intro rule hrule s A hA
    refine (mem_insertIf hA).imp id fun h => Finset.mem_union_right _ ?_
    rw [List.mem_toFinset, h.2]
    exact List.mem_map_of_mem hrule
  have hcard : space.card ≤ g.ruleless.size + g.rules.size :=
    calc space.card
        ≤ (members g.ruleless).card + (g.rules.toList.map Rule.lhs).toFinset.card := Finset.card_union_le _ _
      _ ≤ g.ruleless.size + g.rules.size := by
        rw [card_members]
        simpa using List.toFinset_card_le (g.rules.toList.map Rule.lhs)
  exact saturate_closed growing_brokenRound hspace (g.rules.size + 1)
    (fun A hA => Finset.mem_union_left _ (mem_members.mpr hA)) (by omega)

/-- A nonterminal that some rule mentions is broken if each of its own rules mentions a broken one. -/
theorem Indexed.mem_brokenNonterminals (hg : g.Indexed) {rule : Rule} (hrule : g.HasRule rule) {A : Nonterminal}
    (hA : .nonterminal A ∈ rule.rhs)
    (hall : ∀ body, g.HasRule ⟨A, body⟩ → ∃ B ∈ g.brokenNonterminals, .nonterminal B ∈ body) :
    A ∈ g.brokenNonterminals := by
  by_cases hempty : g.rulesFor A = #[]
  · exact sub_saturate growing_brokenRound _ _ A (mem_ruleless.mpr ⟨⟨rule, hrule, hA⟩, hempty⟩)
  · obtain ⟨id, hid⟩ := Array.exists_mem_of_ne_empty _ hempty
    obtain ⟨hlt, rfl⟩ := hg.mem_rulesFor.mp hid
    -- The round that changes nothing visits the rule `id` of `A`, too.
    refine brokenRound_closed _ ?_
    rw [brokenRound_eq]
    refine Growing.sub_foldl growing_brokenVisit (Array.mem_toList_iff.mpr (rule_mem hlt)) _ _ ?_
    rw [if_pos]
    · exact mem_insert_iff.mpr (.inl rfl)
    · rw [Array.all_eq_true']
      intro id' hid'
      obtain ⟨hlt', hlhs⟩ := hg.mem_rulesFor.mp hid'
      exact mentions_iff.mpr (hall _ (hlhs ▸ rule_mem hlt'))

/-! ## The largest set -/

/-- The rules without broken nonterminals. -/
theorem includes_usefulRules {rule : Rule} : g.Includes g.usefulRules rule ↔
    g.HasRule rule ∧ ∀ A, .nonterminal A ∈ rule.rhs → A ∉ g.brokenNonterminals := by
  constructor
  · rintro ⟨id, hid, huseful, rfl⟩
    exact ⟨rule_mem hid, (getD_usefulRules hid).mp huseful⟩
  · rintro ⟨hrule, hwhole⟩
    obtain ⟨id, hid, rfl⟩ := exists_rule_of_mem hrule
    exact ⟨id, hid, (getD_usefulRules hid).mpr hwhole, rfl⟩

theorem Indexed.selfSupporting_usefulRules (hg : g.Indexed) : SelfSupporting {rule | g.Includes g.usefulRules rule} := by
  intro rule hrule A hA
  obtain ⟨hrule, hwhole⟩ := includes_usefulRules.mp hrule
  by_contra hnone
  refine hwhole A hA (hg.mem_brokenNonterminals hrule hA fun body hbody => ?_)
  by_contra hmentions
  refine hnone ⟨⟨A, body⟩, includes_usefulRules.mpr ⟨hbody, fun B hB hbroken => ?_⟩, rfl⟩
  exact hmentions ⟨B, hbroken, hB⟩

/-- A broken nonterminal has no rule in any set that supports itself: the rule would need another broken nonterminal that has
one. -/
theorem Indexed.not_supported_of_broken (hg : g.Indexed) {rules : Set Rule} (hrules : ∀ rule ∈ rules, g.HasRule rule)
    (hsupport : SelfSupporting rules) : ∀ A ∈ g.brokenNonterminals, ∀ rule ∈ rules, rule.lhs ≠ A := by
  refine brokenNonterminals_induction hg fun A hall rule hrule hlhs => ?_
  subst hlhs
  obtain ⟨B, hB, hmem⟩ := hall rule.rhs (hrules rule hrule)
  obtain ⟨rule', hrule', hlhs⟩ := hsupport rule hrule B hmem
  exact hB rule' hrule' hlhs

theorem Indexed.includes_of_selfSupporting (hg : g.Indexed) {rules : Set Rule} (hrules : ∀ rule ∈ rules, g.HasRule rule)
    (hsupport : SelfSupporting rules) {rule : Rule} (hrule : rule ∈ rules) : g.Includes g.usefulRules rule := by
  refine includes_usefulRules.mpr ⟨hrules rule hrule, fun A hA hbroken => ?_⟩
  obtain ⟨rule', hrule', hlhs⟩ := hsupport rule hrule A hA
  exact hg.not_supported_of_broken hrules hsupport A hbroken rule' hrule' hlhs

/-- The useful rules are the largest self-supporting set of closed rules. Whatever the terminals match, they derive the same
spans from each nonterminal as all closed rules do, and a prepared grammar lists those of each nonterminal in
increasing order. -/
theorem isGreatest_usefulRules [DecidableEq α] (hg : g.Built) :
    IsGreatest {rules : Set Rule | (∀ rule ∈ rules, g.HasRule rule) ∧ SelfSupporting rules}
      {rule | g.Includes g.usefulRules rule} ∧
    (∀ lengths A i j, Derives lengths g.HasRule [.nonterminal A] i j ↔
      Derives lengths (g.Includes g.usefulRules) [.nonterminal A] i j) ∧
    ∀ p : Prepared α, p.Built → p.grammar = g → ∀ A, (p.rulesFor A).toList.Pairwise (· < ·) ∧
      ∀ id, id ∈ p.rulesFor A ↔
        id < g.rules.size ∧ g.usefulRules.getD id false = true ∧ (g.rule id).lhs = A := by
  refine ⟨⟨⟨?_, ?_⟩, ?_⟩, ?_, ?_⟩
  · exact fun rule hrule => (includes_usefulRules.mp hrule).1
  · exact hg.indexed.selfSupporting_usefulRules
  · rintro rules ⟨hrules, hsupport⟩ rule hrule
    exact hg.indexed.includes_of_selfSupporting hrules hsupport hrule
  · exact fun lengths A i j => hg.indexed.derives_useful_iff.symm
  · rintro p hp rfl A
    refine ⟨hp.regular.pairwise_rulesFor A, fun id => ?_⟩
    rw [hp.regular.mem_rulesFor, hp.regular.useful_eq]
    rfl

/-- Of `S → 'a' | E | C`, `E → X` and `C → C`, where `X` has no rule, the rules of and about `E` go, and those of and
about `C` stay, although `C` derives nothing either. -/
theorem isGreatest_usefulRules_stranded :
    let p := Sample.prepare [(0, [.terminal 0]), (0, [.nonterminal 1]), (0, [.nonterminal 2]), (1, [.nonterminal 3]),
      (2, [.nonterminal 2])]
    p.Built ∧ p.grammar.Built ∧ p.grammar.usefulRules = #[true, false, true, false, true] ∧
    IsGreatest {rules : Set Rule | (∀ rule ∈ rules, p.grammar.HasRule rule) ∧ SelfSupporting rules}
      {rule | p.grammar.Includes p.grammar.usefulRules rule} ∧
    (∀ lengths A i j, Derives lengths p.grammar.HasRule [.nonterminal A] i j ↔
      Derives lengths (p.grammar.Includes p.grammar.usefulRules) [.nonterminal A] i j) ∧
    p.rulesFor 0 = #[0, 2] ∧ (p.rulesFor 0).toList.Pairwise (· < ·) := by
  intro p
  have hp : p.Built := Sample.built_prepare _
  obtain ⟨hgreatest, hderives, hlisted⟩ := isGreatest_usefulRules hp.grammar_built
  exact ⟨hp, hp.grammar_built, by decide +kernel, hgreatest, hderives, by decide +kernel, (hlisted p hp rfl 0).1⟩

end Grammar
end ContextFree
