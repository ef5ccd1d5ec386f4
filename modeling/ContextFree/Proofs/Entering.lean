-- SUMMARY: The positions of rules that recognition has to come to, and that a closed search comes to all of them.
import ContextFree.Proofs.Reaching

/-!
# Entered positions

Recognition enters a position of a rule if the rule is useful, its left-hand side is asked for where the rule begins, the
rule may start there, and the symbols before the position derive the input up to it. Whether the rule can be
completed does not matter. Lookahead is the only test that a method may apply when it starts a rule; it turns
down no rule whose body derives something, so a closed search visits every entered position.
-/
namespace ContextFree

variable {α : Type} [DecidableEq α] {p : Prepared α} {tokens : Array α}

namespace Prepared

/-- Whether a rule may start at a position: with lookahead, only if it is nullable or can begin with the atom there. -/
def MayStart (p : Prepared α) (tokens : Array α) (lookahead : Bool) (id : RuleId) (i : Nat) : Prop :=
  lookahead = true → p.canStart id tokens i = true

/-- The nonterminals that are asked for by rules that may start. -/
def AsksBy (p : Prepared α) (tokens : Array α) (lookahead : Bool) (A : Nonterminal) (i : Nat) : Prop :=
  p.Asks tokens (fun rule i => ∃ id ∈ p.rulesFor rule.lhs, p.rule id = rule ∧ p.MayStart tokens lookahead id i) A i

/-- The position `slot` of a rule that began at `i` is entered at `j`. -/
def Enters (p : Prepared α) (tokens : Array α) (lookahead : Bool) (slot : StateId) (i j : Nat) : Prop :=
  ∃ id before after, p.AtDot slot id before after ∧ p.useful.getD id false = true ∧
    p.AsksBy tokens lookahead (p.rule id).lhs i ∧ p.MayStart tokens lookahead id i ∧
    p.DerivesSpan tokens before i j

/-- Entered positions lie in the input. -/
theorem Enters.le_size (hp : p.Regular) {lookahead : Bool} {slot : StateId} {i j : Nat}
    (h : p.Enters tokens lookahead slot i j) : j ≤ tokens.size := by
  obtain ⟨id, before, after, hdot, huseful, hasks, _, hbefore⟩ := h
  exact (hp.reaches hasks (hp.mem_rulesFor.mpr ⟨hdot.lt, huseful, rfl⟩) hdot.rhs_eq hbefore).le_size

end Prepared

namespace ClosedSearch

variable {lookahead : Bool} {visits : StateId → Nat → Nat → Prop} {splits : StateId → Nat → Nat → Nat → Prop}

/-- Lookahead turns down no rule whose body derives something. -/
theorem relevance_mayStart (hp : p.Regular) (lookahead : Bool) :
    Relevance p tokens (p.MayStart tokens lookahead) (fun _ _ _ => True) where
  admitted _ hid hbody _ := hp.canStart_of_derives (hp.mem_rulesFor.mp hid).1 hbody
  inner _ _ _ _ _ _ := trivial

/-- From the start of a rule, a closed search comes as far as the symbols of the rule derive. -/
theorem visits_of_initial (hp : p.Regular) (hs : ClosedSearch p tokens (p.MayStart tokens lookahead) visits splits)
    {slot : StateId} {id : RuleId} {before after : List Symbol} {i j : Nat} (hdot : p.AtDot slot id before after)
    (hstart : visits (p.states.initial id) i i) (hbefore : p.DerivesSpan tokens before i j) : visits slot i j := by
  have hinitial : p.AtDot (p.states.initial id) id [] (before ++ after) := ⟨hdot.lt, rfl, hdot.rhs_eq⟩
  rw [hdot.slot_eq]
  exact hs.visits_of_derives hp (relevance_mayStart hp lookahead) hbefore hinitial hstart
    fun _ _ _ _ _ _ _ _ _ => trivial

/-- A closed search starts every rule of a nonterminal that is asked for, if the rule may start. -/
theorem visits_initial_of_asksBy (hp : p.Regular)
    (hs : ClosedSearch p tokens (p.MayStart tokens lookahead) visits splits) {A : Nonterminal} {i : Nat}
    (h : p.AsksBy tokens lookahead A i) {id : RuleId} (hid : id ∈ p.rulesFor A)
    (hstart : p.MayStart tokens lookahead id i) : visits (p.states.initial id) i i := by
  unfold Prepared.AsksBy Prepared.Asks at h
  induction h generalizing id with
  | start => exact hs.start hid hstart
  | @body A B before after i k _ _ hadmits hbefore ih =>
    obtain ⟨id', hid', hrule, hstart'⟩ := hadmits
    have hdot : p.AtDot (p.states.initial id' + before.length) id' before (.nonterminal B :: after) :=
      ⟨(hp.mem_rulesFor.mp hid').1, rfl, by rw [hrule]⟩
    have hvisit := hs.visits_of_initial hp hdot (ih hid' hstart') (hp.derives_isUseful_iff.mp hbefore)
    exact hs.call hdot hvisit hid hstart

/-- A closed search visits every position that is entered. -/
theorem visits_of_enters (hp : p.Regular) (hs : ClosedSearch p tokens (p.MayStart tokens lookahead) visits splits)
    {slot : StateId} {i j : Nat} (h : p.Enters tokens lookahead slot i j) : visits slot i j := by
  obtain ⟨id, before, after, hdot, huseful, hasks, hstart, hbefore⟩ := h
  have hid : id ∈ p.rulesFor (p.rule id).lhs := hp.mem_rulesFor.mpr ⟨hdot.lt, huseful, rfl⟩
  exact hs.visits_of_initial hp hdot (hs.visits_initial_of_asksBy hp hasks hid hstart) hbefore

end ClosedSearch
end ContextFree
