-- SUMMARY: A search with nothing left to do has visited every position that a derivation passes.
import ContextFree.Proofs.Positions
import ContextFree.Proofs.Lookahead

/-!
# Closed searches

Both recognizers visit positions of rules. A visit `(slot, i, k)` says that the part of a rule before `slot` derives `i` to
`k`; a split `(slot, i, k, j)` that it derives `i` to `j` with its last symbol beginning at `k`. A search is closed if
every visit has had its consequences. A closed search has visited every position that a derivation passes, and has
recorded every split, as long as the derivation is relevant: no test on the input may turn down its rules.
-/
namespace ContextFree

variable {α : Type} [DecidableEq α] {p : Prepared α} {tokens : Array α}

/-- Every visit has had its consequences. A rule is started at a position only if `admits` allows it. -/
structure ClosedSearch (p : Prepared α) (tokens : Array α) (admits : RuleId → Nat → Prop)
    (visits : StateId → Nat → Nat → Prop) (splits : StateId → Nat → Nat → Nat → Prop) : Prop where
  start : ∀ {id}, id ∈ p.rulesFor p.start → admits id 0 → visits (p.states.initial id) 0 0
  scan : ∀ {slot id before t after i k}, p.AtDot slot id before (.terminal t :: after) → visits slot i k →
    0 < p.matchLength t tokens k →
    visits (slot + 1) i (k + p.matchLength t tokens k) ∧
      splits (slot + 1) i k (k + p.matchLength t tokens k)
  call : ∀ {slot id before A after i k id'}, p.AtDot slot id before (.nonterminal A :: after) →
    visits slot i k → id' ∈ p.rulesFor A → admits id' k → visits (p.states.initial id') k k
  resume : ∀ {slot id before A after i k id' j}, p.AtDot slot id before (.nonterminal A :: after) →
    visits slot i k → id' ∈ p.rulesFor A → visits (p.states.initial id' + (p.rule id').rhs.length) k j →
    visits (slot + 1) i j ∧ splits (slot + 1) i k j
  nothing : ∀ {slot id i}, p.AtDot slot id [] [] → visits slot i i → splits slot i i i

/-- Spans whose derivations no test turns down, closed under going down into a derivation. -/
structure Relevance (p : Prepared α) (tokens : Array α) (admits : RuleId → Nat → Prop)
    (relevant : Nonterminal → Nat → Nat → Prop) : Prop where
  admitted : ∀ {A i j id}, relevant A i j → id ∈ p.rulesFor A →
    p.DerivesSpan tokens (p.rule id).rhs i j → admits id i
  inner : ∀ {A i j id before B after k l}, relevant A i j → id ∈ p.rulesFor A →
    (p.rule id).rhs = before ++ .nonterminal B :: after → p.DerivesSpan tokens before i k →
    p.DerivesSpan tokens [.nonterminal B] k l → p.DerivesSpan tokens after l j → relevant B k l

/-- Every nonterminal of a derived sequence is relevant over the part that it derives. -/
def RelevantIn (p : Prepared α) (tokens : Array α) (relevant : Nonterminal → Nat → Nat → Prop)
    (symbols : List Symbol) (i j : Nat) : Prop :=
  ∀ before B after k l, symbols = before ++ .nonterminal B :: after → p.DerivesSpan tokens before i k →
    p.DerivesSpan tokens [.nonterminal B] k l → p.DerivesSpan tokens after l j → relevant B k l

theorem Prepared.DerivesSpan.single {A : Nonterminal} {body : List Symbol} {i j : Nat}
    (hrule : p.grammar.HasRule ⟨A, body⟩) (h : p.DerivesSpan tokens body i j) :
    p.DerivesSpan tokens [.nonterminal A] i j :=
  .nonterminal hrule h (.nil j)

theorem Prepared.DerivesSpan.exists_rule (hp : p.Regular) {A : Nonterminal} {i j : Nat}
    (h : p.DerivesSpan tokens [.nonterminal A] i j) :
    ∃ id ∈ p.rulesFor A, p.DerivesSpan tokens (p.rule id).rhs i j := by
  unfold DerivesSpan at h
  cases h with
  | nonterminal hrule hbody hrest =>
    cases hrest
    obtain ⟨id, hid, heq⟩ := hp.exists_rule_of_derives hrule hbody
    refine ⟨id, hid, ?_⟩
    rw [heq]
    exact hbody

namespace ClosedSearch

variable {admits : RuleId → Nat → Prop} {visits : StateId → Nat → Nat → Prop}
  {splits : StateId → Nat → Nat → Nat → Prop} {relevant : Nonterminal → Nat → Nat → Prop}

/-- From a visited position, a closed search visits where a relevant derivation of the next symbols leads. -/
theorem visits_of_derives (hp : p.Regular) (hs : ClosedSearch p tokens admits visits splits)
    (hr : Relevance p tokens admits relevant) {symbols : List Symbol} {k l : Nat}
    (h : p.DerivesSpan tokens symbols k l) {slot : StateId} {id : RuleId} {before after : List Symbol} {i : Nat}
    (hdot : p.AtDot slot id before (symbols ++ after)) (hvisit : visits slot i k)
    (hrel : RelevantIn p tokens relevant symbols k l) : visits (slot + symbols.length) i l := by
  unfold Prepared.DerivesSpan at h
  -- along the derivation: a rule that is entered on the way is followed by the induction hypothesis of its body
  induction h generalizing slot id before after i with
  | nil k => exact hvisit
  | @terminal t rest k l hpos hrest ih =>
    have hnext := (hs.scan hdot hvisit hpos).1
    have hrest := ih hdot.step hnext fun b B a k' l' heq hb hB ha =>
      hrel (.terminal t :: b) B a k' l' (by rw [heq]; rfl) (.terminal hpos hb) hB ha
    rwa [List.length_cons, Nat.add_comm rest.length, ← Nat.add_assoc]
  | @nonterminal A body rest k m l hrule hbody hrest ihBody ihRest =>
    have hA : p.DerivesSpan tokens [.nonterminal A] k m := .single hrule hbody
    have hrelA : relevant A k m := hrel [] A rest k m rfl (.nil k) hA hrest
    obtain ⟨id', hid', heq⟩ := hp.exists_rule_of_derives hrule hbody
    have hrhs : (p.rule id').rhs = body := by rw [heq]
    have hbody' : p.DerivesSpan tokens (p.rule id').rhs k m := by rw [hrhs]; exact hbody
    have hstart := hs.call hdot hvisit hid' (hr.admitted hrelA hid' hbody')
    have hinner : p.AtDot (p.states.initial id') id' [] (body ++ []) := by
      rw [List.append_nil, ← hrhs]
      exact Prepared.atDot_initial (hp.mem_rulesFor.mp hid').1
    have hdone := ihBody hinner hstart fun b B a k' l' hsplit hb hB ha =>
      hr.inner hrelA hid' (hrhs.trans hsplit) hb hB ha
    rw [← hrhs] at hdone
    have hnext := (hs.resume hdot hvisit hid' hdone).1
    have hrest := ihRest hdot.step hnext fun b B a k' l' hsplit hb hB ha =>
      hrel (.nonterminal A :: b) B a k' l' (by rw [hsplit]; rfl) (.nonterminal hrule hbody hb) hB ha
    rwa [List.length_cons, Nat.add_comm rest.length, ← Nat.add_assoc]

/-- A closed search that has started a rule follows it as far as it derives relevant spans. -/
theorem visits_of_start (hp : p.Regular) (hs : ClosedSearch p tokens admits visits splits)
    (hr : Relevance p tokens admits relevant) {A : Nonterminal} {i j k : Nat} (hrel : relevant A i j)
    {id : RuleId} (hid : id ∈ p.rulesFor A) {before after : List Symbol}
    (hrhs : (p.rule id).rhs = before ++ after) (hbefore : p.DerivesSpan tokens before i k)
    (hafter : p.DerivesSpan tokens after k j) (hvisit : visits (p.states.initial id) i i) :
    visits (p.states.initial id + before.length) i k := by
  have hdot : p.AtDot (p.states.initial id) id [] (before ++ after) :=
    ⟨(hp.mem_rulesFor.mp hid).1, rfl, hrhs⟩
  apply hs.visits_of_derives hp hr hbefore hdot hvisit
  intro b B a k' l' heq hb hB ha
  have hsplit : (p.rule id).rhs = b ++ .nonterminal B :: (a ++ after) := by
    rw [hrhs, heq, List.append_assoc, List.cons_append]
  exact hr.inner hrel hid hsplit hb hB (ha.append hafter)

/-- A closed search records the split of a visited position and a relevant derivation of the next symbol. -/
theorem splits_of_derives (hp : p.Regular) (hs : ClosedSearch p tokens admits visits splits)
    (hr : Relevance p tokens admits relevant) {slot : StateId} {id : RuleId} {before after : List Symbol}
    {symbol : Symbol} {i k l : Nat} (hdot : p.AtDot slot id before (symbol :: after)) (hvisit : visits slot i k)
    (h : p.DerivesSpan tokens [symbol] k l) (hrel : ∀ B, symbol = .nonterminal B → relevant B k l) :
    splits (slot + 1) i k l := by
  cases symbol with
  | terminal t =>
    unfold Prepared.DerivesSpan at h
    cases h with
    | terminal hpos hrest =>
      cases hrest
      exact (hs.scan hdot hvisit hpos).2
  | nonterminal B =>
    obtain ⟨id', hid', hbody⟩ := h.exists_rule hp
    have hrelB := hrel B rfl
    have hstart := hs.call hdot hvisit hid' (hr.admitted hrelB hid' hbody)
    have hdone := hs.visits_of_start hp hr hrelB hid' (List.append_nil _).symm hbody (.nil l) hstart
    exact (hs.resume hdot hvisit hid' hdone).2

end ClosedSearch

/-! ## Parts of a whole derivation -/

/-- The nonterminals and spans that can be part of a derivation of the start symbol up to `stop`. -/
inductive Within (p : Prepared α) (tokens : Array α) (stop : Nat) : Nonterminal → Nat → Nat → Prop where
  | start : Within p tokens stop p.start 0 stop
  | inner {A B : Nonterminal} {id : RuleId} {before after : List Symbol} {i j k l : Nat} :
      Within p tokens stop A i j → id ∈ p.rulesFor A → (p.rule id).rhs = before ++ .nonterminal B :: after →
      p.DerivesSpan tokens before i k → p.DerivesSpan tokens after l j → Within p tokens stop B k l

/-- A body with a derivation on each side of one of its nonterminals. -/
theorem derives_body (hp : p.Regular) {A B : Nonterminal} {id : RuleId} (hid : id ∈ p.rulesFor A)
    {before after : List Symbol} (hrhs : (p.rule id).rhs = before ++ .nonterminal B :: after) {i j k l : Nat}
    (hbefore : p.DerivesSpan tokens before i k) (hB : p.DerivesSpan tokens [.nonterminal B] k l)
    (hafter : p.DerivesSpan tokens after l j) :
    p.DerivesSpan tokens (p.rule id).rhs i j ∧ p.DerivesSpan tokens [.nonterminal A] i j := by
  have hbody : p.DerivesSpan tokens (p.rule id).rhs i j := by
    rw [hrhs]
    exact hbefore.append (hB.append hafter)
  exact ⟨hbody, .single (hp.hasRule_of_mem hid) hbody⟩

namespace Within

variable {stop : Nat} {B : Nonterminal} {k l : Nat}

/-- In a derivation of the whole input, what comes after a nonterminal is in its FOLLOW set. -/
theorem exists_follower (hp : p.Regular) (h : Within p tokens tokens.size B k l)
    (hB : p.DerivesSpan tokens [.nonterminal B] k l) :
    ∃ f, (B, f) ∈ p.analysis.follow ∧ (f = .endOfInput ∧ l = tokens.size ∨
      ∃ t, f = .terminal t ∧ 0 < p.matchLength t tokens l) := by
  induction h with
  | start => exact ⟨.endOfInput, hp.start_mem_follow, .inl ⟨rfl, rfl⟩⟩
  | @inner A B id before after i j k l _ hid hrhs hbefore hafter ih =>
    rcases Nat.eq_or_lt_of_le hafter.le with hempty | hlt
    · -- nothing comes after it in its rule
      subst hempty
      obtain ⟨f, hf, hnext⟩ := ih (derives_body hp hid hrhs hbefore hB hafter).2
      refine ⟨f, hp.mem_follow hid hrhs (mem_followOccurrence.mpr (.inr (.inr ?_))), hnext⟩
      refine ⟨hp.allNullable_of_derives hafter rfl, f, ?_, hf, rfl⟩
      rcases hnext with ⟨rfl, _⟩ | ⟨t, rfl, hpos⟩
      · exact List.mem_cons_self
      · refine List.mem_cons_of_mem _ (List.mem_map_of_mem (List.mem_range.mpr ?_))
        exact Grammar.lt_terminalBound (Prepared.accepts_of_matchLength_pos hpos).1
    · obtain ⟨t, hbegin, hpos⟩ := hp.canBegin_of_derives hafter hlt
      refine ⟨.terminal t, hp.mem_follow hid hrhs (mem_followOccurrence.mpr (.inr (.inl ?_))), .inr ⟨t, rfl, hpos⟩⟩
      exact ⟨t, Grammar.lt_terminalBound (Prepared.accepts_of_matchLength_pos hpos).1, hbegin, rfl⟩

theorem followAllows (hp : p.Regular) (h : Within p tokens tokens.size B k l)
    (hB : p.DerivesSpan tokens [.nonterminal B] k l) : p.followAllows B tokens l = true := by
  obtain ⟨f, hf, hnext⟩ := h.exists_follower hp hB
  exact Prepared.Regular.followAllows_of_mem hf hnext

end Within

/-- Whatever no test turns down inside a whole derivation makes its parts relevant. -/
theorem within_relevance {admits : RuleId → Nat → Prop} {stop : Nat}
    (hadmits : ∀ {A i j id}, Within p tokens stop A i j → id ∈ p.rulesFor A →
      p.DerivesSpan tokens (p.rule id).rhs i j → admits id i) :
    Relevance p tokens admits (Within p tokens stop) where
  admitted := hadmits
  inner h hid hrhs hbefore _ hafter := .inner h hid hrhs hbefore hafter

namespace ClosedSearch

variable {admits : RuleId → Nat → Prop} {visits : StateId → Nat → Nat → Prop}
  {splits : StateId → Nat → Nat → Nat → Prop} {stop : Nat}

/-- A closed search starts the rules that the parts of a whole derivation use. -/
theorem visits_initial (hp : p.Regular) (hs : ClosedSearch p tokens admits visits splits)
    (hr : Relevance p tokens admits (Within p tokens stop)) {A : Nonterminal} {i j : Nat}
    (h : Within p tokens stop A i j) (hA : p.DerivesSpan tokens [.nonterminal A] i j) {id : RuleId}
    (hid : id ∈ p.rulesFor A) (hadmits : admits id i) : visits (p.states.initial id) i i := by
  induction h generalizing id with
  | start => exact hs.start hid hadmits
  | @inner A B id' before after i j k l houter hid' hrhs hbefore hafter ih =>
    obtain ⟨hbody, hA'⟩ := derives_body hp hid' hrhs hbefore hA hafter
    have hstart := ih hA' hid' (hr.admitted houter hid' hbody)
    have hvisit := hs.visits_of_start hp hr houter hid' hrhs hbefore (hA.append hafter) hstart
    have hdot : p.AtDot (p.states.initial id' + before.length) id' before (.nonterminal B :: after) :=
      ⟨(hp.mem_rulesFor.mp hid').1, rfl, hrhs⟩
    exact hs.call hdot hvisit hid hadmits

/-- A closed search visits every position of a rule used in a part of a whole derivation. -/
theorem visits_within (hp : p.Regular) (hs : ClosedSearch p tokens admits visits splits)
    (hr : Relevance p tokens admits (Within p tokens stop)) {A : Nonterminal} {i j k : Nat}
    (h : Within p tokens stop A i j) {id : RuleId} (hid : id ∈ p.rulesFor A) {before after : List Symbol}
    (hrhs : (p.rule id).rhs = before ++ after) (hbefore : p.DerivesSpan tokens before i k)
    (hafter : p.DerivesSpan tokens after k j) : visits (p.states.initial id + before.length) i k := by
  have hbody : p.DerivesSpan tokens (p.rule id).rhs i j := by
    rw [hrhs]
    exact hbefore.append hafter
  have hA : p.DerivesSpan tokens [.nonterminal A] i j := .single (hp.hasRule_of_mem hid) hbody
  exact hs.visits_of_start hp hr h hid hrhs hbefore hafter
    (hs.visits_initial hp hr h hA hid (hr.admitted h hid hbody))

/-- A closed search records every split of a rule used in a part of a whole derivation. -/
theorem splits_within (hp : p.Regular) (hs : ClosedSearch p tokens admits visits splits)
    (hr : Relevance p tokens admits (Within p tokens stop)) {A : Nonterminal} {i j k l : Nat}
    (h : Within p tokens stop A i j) {id : RuleId} (hid : id ∈ p.rulesFor A) {before after : List Symbol}
    {symbol : Symbol} (hrhs : (p.rule id).rhs = before ++ symbol :: after)
    (hbefore : p.DerivesSpan tokens before i k) (hsymbol : p.DerivesSpan tokens [symbol] k l)
    (hafter : p.DerivesSpan tokens after l j) : splits (p.states.initial id + before.length + 1) i k l := by
  have hvisit := hs.visits_within hp hr h hid hrhs hbefore (hsymbol.append hafter)
  have hdot : p.AtDot (p.states.initial id + before.length) id before (symbol :: after) :=
    ⟨(hp.mem_rulesFor.mp hid).1, rfl, hrhs⟩
  apply hs.splits_of_derives hp hr hdot hvisit hsymbol
  intro B hB
  subst hB
  exact .inner h hid hrhs hbefore hafter

end ClosedSearch
end ContextFree
