-- SUMMARY: How far the rules come that recognition asks for, and that a closed search comes as far.
import ContextFree.Proofs.Search

/-!
# Reached positions

Recognition asks for nonterminals at positions, whether or not the input can be derived. A position is reached if it is the
first one, or if some rule that has been asked for derives up to it and takes a terminal last.

A closed search comes to every terminal that takes something. The tests on the input do not keep it from there: a rule on
the way can begin with the atom at its position, and a nonterminal that derives nothing on the way can be followed by
the atom that comes next.
-/
namespace ContextFree

/-- More is asked for if more rules may start. -/
theorem Called.mono {lengths : TerminalId → Nat → Nat} {rules : Rule → Prop} {admits admits' : Rule → Nat → Prop}
    {start A : Nonterminal} {i : Nat} (h : Called lengths rules admits start A i)
    (hsub : ∀ rule i, admits rule i → admits' rule i) : Called lengths rules admits' start A i := by
  induction h with
  | start => exact .start
  | body _ hrule hadmits hbefore ih => exact .body ih hrule (hsub _ _ hadmits) hbefore

variable {α : Type} [DecidableEq α] {p : Prepared α} {tokens : Array α}

namespace Prepared

/-- The nonterminals that recognition asks for by useful rules, if rules start only where `admits` allows it. -/
def Asks (p : Prepared α) (tokens : Array α) (admits : Rule → Nat → Prop) (A : Nonterminal) (i : Nat) : Prop :=
  Called (fun t position => p.matchLength t tokens position) p.IsUseful admits p.start A i

/-- A position is reached if it is the first one, or if a rule that has been asked for derives up to it and takes a terminal
last. -/
inductive Reaches (p : Prepared α) (tokens : Array α) : Nat → Prop where
  | start : Reaches p tokens 0
  | terminal {A : Nonterminal} {before after : List Symbol} {t : TerminalId} {i j : Nat} :
      p.Asks tokens (fun _ _ => True) A i → p.IsUseful ⟨A, before ++ .terminal t :: after⟩ →
      p.DerivesSpan tokens (before ++ [.terminal t]) i j → Reaches p tokens j

variable {A B : Nonterminal} {id : RuleId} {before after symbols : List Symbol} {i j k l : Nat}

/-! ## Useful rules -/

namespace Regular

omit [DecidableEq α] in
theorem isUseful_of_mem (hp : p.Regular) (hid : id ∈ p.rulesFor A) (hrhs : (p.rule id).rhs = symbols) :
    p.IsUseful ⟨A, symbols⟩ := by
  obtain ⟨hlt, huseful, rfl⟩ := hp.mem_rulesFor.mp hid
  subst hrhs
  exact ⟨id, hlt, huseful, rfl⟩

omit [DecidableEq α] in
theorem exists_of_isUseful (hp : p.Regular) (h : p.IsUseful ⟨A, symbols⟩) :
    ∃ id ∈ p.rulesFor A, (p.rule id).rhs = symbols := by
  obtain ⟨id, hlt, huseful, hrule⟩ := h
  refine ⟨id, hp.mem_rulesFor.mpr ⟨hlt, huseful, ?_⟩, ?_⟩
  · rw [hrule]
  · rw [hrule]

/-- What derives a span derives it by useful rules. -/
theorem derives_isUseful_iff (hp : p.Regular) :
    Derives (fun t position => p.matchLength t tokens position) p.IsUseful symbols i j ↔
      p.DerivesSpan tokens symbols i j := by
  have hrules : p.IsUseful = p.grammar.Includes p.grammar.usefulRules := by
    rw [← hp.useful_eq]
    rfl
  rw [hrules]
  exact hp.indexed.derives_useful_iff

end Regular

/-! ## Asking -/

namespace Asks

variable {admits : Rule → Nat → Prop}

theorem any (h : p.Asks tokens admits A i) : p.Asks tokens (fun _ _ => True) A i :=
  h.mono fun _ _ _ => trivial

/-- A rule that has started asks for the nonterminals of its body where the symbols before them lead. -/
theorem inner (hp : p.Regular) (h : p.Asks tokens admits A i) (hid : id ∈ p.rulesFor A)
    (hrhs : (p.rule id).rhs = before ++ .nonterminal B :: after) (hadmits : admits (p.rule id) i)
    (hbefore : p.DerivesSpan tokens before i k) : p.Asks tokens admits B k := by
  have hrule : p.rule id = ⟨A, before ++ .nonterminal B :: after⟩ := by
    rw [← hrhs, ← (hp.mem_rulesFor.mp hid).2.2]
  exact .body h (hp.isUseful_of_mem hid hrhs) (hrule ▸ hadmits) (hp.derives_isUseful_iff.mpr hbefore)

end Asks

/-! ## Reaching -/

/-- The symbols of a rule that has been asked for take nothing, or reach the position up to which they derive. -/
theorem Regular.reaches_of_derives (hp : p.Regular) (h : p.DerivesSpan tokens symbols k l)
    (hasks : p.Asks tokens (fun _ _ => True) A i) (hid : id ∈ p.rulesFor A)
    (hrhs : (p.rule id).rhs = before ++ symbols ++ after) (hbefore : p.DerivesSpan tokens before i k) :
    l = k ∨ p.Reaches tokens l := by
  unfold DerivesSpan at h
  induction h generalizing A i id before after with
  | nil k => exact .inl rfl
  | @terminal t rest k l hpos hrest ih =>
    have hpast := hbefore.append (.terminal hpos (.nil _))
    have hrule : p.IsUseful ⟨A, before ++ .terminal t :: (rest ++ after)⟩ :=
      hp.isUseful_of_mem hid (by rw [hrhs, List.append_assoc, List.cons_append])
    have hrhs' : (p.rule id).rhs = (before ++ [.terminal t]) ++ rest ++ after := by
      rw [hrhs]
      simp only [List.append_assoc, List.cons_append, List.nil_append]
    rcases ih hasks hid hrhs' hpast with rfl | hreaches
    · exact .inr (.terminal hasks hrule hpast)
    · exact .inr hreaches
  | @nonterminal B body rest k m l hrule hbody hrest ihBody ihRest =>
    have hsplit : (p.rule id).rhs = before ++ .nonterminal B :: (rest ++ after) := by
      rw [hrhs, List.append_assoc, List.cons_append]
    have hrhs' : (p.rule id).rhs = (before ++ [.nonterminal B]) ++ rest ++ after := by
      rw [hrhs]
      simp only [List.append_assoc, List.cons_append, List.nil_append]
    obtain ⟨id', hid', heq⟩ := hp.exists_rule_of_derives hrule hbody
    have hinner : (p.rule id').rhs = [] ++ body ++ [] := by rw [heq, List.nil_append, List.append_nil]
    rcases ihRest hasks hid hrhs' (hbefore.append (.nonterminal hrule hbody (.nil m))) with rfl | hreaches
    · exact ihBody (hasks.inner hp hid hsplit trivial hbefore) hid' hinner (.nil k)
    · exact .inr hreaches

/-- Whatever has been asked for was asked for at a reached position. -/
theorem Asks.reaches (hp : p.Regular) (h : p.Asks tokens (fun _ _ => True) A i) : p.Reaches tokens i := by
  unfold Asks at h
  induction h with
  | start => exact .start
  | body hasks hrule _ hbefore ih =>
    obtain ⟨id, hid, hrhs⟩ := hp.exists_of_isUseful hrule
    rcases hp.reaches_of_derives (hp.derives_isUseful_iff.mp hbefore) hasks hid hrhs (.nil _) with rfl | hreaches
    · exact ih
    · exact hreaches

/-- A rule that has been asked for reaches every position up to which its first symbols derive. -/
theorem Regular.reaches (hp : p.Regular) {admits : Rule → Nat → Prop} (hasks : p.Asks tokens admits A i)
    (hid : id ∈ p.rulesFor A) (hrhs : (p.rule id).rhs = before ++ after) (hbefore : p.DerivesSpan tokens before i j) :
    p.Reaches tokens j := by
  rcases hp.reaches_of_derives hbefore hasks.any hid hrhs (.nil i) with rfl | hreaches
  · exact hasks.any.reaches hp
  · exact hreaches

theorem Reaches.max (h : p.Reaches tokens i) (h' : p.Reaches tokens j) : p.Reaches tokens (Max.max i j) := by
  rcases max_choice i j with hmax | hmax
  · rwa [hmax]
  · rwa [hmax]

/-- A position up to which the start symbol derives is reached. -/
theorem Regular.reaches_of_accepted (hp : p.Regular) (h : p.DerivesSpan tokens [.nonterminal p.start] 0 j) :
    p.Reaches tokens j := by
  obtain ⟨id, hid, hbody⟩ := h.exists_rule hp
  have hasks : p.Asks tokens (fun _ _ => True) p.start 0 := .start
  exact hp.reaches hasks hid (List.append_nil _).symm hbody

/-- Reached positions lie in the input. -/
theorem Reaches.le_size (h : p.Reaches tokens j) : j ≤ tokens.size := by
  cases h with
  | start => exact Nat.zero_le _
  | @terminal A before after t i _ _ _ hderives =>
    obtain ⟨k, -, hlast⟩ := hderives.of_append
    cases hlast with
    | terminal hpos hrest =>
      cases hrest
      have hle := p.matchLength_le t tokens k
      omega

/-! ## Beginning -/

/-- Some terminal that the symbols can begin with takes something at the position. -/
def Begins (p : Prepared α) (tokens : Array α) (symbols : List Symbol) (i : Nat) : Prop :=
  ∃ t, canBegin p.analysis.nullable p.analysis.first symbols t = true ∧ 0 < p.matchLength t tokens i

namespace Begins

theorem terminal {t : TerminalId} (hpos : 0 < p.matchLength t tokens i) : p.Begins tokens (.terminal t :: after) i :=
  ⟨t, by simp [canBegin], hpos⟩

theorem nonterminal (hp : p.Regular) (hid : id ∈ p.rulesFor A) (h : p.Begins tokens (p.rule id).rhs i) :
    p.Begins tokens (.nonterminal A :: after) i := by
  obtain ⟨t, hbegin, hpos⟩ := h
  refine ⟨t, ?_, hpos⟩
  have hfirst := hp.mem_first hid (accepts_of_matchLength_pos hpos).1 hbegin
  simp only [canBegin, Bool.or_eq_true, Std.TreeSet.contains_iff_mem]
  exact .inl hfirst

theorem append_right (h : p.Begins tokens symbols i) : p.Begins tokens (symbols ++ after) i := by
  obtain ⟨t, hbegin, hpos⟩ := h
  refine ⟨t, ?_, hpos⟩
  induction symbols with
  | nil => cases hbegin
  | cons symbol symbols ih =>
    cases symbol with
    | terminal u => exact hbegin
    | nonterminal A =>
      simp only [List.cons_append, canBegin, Bool.or_eq_true, Bool.and_eq_true] at hbegin ⊢
      exact hbegin.imp_right fun h => ⟨h.1, ih h.2⟩

theorem append_left (hnull : allNullable p.analysis.nullable before = true) (h : p.Begins tokens symbols i) :
    p.Begins tokens (before ++ symbols) i := by
  obtain ⟨t, hbegin, hpos⟩ := h
  refine ⟨t, ?_, hpos⟩
  induction before with
  | nil => exact hbegin
  | cons symbol before ih =>
    cases symbol with
    | terminal u => simp [allNullable, Symbol.nonterminal?] at hnull
    | nonterminal A =>
      simp only [allNullable, List.all_cons, Bool.and_eq_true, Symbol.nonterminal?, Option.any_some] at hnull
      simp only [List.cons_append, canBegin, Bool.or_eq_true, Bool.and_eq_true]
      exact .inr ⟨hnull.1, ih hnull.2⟩

/-- What stands before decides, unless it derives nothing. -/
theorem of_derives (hp : p.Regular) (hbefore : p.DerivesSpan tokens before i k) (h : p.Begins tokens symbols k) :
    p.Begins tokens (before ++ symbols) i := by
  rcases Nat.eq_or_lt_of_le hbefore.le with rfl | hlt
  · exact h.append_left (hp.allNullable_of_derives hbefore rfl)
  · have hbegins : p.Begins tokens before i := hp.canBegin_of_derives hbefore hlt
    exact hbegins.append_right

theorem firstAllows (hp : p.Regular) (hid : id < p.grammar.rules.size) (h : p.Begins tokens (p.rule id).rhs i) :
    p.firstAllows id tokens i = true := by
  obtain ⟨t, hbegin, hpos⟩ := h
  obtain ⟨ht, atom, hatom, haccepts⟩ := accepts_of_matchLength_pos hpos
  rw [Prepared.firstAllows, hatom]
  exact List.any_eq_true.mpr ⟨t, hp.mem_ruleFirst hid ht hbegin, haccepts⟩

end Begins

/-- Some terminal that can come after the nonterminal takes something at the position. -/
def Continues (p : Prepared α) (tokens : Array α) (A : Nonterminal) (i : Nat) : Prop :=
  ∃ t, (A, .terminal t) ∈ p.analysis.follow ∧ 0 < p.matchLength t tokens i

namespace Continues

theorem of_begins (hp : p.Regular) (hid : id ∈ p.rulesFor A) (hrhs : (p.rule id).rhs = before ++ .nonterminal B :: after)
    (h : p.Begins tokens after i) : p.Continues tokens B i := by
  obtain ⟨t, hbegin, hpos⟩ := h
  refine ⟨t, hp.mem_follow hid hrhs (mem_followOccurrence.mpr (.inr (.inl ?_))), hpos⟩
  exact ⟨t, Grammar.lt_terminalBound (accepts_of_matchLength_pos hpos).1, hbegin, rfl⟩

theorem of_nullable (hp : p.Regular) (hid : id ∈ p.rulesFor A)
    (hrhs : (p.rule id).rhs = before ++ .nonterminal B :: after)
    (hnull : allNullable p.analysis.nullable after = true) (h : p.Continues tokens A i) : p.Continues tokens B i := by
  obtain ⟨t, hfollow, hpos⟩ := h
  refine ⟨t, hp.mem_follow hid hrhs (mem_followOccurrence.mpr (.inr (.inr ⟨hnull, _, ?_, hfollow, rfl⟩))), hpos⟩
  have ht := Grammar.lt_terminalBound (accepts_of_matchLength_pos hpos).1
  exact List.mem_cons_of_mem _ (List.mem_map_of_mem (List.mem_range.mpr ht))

theorem followAllows (h : p.Continues tokens A i) : p.followAllows A tokens i = true := by
  obtain ⟨t, hfollow, hpos⟩ := h
  exact Regular.followAllows_of_mem hfollow (.inr ⟨t, rfl, hpos⟩)

end Continues
end Prepared

/-! ## Closed searches -/

/-- The tests turn down neither a rule that can begin with what comes next, nor one that derives nothing where what comes next
can follow. -/
structure Lenient (p : Prepared α) (tokens : Array α) (admits : RuleId → Nat → Prop) : Prop where
  begins : ∀ {A i id}, id ∈ p.rulesFor A → p.Begins tokens (p.rule id).rhs i → admits id i
  nothing : ∀ {A i id}, id ∈ p.rulesFor A → p.DerivesSpan tokens (p.rule id).rhs i i → p.Continues tokens A i →
    admits id i

/-- Lenient tests leave every derivation alone after which the input can go on. -/
theorem Lenient.relevance (hp : p.Regular) {admits : RuleId → Nat → Prop} (h : Lenient p tokens admits) :
    Relevance p tokens admits fun A _ j => p.Continues tokens A j where
  admitted {A i j id} hcontinues hid hbody := by
    rcases Nat.eq_or_lt_of_le hbody.le with rfl | hlt
    · exact h.nothing hid hbody hcontinues
    · exact h.begins hid (hp.canBegin_of_derives hbody hlt)
  inner {A i j id before B after k l} hcontinues hid hrhs hbefore hB hafter := by
    rcases Nat.eq_or_lt_of_le hafter.le with rfl | hlt
    · exact .of_nullable hp hid hrhs (hp.allNullable_of_derives hafter rfl) hcontinues
    · exact .of_begins hp hid hrhs (hp.canBegin_of_derives hafter hlt)

namespace ClosedSearch

variable {admits : RuleId → Nat → Prop} {visits : StateId → Nat → Nat → Prop}
  {splits : StateId → Nat → Nat → Nat → Prop} {A : Nonterminal} {id : RuleId} {before after : List Symbol} {i j k : Nat}

/-- A rule that has started is followed over symbols after which the rest of it can begin. -/
theorem visits_of_begins (hp : p.Regular) (hs : ClosedSearch p tokens admits visits splits)
    (hlenient : Lenient p tokens admits) (hid : id ∈ p.rulesFor A) (hrhs : (p.rule id).rhs = before ++ after)
    (hbefore : p.DerivesSpan tokens before i k) (hbegins : p.Begins tokens after k)
    (hvisit : visits (p.states.initial id) i i) : visits (p.states.initial id + before.length) i k := by
  have hdot : p.AtDot (p.states.initial id) id [] (before ++ after) := ⟨(hp.mem_rulesFor.mp hid).1, rfl, hrhs⟩
  apply hs.visits_of_derives hp (hlenient.relevance hp) hbefore hdot hvisit
  intro b B a k' l heq hb hB ha
  have hsplit : (p.rule id).rhs = b ++ .nonterminal B :: (a ++ after) := by
    rw [hrhs, heq, List.append_assoc, List.cons_append]
  exact .of_begins hp hid hsplit (.of_derives hp ha hbegins)

/-- A closed search starts the rules of a nonterminal that has been asked for and can begin with what comes next. -/
theorem visits_of_asks (hp : p.Regular) (hs : ClosedSearch p tokens admits visits splits)
    (hlenient : Lenient p tokens admits) (h : p.Asks tokens (fun _ _ => True) A i)
    (hbegins : p.Begins tokens [.nonterminal A] i) (hid : id ∈ p.rulesFor A) (hadmits : admits id i) :
    visits (p.states.initial id) i i := by
  unfold Prepared.Asks at h
  -- down the calls: each rule on the way begins with what begins the last of them
  induction h generalizing id with
  | start => exact hs.start hid hadmits
  | @body A B before after i k _ hrule _ hbefore ih =>
    obtain ⟨id', hid', hrhs⟩ := hp.exists_of_isUseful hrule
    have hbefore := hp.derives_isUseful_iff.mp hbefore
    have hrest : p.Begins tokens (.nonterminal B :: after) k := hbegins.append_right
    have hbody : p.Begins tokens (p.rule id').rhs i := by
      rw [hrhs]
      exact .of_derives hp hbefore hrest
    have hstart := ih (.nonterminal hp hid' hbody) hid' (hlenient.begins hid' hbody)
    have hvisit := hs.visits_of_begins hp hlenient hid' hrhs hbefore hrest hstart
    have hdot : p.AtDot (p.states.initial id' + before.length) id' before (.nonterminal B :: after) :=
      ⟨(hp.mem_rulesFor.mp hid').1, rfl, hrhs⟩
    exact hs.call hdot hvisit hid hadmits

/-- A closed search comes to every reached position after the first: it visits the place of the terminal that is taken last. -/
theorem exists_visit_of_reaches (hp : p.Regular) (hs : ClosedSearch p tokens admits visits splits)
    (hlenient : Lenient p tokens admits) (h : p.Reaches tokens j) (hj : 0 < j) :
    ∃ slot id before t after i k, p.AtDot slot id before (.terminal t :: after) ∧ visits slot i k ∧
      0 < p.matchLength t tokens k ∧ j = k + p.matchLength t tokens k := by
  cases h with
  | start => exact absurd hj (Nat.lt_irrefl 0)
  | @terminal A before after t i _ hasks hrule hderives =>
    obtain ⟨id, hid, hrhs⟩ := hp.exists_of_isUseful hrule
    obtain ⟨k, hbefore, hlast⟩ := hderives.of_append
    cases hlast with
    | terminal hpos hrest =>
      cases hrest
      have hrest : p.Begins tokens (.terminal t :: after) k := .terminal hpos
      have hbody : p.Begins tokens (p.rule id).rhs i := by
        rw [hrhs]
        exact .of_derives hp hbefore hrest
      have hstart := hs.visits_of_asks hp hlenient hasks (.nonterminal hp hid hbody) hid (hlenient.begins hid hbody)
      have hvisit := hs.visits_of_begins hp hlenient hid hrhs hbefore hrest hstart
      exact ⟨_, id, before, t, after, i, k, ⟨(hp.mem_rulesFor.mp hid).1, rfl, hrhs⟩, hvisit, hpos, rfl⟩

end ClosedSearch
end ContextFree
