-- SUMMARY: The lookahead sets are closed, so the tests on them never stop a rule that a derivation uses.
import ContextFree.Derivation.Sentential
import ContextFree.Proofs.Matching
import ContextFree.Proofs.Support
import Mathlib.Data.Finset.Prod

/-!
# Lookahead never misleads

The nullable nonterminals, FIRST and FOLLOW are closed under their rounds. It follows that a rule whose body derives a span
passes the test on its first atom, and that the atom after a nonterminal inside a whole derivation passes the test on
what can follow.
-/
namespace ContextFree

variable {α : Type}

/-! ## Nullable nonterminals -/

theorem isNullable_mono {s t : Std.TreeSet Nonterminal} (h : Sub s t) {item : RuleItem}
    (hitem : item.isNullable s = true) : item.isNullable t = true := by
  unfold RuleItem.isNullable at hitem ⊢
  rcases Bool.or_eq_true_iff.mp hitem with hopt | hany
  · rw [hopt, Bool.true_or]
  · obtain ⟨A, hA, hmem⟩ := (Option.any_eq_true _ _).mp hany
    refine Bool.or_eq_true_iff.mpr (.inr ((Option.any_eq_true _ _).mpr ⟨A, hA, ?_⟩))
    exact Std.TreeSet.contains_iff_mem.mpr (h A (Std.TreeSet.contains_iff_mem.mp hmem))

theorem growing_nullableVisit (d : Declaration) :
    Growing fun set => if d.items.all (·.isNullable set) then set.insert d.lhs else set := by
  refine Growing.insertIf (fun s t hsub hall => ?_) d.lhs
  rw [List.all_eq_true] at hall ⊢
  exact fun item hitem => isNullable_mono hsub (hall item hitem)

/-- One more round adds nothing to the nullable nonterminals. -/
theorem nullableRound_closed (declarations : List Declaration) :
    Sub (nullableRound declarations (nullableNonterminals declarations)) (nullableNonterminals declarations) := by
  have hgrowing : Growing (nullableRound declarations) :=
    Growing.foldl growing_nullableVisit declarations
  let space : Finset Nonterminal := (declarations.map Declaration.lhs).toFinset
  have hspace : ∀ s, ∀ A ∈ nullableRound declarations s, A ∈ s ∨ A ∈ space := by
    apply foldl_within
    intro d hd s A hA
    apply (mem_insertIf hA).imp id
    intro h
    rw [List.mem_toFinset, h.2]
    exact List.mem_map_of_mem hd
  have hcard : space.card ≤ declarations.length := by
    simpa using List.toFinset_card_le (declarations.map Declaration.lhs)
  exact saturate_closed hgrowing hspace (declarations.length + 1) (s := ∅)
    (fun A hA => absurd hA Std.TreeSet.not_mem_emptyc) (by omega)

/-- A declaration with a nullable body has a nullable left-hand side. -/
theorem mem_nullableNonterminals {declarations : List Declaration} {d : Declaration} (hd : d ∈ declarations)
    (hall : d.items.all (·.isNullable (nullableNonterminals declarations)) = true) :
    d.lhs ∈ nullableNonterminals declarations := by
  refine nullableRound_closed declarations d.lhs (Growing.sub_foldl growing_nullableVisit hd _ d.lhs ?_)
  rw [if_pos hall]
  exact mem_insert_iff.mpr (.inl rfl)

/-- The nullable nonterminals are the least set of that kind: what a body of optional items and nonterminals that have a
property passes on to its left-hand side holds of all of them. -/
theorem nullableNonterminals_induction {declarations : List Declaration} {P : Nonterminal → Prop}
    (h : ∀ d ∈ declarations,
      (∀ item ∈ d.items, item.optional = true ∨ ∃ A, item.symbol = .nonterminal A ∧ P A) → P d.lhs) :
    ∀ A ∈ nullableNonterminals declarations, P A := by
  refine forall_mem_saturate (fun d hd set hset A hA => ?_) _
    fun A hA => absurd hA Std.TreeSet.not_mem_emptyc
  rcases mem_insertIf hA with hold | ⟨hall, rfl⟩
  · exact hset A hold
  · refine h d hd fun item hitem => ?_
    have hnull := List.all_eq_true.mp hall item hitem
    refine (Bool.or_eq_true_iff.mp hnull).imp id fun hany => ?_
    obtain ⟨A, hsymbol, hmem⟩ := (Option.any_eq_true _ _).mp hany
    refine ⟨A, ?_, hset A (Std.TreeSet.contains_iff_mem.mp hmem)⟩
    exact Symbol.eq_nonterminal_of_nonterminal? hsymbol

/-- The items of a rule are nullable if its symbols are. -/
theorem all_isNullable_toDeclaration (nullable : Std.TreeSet Nonterminal) (rule : Rule) :
    rule.toDeclaration.items.all (·.isNullable nullable) = allNullable nullable rule.rhs := by
  simp [Rule.toDeclaration, allNullable, RuleItem.isNullable, Function.comp_def]

/-- A rule with a nullable body has a nullable left-hand side. -/
theorem mem_nullable_of_rule {rules : List Rule} {A : Nonterminal} {body : List Symbol}
    (hrule : ⟨A, body⟩ ∈ rules)
    (hall : allNullable (nullableNonterminals (rules.map Rule.toDeclaration)) body = true) :
    A ∈ nullableNonterminals (rules.map Rule.toDeclaration) :=
  mem_nullableNonterminals (List.mem_map_of_mem hrule) ((all_isNullable_toDeclaration _ ⟨A, body⟩).trans hall)

/-- What derives nothing consists of members of any set that is closed under the rules that derive nothing. -/
theorem Derives.allNullable_of_closed {lengths : TerminalId → Nat → Nat} {rules : Rule → Prop}
    {nullable : Std.TreeSet Nonterminal}
    (hclosed : ∀ {A body i j}, rules ⟨A, body⟩ → Derives lengths rules body i j →
      allNullable nullable body = true → A ∈ nullable)
    {symbols : List Symbol} {i j : Nat} (h : Derives lengths rules symbols i j) (hij : i = j) :
    allNullable nullable symbols = true := by
  induction h with
  | nil i => rfl
  | terminal hpos hrest _ =>
    have := hrest.le
    omega
  | nonterminal hrule hbody hrest ihBody ihRest =>
    have hle := hbody.le
    have hle' := hrest.le
    have hA := hclosed hrule hbody (ihBody (by omega))
    exact Bool.and_eq_true_iff.mpr ⟨Std.TreeSet.contains_iff_mem.mpr hA, ihRest (by omega)⟩

/-! ## What a sequence can begin with -/

section First

variable {nullable : Std.TreeSet Nonterminal}

theorem canBegin_mono {s s' : Std.TreeSet (Nonterminal × TerminalId)} (h : Sub s s') {symbols : List Symbol}
    {t : TerminalId} (hbegin : canBegin nullable s symbols t = true) :
    canBegin nullable s' symbols t = true := by
  induction symbols with
  | nil => exact hbegin
  | cons symbol rest ih =>
    cases symbol with
    | terminal u => exact hbegin
    | nonterminal A =>
      simp only [canBegin, Bool.or_eq_true, Bool.and_eq_true, Std.TreeSet.contains_iff_mem] at hbegin ⊢
      exact hbegin.imp (h (A, t)) fun hrest => ⟨hrest.1, ih hrest.2⟩

theorem growing_firstVisit (terminals : Nat) (rule : Rule) :
    Growing fun first => (List.range terminals).foldl
      (fun set t => if canBegin nullable first rule.rhs t then set.insert (rule.lhs, t) else set) first := by
  refine ⟨fun s a ha => mem_foldl_insertIf.mpr (.inl ha), fun s s' hsub a ha => ?_⟩
  refine mem_foldl_insertIf.mpr ((mem_foldl_insertIf.mp ha).imp (hsub a) ?_)
  rintro ⟨t, ht, hbegin, rfl⟩
  exact ⟨t, ht, canBegin_mono hsub hbegin, rfl⟩

/-- One more round adds nothing to the FIRST sets. -/
theorem firstRound_closed (terminals : Nat) (rules : List Rule) :
    let first := saturate Std.TreeSet.size (firstRound nullable terminals rules) (rules.length * terminals + 1) ∅
    Sub (firstRound nullable terminals rules first) first := by
  have hgrowing : Growing (firstRound nullable terminals rules) :=
    Growing.foldl (growing_firstVisit terminals) rules
  let space : Finset (Nonterminal × TerminalId) :=
    (rules.map Rule.lhs).toFinset ×ˢ Finset.range terminals
  have hspace : ∀ s, ∀ a ∈ firstRound nullable terminals rules s, a ∈ s ∨ a ∈ space := by
    apply foldl_within
    intro rule hrule s a ha
    apply (mem_foldl_insertIf.mp ha).imp id
    rintro ⟨t, ht, _, rfl⟩
    exact Finset.mem_product.mpr
      ⟨List.mem_toFinset.mpr (List.mem_map_of_mem hrule), Finset.mem_range.mpr (List.mem_range.mp ht)⟩
  have hcard : space.card ≤ rules.length * terminals := by
    rw [Finset.card_product, Finset.card_range]
    exact Nat.mul_le_mul_right _ (by simpa using List.toFinset_card_le (rules.map Rule.lhs))
  exact saturate_closed hgrowing hspace (rules.length * terminals + 1) (s := ∅)
    (fun a ha => absurd ha Std.TreeSet.not_mem_emptyc) (by omega)

/-- A terminal that can begin the body of a rule is in the FIRST set of its left-hand side. -/
theorem mem_saturate_firstRound {terminals : Nat} {rules : List Rule} {rule : Rule} (hrule : rule ∈ rules)
    {t : TerminalId} (ht : t < terminals)
    (hbegin : canBegin nullable (saturate Std.TreeSet.size (firstRound nullable terminals rules)
      (rules.length * terminals + 1) ∅) rule.rhs t = true) :
    (rule.lhs, t) ∈ saturate Std.TreeSet.size (firstRound nullable terminals rules)
      (rules.length * terminals + 1) ∅ := by
  refine firstRound_closed terminals rules _ (Growing.sub_foldl (growing_firstVisit terminals) hrule _ _ ?_)
  exact mem_foldl_insertIf.mpr (.inr ⟨t, List.mem_range.mpr ht, hbegin, rfl⟩)

end First

/-! ## What can follow a nonterminal -/

section Follow

variable {nullable : Std.TreeSet Nonterminal} {first : Std.TreeSet (Nonterminal × TerminalId)}
  {terminals : Nat} {lhs : Nonterminal}

/-- The end of the input and the registered terminals. -/
def followers (terminals : Nat) : List Follower :=
  .endOfInput :: (List.range terminals).map Follower.terminal

/-- What one occurrence of `A` before `rest` adds to FOLLOW. -/
def followOccurrence (nullable : Std.TreeSet Nonterminal) (first : Std.TreeSet (Nonterminal × TerminalId))
    (terminals : Nat) (lhs A : Nonterminal) (rest : List Symbol) (follow : Std.TreeSet (Nonterminal × Follower)) :
    Std.TreeSet (Nonterminal × Follower) :=
  let fromRest := (List.range terminals).foldl
    (fun set t => if canBegin nullable first rest t then set.insert (A, .terminal t) else set) follow
  if allNullable nullable rest then
    (followers terminals).foldl
      (fun set f => if follow.contains (lhs, f) then set.insert (A, f) else set) fromRest
  else fromRest

theorem followBody_nonterminal (A : Nonterminal) (rest : List Symbol)
    (follow : Std.TreeSet (Nonterminal × Follower)) :
    followBody nullable first terminals lhs (.nonterminal A :: rest) follow =
      followBody nullable first terminals lhs rest
        (followOccurrence nullable first terminals lhs A rest follow) := rfl

theorem mem_followOccurrence {A : Nonterminal} {rest : List Symbol}
    {follow : Std.TreeSet (Nonterminal × Follower)} {a : Nonterminal × Follower} :
    a ∈ followOccurrence nullable first terminals lhs A rest follow ↔
      a ∈ follow ∨
      (∃ t < terminals, canBegin nullable first rest t = true ∧ a = (A, .terminal t)) ∨
      (allNullable nullable rest = true ∧ ∃ f ∈ followers terminals, (lhs, f) ∈ follow ∧ a = (A, f)) := by
  unfold followOccurrence
  cases allNullable nullable rest with
  | true =>
    simp only [if_true, mem_foldl_insertIf]
    simp only [List.mem_range, Std.TreeSet.contains_iff_mem, true_and, or_assoc]
  | false =>
    simp only [Bool.false_eq_true, if_false, mem_foldl_insertIf, List.mem_range, false_and, or_false]

theorem growing_followOccurrence (A : Nonterminal) (rest : List Symbol) :
    Growing (followOccurrence nullable first terminals lhs A rest) := by
  refine ⟨fun s a ha => mem_followOccurrence.mpr (.inl ha), fun s s' hsub a ha => ?_⟩
  refine mem_followOccurrence.mpr ((mem_followOccurrence.mp ha).imp (hsub a) (Or.imp id ?_))
  rintro ⟨hall, f, hf, hmem, rfl⟩
  exact ⟨hall, f, hf, hsub _ hmem, rfl⟩

theorem growing_followBody (symbols : List Symbol) :
    Growing (followBody nullable first terminals lhs symbols) := by
  induction symbols with
  | nil => exact ⟨Sub.refl, fun _ _ hsub => hsub⟩
  | cons symbol rest ih =>
    cases symbol with
    | terminal t => exact ih
    | nonterminal A =>
      have hstep : Growing (followOccurrence nullable first terminals lhs A rest) :=
        growing_followOccurrence A rest
      refine ⟨fun s => ?_, fun s s' hsub => ?_⟩
      · rw [followBody_nonterminal]
        exact (hstep.grow s).trans (ih.grow _)
      · rw [followBody_nonterminal, followBody_nonterminal]
        exact ih.mono _ _ (hstep.mono s s' hsub)

/-- Every occurrence in a body makes its contribution. -/
theorem sub_followBody {before after : List Symbol} {A : Nonterminal}
    (follow : Std.TreeSet (Nonterminal × Follower)) :
    Sub (followOccurrence nullable first terminals lhs A after follow)
      (followBody nullable first terminals lhs (before ++ .nonterminal A :: after) follow) := by
  induction before generalizing follow with
  | nil =>
    rw [List.nil_append, followBody_nonterminal]
    exact (growing_followBody after).grow _
  | cons symbol before ih =>
    cases symbol with
    | terminal t => exact ih follow
    | nonterminal B =>
      rw [List.cons_append, followBody_nonterminal]
      exact ((growing_followOccurrence A after).mono _ _ ((growing_followOccurrence B _).grow follow)).trans
        (ih _)

theorem followBody_within (symbols : List Symbol) (s : Std.TreeSet (Nonterminal × Follower)) :
    ∀ a ∈ followBody nullable first terminals lhs symbols s,
      a ∈ s ∨ (Symbol.nonterminal a.1 ∈ symbols ∧ a.2 ∈ followers terminals) := by
  induction symbols generalizing s with
  | nil => exact fun a ha => .inl ha
  | cons symbol rest ih =>
    intro a ha
    cases symbol with
    | terminal t => exact (ih s a ha).imp id fun h => ⟨List.mem_cons_of_mem _ h.1, h.2⟩
    | nonterminal A =>
      rw [followBody_nonterminal] at ha
      rcases ih _ a ha with hocc | hrest
      · rcases mem_followOccurrence.mp hocc with hold | ⟨t, ht, _, rfl⟩ | ⟨_, f, hf, _, rfl⟩
        · exact .inl hold
        · refine .inr ⟨List.mem_cons_self, List.mem_cons_of_mem _ ?_⟩
          exact List.mem_map_of_mem (List.mem_range.mpr ht)
        · exact .inr ⟨List.mem_cons_self, hf⟩
      · exact .inr ⟨List.mem_cons_of_mem _ hrest.1, hrest.2⟩

theorem length_bodyNonterminals_le (rules : List Rule) :
    (rules.flatMap Rule.bodyNonterminals).length ≤ rules.foldl (fun sum rule => sum + rule.rhs.length) 0 := by
  have hfold : ∀ sum : Nat, sum + (rules.flatMap Rule.bodyNonterminals).length ≤
      rules.foldl (fun sum rule => sum + rule.rhs.length) sum := by
    induction rules with
    | nil => exact fun sum => Nat.le_refl sum
    | cons rule rules ih =>
      intro sum
      have hle : rule.bodyNonterminals.length ≤ rule.rhs.length := List.length_filterMap_le _ _
      have hrest := ih (sum + rule.rhs.length)
      rw [List.flatMap_cons, List.length_append, List.foldl_cons]
      omega
  simpa using hfold 0

theorem growing_followVisit (rule : Rule) :
    Growing fun follow => followBody nullable first terminals rule.lhs rule.rhs follow :=
  growing_followBody rule.rhs

/-- One more round adds nothing to the FOLLOW sets. -/
theorem followRound_closed (rules : List Rule) (start : Nonterminal) :
    let follow := saturate Std.TreeSet.size (followRound nullable first terminals rules)
      (rules.foldl (fun sum rule => sum + rule.rhs.length) 0 * (terminals + 1) + 1)
      (Std.TreeSet.insert ∅ (start, .endOfInput))
    Sub (followRound nullable first terminals rules follow) follow := by
  let space : Finset (Nonterminal × Follower) :=
    insert (start, .endOfInput)
      ((rules.flatMap Rule.bodyNonterminals).toFinset ×ˢ (followers terminals).toFinset)
  have hspace : ∀ s, ∀ a ∈ followRound nullable first terminals rules s, a ∈ s ∨ a ∈ space := by
    apply foldl_within
    intro rule hrule s a ha
    refine (followBody_within rule.rhs s a ha).imp id fun ⟨hsymbol, hfollower⟩ => ?_
    refine Finset.mem_insert_of_mem (Finset.mem_product.mpr ⟨?_, List.mem_toFinset.mpr hfollower⟩)
    exact List.mem_toFinset.mpr
      (List.mem_flatMap.mpr ⟨rule, hrule, List.mem_filterMap.mpr ⟨_, hsymbol, rfl⟩⟩)
  have hcard : space.card ≤
      rules.foldl (fun sum rule => sum + rule.rhs.length) 0 * (terminals + 1) + 1 := by
    refine (Finset.card_insert_le _ _).trans (Nat.succ_le_succ ?_)
    rw [Finset.card_product]
    apply Nat.mul_le_mul ((List.toFinset_card_le _).trans (length_bodyNonterminals_le rules))
    simpa [followers] using List.toFinset_card_le (followers terminals)
  have hsize : (Std.TreeSet.insert (∅ : Std.TreeSet (Nonterminal × Follower)) (start, .endOfInput)).size = 1 := by
    rw [Std.TreeSet.size_insert]
    simp
  have hstart : ∀ a ∈ Std.TreeSet.insert (∅ : Std.TreeSet (Nonterminal × Follower)) (start, .endOfInput),
      a ∈ space := by
    intro a ha
    rcases mem_insert_iff.mp ha with rfl | hempty
    · exact Finset.mem_insert_self _ _
    · exact absurd hempty Std.TreeSet.not_mem_emptyc
  exact saturate_closed (Growing.foldl growing_followVisit rules) hspace
    (rules.foldl (fun sum rule => sum + rule.rhs.length) 0 * (terminals + 1) + 1) hstart (by omega)

/-- FOLLOW is closed under the contribution of every occurrence in every rule. -/
theorem sub_saturate_followRound {rules : List Rule} {start A B : Nonterminal} {before after : List Symbol}
    (hrule : (⟨A, before ++ .nonterminal B :: after⟩ : Rule) ∈ rules) :
    let follow := saturate Std.TreeSet.size (followRound nullable first terminals rules)
      (rules.foldl (fun sum rule => sum + rule.rhs.length) 0 * (terminals + 1) + 1)
      (Std.TreeSet.insert ∅ (start, .endOfInput))
    Sub (followOccurrence nullable first terminals A B after follow) follow := by
  intro follow
  have hround : Sub (followBody nullable first terminals A (before ++ .nonterminal B :: after) follow)
      (followRound nullable first terminals rules follow) :=
    Growing.sub_foldl growing_followVisit hrule follow
  exact ((sub_followBody follow).trans hround).trans (followRound_closed rules start)

end Follow

/-! ## The analysis of a grammar -/

namespace Grammar

theorem le_foldl_bound (terminals : List TerminalId) (bound : Nat) :
    bound ≤ terminals.foldl (fun bound t => max bound (t + 1)) bound ∧
      ∀ t ∈ terminals, t < terminals.foldl (fun bound t => max bound (t + 1)) bound := by
  induction terminals generalizing bound with
  | nil => exact ⟨Nat.le_refl bound, by simp⟩
  | cons t terminals ih =>
    obtain ⟨hbound, hall⟩ := ih (max bound (t + 1))
    refine ⟨Nat.le_trans (Nat.le_max_left _ _) hbound, List.forall_mem_cons.mpr ⟨?_, hall⟩⟩
    exact Nat.lt_of_lt_of_le (Nat.lt_succ_self t) (Nat.le_trans (Nat.le_max_right _ _) hbound)

theorem lt_terminalBound {g : Grammar α} {t : TerminalId} (h : t < g.terminals.size) : t < g.terminalBound :=
  Nat.lt_of_lt_of_le h (le_foldl_bound _ _).1

theorem lt_terminalBound_of_mem {g : Grammar α} {rule : Rule} (hrule : rule ∈ g.rules) {t : TerminalId}
    (ht : .terminal t ∈ rule.rhs) : t < g.terminalBound := by
  apply (le_foldl_bound _ _).2
  exact List.mem_flatMap.mpr ⟨rule, Array.mem_toList_iff.mpr hrule, List.mem_filterMap.mpr ⟨_, ht, rfl⟩⟩

/-- The rules that a mask marks, in their order. -/
def includedRules (g : Grammar α) (included : Array Bool) : List Rule :=
  ((List.range g.rules.size).filter fun id => included.getD id false).map g.rule

theorem mem_includedRules {g : Grammar α} {included : Array Bool} {rule : Rule} :
    rule ∈ g.includedRules included ↔ g.Includes included rule := by
  simp only [includedRules, Includes, List.mem_map, List.mem_filter, List.mem_range, and_assoc]

end Grammar

/-- Sets that are closed under the rules, for the terminals below `bound`. -/
structure LookaheadClosed (rules : Rule → Prop) (bound : Nat) (nullable : Std.TreeSet Nonterminal)
    (first : Std.TreeSet (Nonterminal × TerminalId)) (follow : Std.TreeSet (Nonterminal × Follower)) : Prop where
  nullable_mem : ∀ {A body}, rules ⟨A, body⟩ → allNullable nullable body = true → A ∈ nullable
  first_mem : ∀ {A body t}, rules ⟨A, body⟩ → t < bound → canBegin nullable first body t = true → (A, t) ∈ first
  follow_sub : ∀ {A B before after}, rules ⟨A, before ++ .nonterminal B :: after⟩ →
    Sub (followOccurrence nullable first bound A B after follow) follow
  terminal_lt : ∀ {A body t}, rules ⟨A, body⟩ → .terminal t ∈ body → t < bound

namespace Analysis

variable (g : Grammar α) (included : Array Bool) (start : Nonterminal)

/-- No set would grow in one more round over the marked rules: the rounds did not end for lack of fuel. -/
structure Settled (a : Analysis) : Prop where
  nullable : (nullableRound ((g.includedRules included).map Rule.toDeclaration) a.nullable).size = a.nullable.size
  first : (firstRound a.nullable g.terminalBound (g.includedRules included) a.first).size = a.first.size
  follow : (followRound a.nullable a.first g.terminalBound (g.includedRules included) a.follow).size = a.follow.size

theorem settled_compute : (compute g included start).Settled g included where
  nullable := (nullableRound_closed _).size_le.antisymm
    ((Growing.foldl growing_nullableVisit _).grow _).size_le
  first := (firstRound_closed _ _).size_le.antisymm
    ((Growing.foldl (growing_firstVisit _) _).grow _).size_le
  follow := (followRound_closed _ start).size_le.antisymm
    ((Growing.foldl growing_followVisit _).grow _).size_le

theorem lookaheadClosed_compute :
    LookaheadClosed (g.Includes included) g.terminalBound (compute g included start).nullable
      (compute g included start).first (compute g included start).follow where
  nullable_mem hrule hall := mem_nullable_of_rule (Grammar.mem_includedRules.mpr hrule) hall
  first_mem hrule ht hbegin := mem_saturate_firstRound (Grammar.mem_includedRules.mpr hrule) ht hbegin
  follow_sub hrule := sub_saturate_followRound (Grammar.mem_includedRules.mpr hrule)
  terminal_lt hrule ht := by
    obtain ⟨id, hid, _, heq⟩ := hrule
    refine Grammar.lt_terminalBound_of_mem (Grammar.rule_mem hid) ?_
    rw [heq]
    exact ht

variable {g included start} in
theorem ruleNullable_compute {id : RuleId} (hid : id < g.rules.size) :
    (compute g included start).ruleNullable.getD id false =
      allNullable (compute g included start).nullable (g.rule id).rhs := by
  simp [compute, Grammar.rule, Array.getD_eq_getD_getElem?, hid]

variable {g included start} in
theorem mem_ruleFirst_compute {id : RuleId} (hid : id < g.rules.size) {t : TerminalId} :
    t ∈ (compute g included start).ruleFirst.getD id [] ↔
      t < g.terminalBound ∧ canBegin (compute g included start).nullable (compute g included start).first
        (g.rule id).rhs t = true := by
  simp [compute, Grammar.rule, Array.getD_eq_getD_getElem?, hid]

theorem start_mem_follow_compute : (start, .endOfInput) ∈ (compute g included start).follow :=
  sub_saturate (Growing.foldl growing_followVisit _) _ _ _ (mem_insert_iff.mpr (.inl rfl))

end Analysis

/-! ## The analysis of a prepared grammar -/

namespace Prepared

variable {p : Prepared α} {A B : Nonterminal} {id : RuleId}

namespace Regular

theorem lookaheadClosed (hp : p.Regular) : LookaheadClosed p.IsUseful p.grammar.terminalBound
    p.analysis.nullable p.analysis.first p.analysis.follow := by
  rw [hp.analysis_eq]
  exact Analysis.lookaheadClosed_compute p.grammar p.useful p.start

theorem isUseful_rule (hp : p.Regular) (hid : id ∈ p.rulesFor A) : p.IsUseful ⟨A, (p.rule id).rhs⟩ := by
  obtain ⟨hlt, huseful, hlhs⟩ := hp.mem_rulesFor.mp hid
  refine ⟨id, hlt, huseful, ?_⟩
  rw [← hlhs]

theorem mem_nullable (hp : p.Regular) (hid : id ∈ p.rulesFor A)
    (hall : allNullable p.analysis.nullable (p.rule id).rhs = true) : A ∈ p.analysis.nullable :=
  hp.lookaheadClosed.nullable_mem (hp.isUseful_rule hid) hall

theorem mem_first (hp : p.Regular) (hid : id ∈ p.rulesFor A) {t : TerminalId}
    (ht : t < p.grammar.terminals.size)
    (hbegin : canBegin p.analysis.nullable p.analysis.first (p.rule id).rhs t = true) :
    (A, t) ∈ p.analysis.first :=
  hp.lookaheadClosed.first_mem (hp.isUseful_rule hid) (Grammar.lt_terminalBound ht) hbegin

theorem start_mem_follow (hp : p.Regular) : (p.start, .endOfInput) ∈ p.analysis.follow := by
  rw [hp.analysis_eq]
  exact Analysis.start_mem_follow_compute p.grammar p.useful p.start

theorem mem_follow (hp : p.Regular) (hid : id ∈ p.rulesFor A) {before after : List Symbol}
    (hrhs : (p.rule id).rhs = before ++ .nonterminal B :: after) {f : Follower}
    (hf : (B, f) ∈ followOccurrence p.analysis.nullable p.analysis.first p.grammar.terminalBound A B after
      p.analysis.follow) : (B, f) ∈ p.analysis.follow :=
  hp.lookaheadClosed.follow_sub (hrhs ▸ hp.isUseful_rule hid) _ hf

theorem ruleNullable_eq (hp : p.Regular) (hid : id < p.grammar.rules.size) :
    p.analysis.ruleNullable.getD id false = allNullable p.analysis.nullable (p.rule id).rhs := by
  rw [hp.analysis_eq]
  exact Analysis.ruleNullable_compute hid

theorem mem_ruleFirst (hp : p.Regular) (hid : id < p.grammar.rules.size) {t : TerminalId}
    (ht : t < p.grammar.terminals.size)
    (hbegin : canBegin p.analysis.nullable p.analysis.first (p.rule id).rhs t = true) :
    t ∈ p.analysis.ruleFirst.getD id [] := by
  rw [hp.analysis_eq] at hbegin ⊢
  exact (Analysis.mem_ruleFirst_compute hid).mpr ⟨Grammar.lt_terminalBound ht, hbegin⟩

end Regular

/-! ## Derivations pass the tests -/

variable [DecidableEq α] {tokens : Array α} {symbols : List Symbol} {i j : Nat}

namespace Regular

/-- What derives nothing consists of nullable nonterminals. -/
theorem allNullable_of_derives (hp : p.Regular) (h : p.DerivesSpan tokens symbols i j) (hij : i = j) :
    allNullable p.analysis.nullable symbols = true := by
  refine Derives.allNullable_of_closed (fun hrule hbody hall => ?_) h hij
  obtain ⟨id, hid, heq⟩ := hp.exists_rule_of_derives hrule hbody
  exact hp.mem_nullable hid (heq ▸ hall)

/-- What derives something can begin with a terminal that matches there. -/
theorem canBegin_of_derives (hp : p.Regular) (h : p.DerivesSpan tokens symbols i j) (hij : i < j) :
    ∃ t, canBegin p.analysis.nullable p.analysis.first symbols t = true ∧
      0 < p.matchLength t tokens i := by
  unfold DerivesSpan at h
  induction h with
  | nil i => exact absurd hij (Nat.lt_irrefl i)
  | @terminal t rest i j hpos _ _ => exact ⟨t, by simp [canBegin], hpos⟩
  | @nonterminal A body rest i k j hrule hbody hrest ihBody ihRest =>
    obtain ⟨id, hid, heq⟩ := hp.exists_rule_of_derives hrule hbody
    rcases Nat.eq_or_lt_of_le hbody.le with hempty | hlt
    · -- the nonterminal derives nothing, and the rest begins
      subst hempty
      obtain ⟨t, hbegin, hpos⟩ := ihRest hij
      have hnull : A ∈ p.analysis.nullable := by
        apply hp.mem_nullable hid
        rw [heq]
        exact hp.allNullable_of_derives hbody rfl
      refine ⟨t, ?_, hpos⟩
      simp only [canBegin, Bool.or_eq_true, Bool.and_eq_true, Std.TreeSet.contains_iff_mem]
      exact .inr ⟨hnull, hbegin⟩
    · obtain ⟨t, hbegin, hpos⟩ := ihBody hlt
      refine ⟨t, ?_, hpos⟩
      simp only [canBegin, Bool.or_eq_true, Std.TreeSet.contains_iff_mem]
      refine .inl (hp.mem_first hid (accepts_of_matchLength_pos hpos).1 ?_)
      rw [heq]
      exact hbegin

theorem firstAllows_of_derives (hp : p.Regular) (hid : id < p.grammar.rules.size)
    (h : p.DerivesSpan tokens (p.rule id).rhs i j) (hij : i < j) : p.firstAllows id tokens i = true := by
  obtain ⟨t, hbegin, hpos⟩ := hp.canBegin_of_derives h hij
  obtain ⟨ht, atom, hatom, haccepts⟩ := accepts_of_matchLength_pos hpos
  rw [Prepared.firstAllows, hatom]
  exact List.any_eq_true.mpr ⟨t, hp.mem_ruleFirst hid ht hbegin, haccepts⟩

/-- A rule whose body derives a span can start where the span does. -/
theorem canStart_of_derives (hp : p.Regular) (hid : id < p.grammar.rules.size)
    (h : p.DerivesSpan tokens (p.rule id).rhs i j) : p.canStart id tokens i = true := by
  rw [Prepared.canStart, Bool.or_eq_true, hp.ruleNullable_eq hid]
  rcases Nat.eq_or_lt_of_le h.le with hempty | hlt
  · exact .inl (hp.allNullable_of_derives h hempty)
  · exact .inr (hp.firstAllows_of_derives hid h hlt)

theorem followAllows_of_mem {f : Follower} {position : Nat} (hf : (A, f) ∈ p.analysis.follow)
    (hfollower : f = .endOfInput ∧ position = tokens.size ∨
      ∃ t, f = .terminal t ∧ 0 < p.matchLength t tokens position) :
    p.followAllows A tokens position = true := by
  rw [Prepared.followAllows, Bool.or_eq_true]
  rcases hfollower with ⟨rfl, rfl⟩ | ⟨t, rfl, hpos⟩
  · refine .inl (Bool.and_eq_true_iff.mpr ⟨?_, by simp⟩)
    exact Std.TreeSet.contains_iff_mem.mpr hf
  · obtain ⟨ht, atom, hatom, haccepts⟩ := accepts_of_matchLength_pos hpos
    right
    rw [hatom]
    refine List.any_eq_true.mpr ⟨t, List.mem_range.mpr ht, Bool.and_eq_true_iff.mpr ⟨?_, haccepts⟩⟩
    exact Std.TreeSet.contains_iff_mem.mpr hf

end Regular
end Prepared
end ContextFree
