-- SUMMARY: What closing a grammar keeps of the spans that its declarations derive.
import ContextFree.Proofs.Lookahead

/-!
# Closing and the declared spans

Read with each optional item free to match nothing, the declarations derive certain spans. The closed rules never derive
others. They derive all of them if and only if every nonterminal that counts as nullable when the grammar is closed
still derives nothing by the closed rules: an optional item of such a nonterminal is kept in all bodies, so what would
match nothing there has to do so by a rule. A declaration whose items are all optional and that refers to itself
can lose this.
-/
namespace ContextFree

variable {α : Type}

/-! ## Bodies -/

/-- A body that expanding leaves: each item is kept, or left out if it is optional and its symbol is not in `nullable`. -/
inductive Expands (nullable : Std.TreeSet Nonterminal) : List RuleItem → List Symbol → Prop where
  | nil : Expands nullable [] []
  | keep {item : RuleItem} {items : List RuleItem} {symbols : List Symbol} :
      Expands nullable items symbols → Expands nullable (item :: items) (item.symbol :: symbols)
  | skip {item : RuleItem} {items : List RuleItem} {symbols : List Symbol} :
      item.optional = true → item.symbol.nonterminal?.any nullable.contains = false →
      Expands nullable items symbols → Expands nullable (item :: items) symbols

/-- What one item makes of the bodies so far. -/
theorem mem_expandItem {nullable : Std.TreeSet Nonterminal} {item : RuleItem} {bodies : List (List Symbol)}
    {body : List Symbol} :
    (body ∈ if item.optional && !item.symbol.nonterminal?.any nullable.contains then
        bodies ++ bodies.map (· ++ [item.symbol]) else bodies.map (· ++ [item.symbol])) ↔
      (∃ front ∈ bodies, body = front ++ [item.symbol]) ∨
      (item.optional = true ∧ item.symbol.nonterminal?.any nullable.contains = false ∧ body ∈ bodies) := by
  cases item.optional <;> cases item.symbol.nonterminal?.any nullable.contains <;>
    simp [eq_comm, or_comm]

theorem mem_foldl_expansions {nullable : Std.TreeSet Nonterminal} {items : List RuleItem}
    {bodies : List (List Symbol)} {body : List Symbol} :
    body ∈ items.foldl
      (fun bodies item =>
        let longer := bodies.map (· ++ [item.symbol])
        if item.optional && !item.symbol.nonterminal?.any nullable.contains then bodies ++ longer
        else longer)
      bodies ↔
    ∃ front ∈ bodies, ∃ back, Expands nullable items back ∧ body = front ++ back := by
  induction items generalizing bodies with
  | nil =>
    refine ⟨fun h => ⟨body, h, [], .nil, (List.append_nil body).symm⟩, ?_⟩
    rintro ⟨front, hfront, back, hback, rfl⟩
    cases hback
    simpa using hfront
  | cons item items ih =>
    rw [List.foldl_cons, ih]
    constructor
    · rintro ⟨front, hfront, back, hback, rfl⟩
      rcases mem_expandItem.mp hfront with ⟨front, hmem, rfl⟩ | ⟨hoptional, hkept, hmem⟩
      · exact ⟨front, hmem, item.symbol :: back, .keep hback, List.append_assoc front [item.symbol] back⟩
      · exact ⟨front, hmem, back, .skip hoptional hkept hback, rfl⟩
    · rintro ⟨front, hfront, back, hback, rfl⟩
      cases hback with
      | @keep _ _ back hback =>
        refine ⟨front ++ [item.symbol], mem_expandItem.mpr (.inl ⟨front, hfront, rfl⟩), back, hback, ?_⟩
        exact (List.append_assoc front [item.symbol] back).symm
      | skip hoptional hkept hback =>
        exact ⟨front, mem_expandItem.mpr (.inr ⟨hoptional, hkept, hfront⟩), back, hback, rfl⟩

theorem mem_expansions {nullable : Std.TreeSet Nonterminal} {items : List RuleItem} {body : List Symbol} :
    body ∈ expansions nullable items ↔ Expands nullable items body := by
  rw [expansions, mem_foldl_expansions]
  simp

theorem Expands.reads {nullable : Std.TreeSet Nonterminal} {items : List RuleItem} {body : List Symbol}
    (h : Expands nullable items body) : Reads items body := by
  induction h with
  | nil => exact .nil
  | keep _ ih => exact .keep ih
  | skip hoptional _ _ ih => exact .skip hoptional ih

/-- A reading that derives a span has a body among the expansions that does so too, if the symbols that are kept for being
nullable derive nothing. -/
theorem Reads.exists_expands {lengths : TerminalId → Nat → Nat} {rules : Rule → Prop}
    {nullable : Std.TreeSet Nonterminal} (hnull : ∀ A ∈ nullable, ∀ i, Derives lengths rules [.nonterminal A] i i)
    {items : List RuleItem} {symbols : List Symbol} {i j : Nat} (h : Reads items symbols)
    (hderives : Derives lengths rules symbols i j) :
    ∃ body, Expands nullable items body ∧ Derives lengths rules body i j := by
  induction h generalizing i with
  | nil => exact ⟨[], .nil, hderives⟩
  | @keep item items symbols _ ih =>
    have hsplit : Derives lengths rules ([item.symbol] ++ symbols) i j := hderives
    obtain ⟨k, hfirst, hrest⟩ := hsplit.of_append
    obtain ⟨body, hbody, hderives⟩ := ih hrest
    exact ⟨item.symbol :: body, .keep hbody, hfirst.append hderives⟩
  | @skip item items symbols hoptional _ ih =>
    obtain ⟨body, hbody, hderives⟩ := ih hderives
    cases hkept : item.symbol.nonterminal?.any nullable.contains with
    | false => exact ⟨body, .skip hoptional hkept hbody, hderives⟩
    | true =>
      obtain ⟨A, hsymbol, hA⟩ := (Option.any_eq_true _ _).mp hkept
      have hempty := hnull A (Std.TreeSet.contains_iff_mem.mp hA) i
      rw [← Symbol.eq_nonterminal_of_nonterminal? hsymbol] at hempty
      exact ⟨item.symbol :: body, .keep hbody, hempty.append hderives⟩

theorem Reads.eq_rhs {rule : Rule} {body : List Symbol} (h : Reads rule.toDeclaration.items body) :
    body = rule.rhs := by
  obtain ⟨lhs, rhs⟩ := rule
  simp only [Rule.toDeclaration] at h
  induction rhs generalizing body with
  | nil =>
    cases h
    rfl
  | cons symbol rhs ih =>
    cases h with
    | keep h => rw [ih h]
    | skip hoptional => cases hoptional

/-- Items that are optional or derive nothing have a reading that derives nothing. -/
theorem exists_reads_derives {lengths : TerminalId → Nat → Nat} {rules : Rule → Prop} {i : Nat}
    {items : List RuleItem} (h : ∀ item ∈ items, item.optional = true ∨
      ∃ A, item.symbol = .nonterminal A ∧ Derives lengths rules [.nonterminal A] i i) :
    ∃ body, Reads items body ∧ Derives lengths rules body i i := by
  induction items with
  | nil => exact ⟨[], .nil, .nil i⟩
  | cons item items ih =>
    obtain ⟨body, hreads, hbody⟩ := ih fun item hitem => h item (List.mem_cons_of_mem _ hitem)
    rcases h item List.mem_cons_self with hoptional | ⟨A, hsymbol, hA⟩
    · exact ⟨body, .skip hoptional hreads, hbody⟩
    · rw [← hsymbol] at hA
      exact ⟨item.symbol :: body, .keep hreads, hA.append hbody⟩

/-- A nonterminal that counts as nullable derives nothing by the readings of the declarations. -/
theorem derives_of_mem_nullable {lengths : TerminalId → Nat → Nat} {rules : Rule → Prop}
    {declarations : List Declaration}
    (hrules : ∀ d ∈ declarations, ∀ body, Reads d.items body → rules ⟨d.lhs, body⟩) {A : Nonterminal}
    (hA : A ∈ nullableNonterminals declarations) (i : Nat) : Derives lengths rules [.nonterminal A] i i := by
  refine nullableNonterminals_induction (P := fun A => Derives lengths rules [.nonterminal A] i i)
    (fun d hd hitems => ?_) A hA
  obtain ⟨body, hreads, hbody⟩ := exists_reads_derives hitems
  exact .nonterminal (hrules d hd body hreads) hbody (.nil i)

/-! ## Closed rules -/

namespace Grammar

/-- The rules that closing makes of the declarations. -/
def ExpandsTo (g : Grammar α) (rule : Rule) : Prop :=
  ∃ d ∈ g.declared, d.lhs = rule.lhs ∧ Expands (nullableNonterminals g.declared.toList) d.items rule.rhs

theorem mem_pushRule {g : Grammar α} {rule rule' : Rule} :
    rule ∈ (g.pushRule rule').rules ↔ rule ∈ g.rules ∨ rule = rule' := by
  unfold pushRule
  split
  · rename_i hmem
    refine ⟨.inl, fun h => h.elim id fun heq => ?_⟩
    rw [heq]
    exact Array.contains_iff_mem.mp hmem
  · exact Array.mem_push

theorem declared_pushRule (g : Grammar α) (rule : Rule) : (g.pushRule rule).declared = g.declared := by
  unfold pushRule
  split <;> rfl

/-- Pushing the bodies of one declaration. -/
theorem mem_foldl_pushRule {lhs : Nonterminal} {bodies : List (List Symbol)} {g : Grammar α} {rule : Rule} :
    rule ∈ (bodies.foldl (fun g rhs => g.pushRule ⟨lhs, rhs⟩) g).rules ↔
      rule ∈ g.rules ∨ (lhs = rule.lhs ∧ rule.rhs ∈ bodies) := by
  induction bodies generalizing g with
  | nil => simp
  | cons body bodies ih =>
    rw [List.foldl_cons, ih, mem_pushRule, or_assoc, List.mem_cons]
    refine or_congr_right ⟨?_, ?_⟩
    · rintro (rfl | ⟨hlhs, hmem⟩)
      · exact ⟨rfl, .inl rfl⟩
      · exact ⟨hlhs, .inr hmem⟩
    · rintro ⟨rfl, rfl | hmem⟩
      · exact .inl rfl
      · exact .inr ⟨rfl, hmem⟩

/-- Pushing the expansions of all declarations. -/
theorem mem_foldl_declarations {nullable : Std.TreeSet Nonterminal} {declarations : List Declaration}
    {g : Grammar α} {rule : Rule} :
    rule ∈ (declarations.foldl (fun g d =>
        (expansions nullable d.items).foldl (fun g rhs => g.pushRule ⟨d.lhs, rhs⟩) g) g).rules ↔
      rule ∈ g.rules ∨ ∃ d ∈ declarations, d.lhs = rule.lhs ∧ Expands nullable d.items rule.rhs := by
  induction declarations generalizing g with
  | nil => simp
  | cons d declarations ih =>
    rw [List.foldl_cons, ih, mem_foldl_pushRule, mem_expansions, or_assoc]
    simp only [List.mem_cons, exists_eq_or_imp]

theorem declared_close (g : Grammar α) : g.close.declared = g.declared := by
  unfold close
  split
  · rfl
  · simp only [← Array.foldl_toList]
    refine List.foldlRecOn (motive := fun g' : Grammar α => g'.declared = g.declared) _ _ rfl fun g' hg' d _ => ?_
    refine List.foldlRecOn (motive := fun g' : Grammar α => g'.declared = g.declared) _ _ hg' fun g' hg' body _ => ?_
    exact (declared_pushRule g' _).trans hg'

theorem closed_close (g : Grammar α) : g.close.closed = true := by
  unfold close
  split
  · assumption
  · rfl

/-- What a closed grammar has for rules, and that an open one has none. -/
structure Expanded (g : Grammar α) : Prop where
  rules_eq : g.closed = false → g.rules = #[]
  mem_rules : g.closed = true → ∀ rule, rule ∈ g.rules ↔ g.ExpandsTo rule

theorem Expanded.mem_close {g : Grammar α} (h : g.Expanded) {rule : Rule} :
    rule ∈ g.close.rules ↔ g.ExpandsTo rule := by
  unfold close
  cases hclosed : g.closed with
  | true => exact h.mem_rules hclosed rule
  | false =>
    have hrules := h.rules_eq hclosed
    simp only [Bool.false_eq_true, if_false, ← Array.foldl_toList]
    rw [mem_foldl_declarations, hrules]
    simp [ExpandsTo]

theorem Built.expanded [DecidableEq α] {g : Grammar α} (h : g.Built) : g.Expanded := by
  refine h.core_induction (P := Expanded) ?_ ?_ ?_ ?_
  · exact ⟨fun _ => rfl, fun hclosed => by cases hclosed⟩
  · intro g g' hg hdeclared hrules _ hclosed
    refine ⟨fun hopen => ?_, fun hclosed' rule => ?_⟩
    · rw [hrules, hg.rules_eq (hclosed.symm.trans hopen)]
    · rw [hrules, hg.mem_rules (hclosed.symm.trans hclosed'), ExpandsTo, ExpandsTo, hdeclared]
  · intro g d hopen hg
    exact ⟨hg.rules_eq, fun hclosed => absurd (hopen.symm.trans hclosed) Bool.false_ne_true⟩
  · intro g hg
    refine ⟨fun hopen => absurd (hopen.symm.trans g.closed_close) Bool.false_ne_true, fun _ rule => ?_⟩
    rw [hg.mem_close, ExpandsTo, ExpandsTo, declared_close]

/-! ## Spans -/

/-- Whether the nonterminals that count as nullable when `g` is closed are so by the closed rules. -/
def keepsNullables (g : Grammar α) : Bool :=
  (nullableNonterminals g.declared.toList).toList.all
    (nullableNonterminals (g.close.rules.toList.map Rule.toDeclaration)).contains

theorem keepsNullables_iff {g : Grammar α} : g.keepsNullables = true ↔
    ∀ A ∈ nullableNonterminals g.declared.toList,
      A ∈ nullableNonterminals (g.close.rules.toList.map Rule.toDeclaration) := by
  simp only [keepsNullables, List.all_eq_true, Std.TreeSet.mem_toList, Std.TreeSet.contains_iff_mem]

variable {g : Grammar α} {lengths : TerminalId → Nat → Nat} {symbols : List Symbol} {i j : Nat}

theorem Expanded.declares_of_hasRule (h : g.Expanded) (rule : Rule) (hrule : g.close.HasRule rule) :
    g.Declares rule :=
  have ⟨d, hd, hlhs, hexpands⟩ := h.mem_close.mp hrule
  ⟨d, hd, hlhs, hexpands.reads⟩

/-- The closed rules derive nothing new. -/
theorem Expanded.derives_declares (h : g.Expanded) (hderives : Derives lengths g.close.HasRule symbols i j) :
    Derives lengths g.Declares symbols i j :=
  hderives.mono h.declares_of_hasRule

/-- The closed rules derive all that the declarations do, if the nullable nonterminals still derive nothing. -/
theorem Expanded.derives_hasRule (h : g.Expanded)
    (hnull : ∀ A ∈ nullableNonterminals g.declared.toList, ∀ i,
      Derives lengths g.close.HasRule [.nonterminal A] i i)
    (hderives : Derives lengths g.Declares symbols i j) : Derives lengths g.close.HasRule symbols i j := by
  induction hderives with
  | nil i => exact .nil i
  | terminal hpos _ ih => exact .terminal hpos ih
  | nonterminal hrule _ _ ihBody ihRest =>
    obtain ⟨d, hd, hlhs, hreads⟩ := hrule
    obtain ⟨body, hexpands, hbody⟩ := hreads.exists_expands hnull ihBody
    have hrule : g.close.HasRule ⟨_, body⟩ := h.mem_close.mpr ⟨d, hd, hlhs, hexpands⟩
    exact .nonterminal hrule hbody ihRest

theorem keepsNullables_iff_derives (lengths : TerminalId → Nat → Nat) :
    g.keepsNullables = true ↔ ∀ A ∈ nullableNonterminals g.declared.toList, ∀ i,
      Derives lengths g.close.HasRule [.nonterminal A] i i := by
  rw [keepsNullables_iff]
  refine forall₂_congr fun A _ => ⟨fun hA i => ?_, fun hderives => ?_⟩
  · refine derives_of_mem_nullable (fun d hd body hreads => ?_) hA i
    obtain ⟨rule, hrule, rfl⟩ := List.mem_map.mp hd
    rw [hreads.eq_rhs]
    exact Array.mem_toList_iff.mp hrule
  · let nullable := nullableNonterminals (g.close.rules.toList.map Rule.toDeclaration)
    have hall : allNullable nullable [.nonterminal A] = true := by
      refine Derives.allNullable_of_closed (fun hrule _ hall => ?_) (hderives 0) rfl
      exact mem_nullable_of_rule (Array.mem_toList_iff.mpr hrule) hall
    simpa [allNullable, Symbol.nonterminal?] using hall

/-- What closing makes of the declarations: a list without repetitions, indexed by left-hand side, that derives no span
which the declarations do not derive. It derives all of theirs exactly if it keeps the nullable nonterminals. -/
theorem close_derives_iff [DecidableEq α] (hg : g.Built) :
    g.close.rules.toList.Nodup ∧
    (∀ A, (g.close.rulesFor A).toList =
      (List.range g.close.rules.size).filter fun id => (g.close.rule id).lhs == A) ∧
    ∀ lengths : TerminalId → Nat → Nat,
      (∀ A i j, Derives lengths g.close.HasRule [.nonterminal A] i j →
        Derives lengths g.Declares [.nonterminal A] i j) ∧
      ((∀ A i j, Derives lengths g.close.HasRule [.nonterminal A] i j ↔
          Derives lengths g.Declares [.nonterminal A] i j) ↔
        g.keepsNullables = true) := by
  have hindexed := hg.indexed.close
  have hexpanded := hg.expanded
  refine ⟨hindexed.nodup, hindexed.rulesFor_eq, fun lengths => ⟨fun A i j => hexpanded.derives_declares, ?_⟩⟩
  rw [keepsNullables_iff_derives lengths]
  refine ⟨fun hsame A hA i => ?_, fun hnull A i j => ⟨hexpanded.derives_declares, hexpanded.derives_hasRule hnull⟩⟩
  refine (hsame A i i).mpr (derives_of_mem_nullable (fun d hd body hreads => ?_) hA i)
  exact ⟨d, Array.mem_toList_iff.mp hd, rfl, hreads⟩

end Grammar

/-! ## Sample grammars with optional items -/

namespace Sample

def declareItems (g : Grammar Char) (lhs : Nonterminal) (items : List RuleItem) : Grammar Char :=
  match g.declare lhs items with
  | .ok g' => g'
  | .error _ => g

theorem built_declareItems {g : Grammar Char} (h : g.Built) (lhs : Nonterminal) (items : List RuleItem) :
    (declareItems g lhs items).Built := by
  unfold declareItems
  split
  · rename_i hdeclare
    exact .declare lhs items h hdeclare
  · exact h

/-- `A → 'a'?` and `S → A? 'a' S? X?`, where `A` is nullable, `S` is not and `X` has no rule. -/
def optional : Grammar Char :=
  declareItems (declareItems (Grammar.empty.terminal ⟨"a", .exact 'a', false⟩).2 1 [⟨.terminal 0, true⟩]) 0
    [⟨.nonterminal 1, true⟩, ⟨.terminal 0, false⟩, ⟨.nonterminal 0, true⟩, ⟨.nonterminal 2, true⟩]

theorem built_optional : optional.Built :=
  built_declareItems (built_declareItems (.terminal _ .empty) _ _) _ _

/-- `L → L? 'a'?`: everything is optional, also the list before the last element. -/
def optionalList : Grammar Char :=
  declareItems (Grammar.empty.terminal ⟨"a", .exact 'a', false⟩).2 0 [⟨.nonterminal 0, true⟩, ⟨.terminal 0, true⟩]

theorem built_optionalList : optionalList.Built :=
  built_declareItems (.terminal _ .empty) _ _

end Sample

/-- A nonterminal that stands in the bodies of all its rules derives nothing at all. -/
theorem Derives.not_mem_of_recursive {lengths : TerminalId → Nat → Nat} {rules : Rule → Prop} {A : Nonterminal}
    (hrules : ∀ body, rules ⟨A, body⟩ → .nonterminal A ∈ body) {symbols : List Symbol} {i j : Nat}
    (h : Derives lengths rules symbols i j) : .nonterminal A ∉ symbols := by
  induction h with
  | nil => exact List.not_mem_nil
  | terminal _ _ ih => simpa using ih
  | nonterminal hrule _ _ ihBody ihRest =>
    intro hmem
    rcases List.mem_cons.mp hmem with heq | hrest
    · cases heq
      exact ihBody (hrules _ hrule)
    · exact ihRest hrest

namespace Grammar

theorem close_derives_iff_optional : Sample.optional.Built ∧
    Sample.optional.close.rules.size = 6 ∧
    ∀ lengths A i j, Derives lengths Sample.optional.close.HasRule [.nonterminal A] i j ↔
      Derives lengths Sample.optional.Declares [.nonterminal A] i j := by
  refine ⟨Sample.built_optional, by decide +kernel, fun lengths => ?_⟩
  exact ((close_derives_iff Sample.built_optional).2.2 lengths).2.mpr (by decide +kernel)

/-- With one `'a'` as the input, the declaration derives it as a list of one element, and the closed rules derive no list at
all, not even the empty one. -/
theorem close_loses_lists : Sample.optionalList.Built ∧
    let lengths : TerminalId → Nat → Nat := fun _ position => if position = 0 then 1 else 0
    Derives lengths Sample.optionalList.Declares [.nonterminal 0] 0 1 ∧
    ∀ i j, ¬ Derives lengths Sample.optionalList.close.HasRule [.nonterminal 0] i j := by
  refine ⟨Sample.built_optionalList, ?_, fun i j hderives => ?_⟩
  · have hdeclared : ⟨0, [⟨.nonterminal 0, true⟩, ⟨.terminal 0, true⟩]⟩ ∈ Sample.optionalList.declared := by
      decide +kernel
    have hrule : Sample.optionalList.Declares ⟨0, [.terminal 0]⟩ :=
      ⟨_, hdeclared, rfl, .skip rfl (.keep .nil)⟩
    exact .nonterminal hrule (.terminal Nat.one_pos (.nil 1)) (.nil 1)
  · have hrecursive : ∀ rule ∈ Sample.optionalList.close.rules, .nonterminal 0 ∈ rule.rhs := by decide +kernel
    exact hderives.not_mem_of_recursive (fun body hrule => hrecursive _ hrule) List.mem_cons_self

end Grammar
end ContextFree
