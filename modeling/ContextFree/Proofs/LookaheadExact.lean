-- SUMMARY: The lookahead sets hold exactly what the rules can lead to.
import ContextFree.Derivation.Sentential
import ContextFree.Proofs.Lookahead

/-!
# Lookahead is exact

The nullable nonterminals, FIRST and FOLLOW of the marked rules are compared with what steps by these rules lead to. What a
round adds is witnessed by steps, so the sets hold nothing else. The other way, a step is read backwards: what the list
after it can begin with, the list before it can begin with too, because the sets are closed. For FOLLOW the steps
are read forwards, with an invariant about every nonterminal of the list and all that comes behind it.
-/
namespace ContextFree

variable {α : Type} {rules : Rule → Prop} {nullable : Std.TreeSet Nonterminal}
  {first : Std.TreeSet (Nonterminal × TerminalId)} {follow : Std.TreeSet (Nonterminal × Follower)}
  {start : Nonterminal} {bound : Nat}

/-! ## The sets hold what steps witness -/

theorem leads_nil_of_forall {symbols : List Symbol} (h : ∀ symbol ∈ symbols, Leads rules [symbol] []) :
    Leads rules symbols [] := by
  induction symbols with
  | nil => exact .refl []
  | cons symbol rest ih =>
    have hrest := ih fun symbol hmem => h symbol (List.mem_cons_of_mem _ hmem)
    exact (h symbol List.mem_cons_self).append hrest

theorem leads_nil_of_allNullable (hnull : ∀ A ∈ nullable, Leads rules [.nonterminal A] [])
    {symbols : List Symbol} (hall : allNullable nullable symbols = true) : Leads rules symbols [] := by
  refine leads_nil_of_forall fun symbol hmem => ?_
  obtain ⟨A, hsymbol, hA⟩ := (Option.any_eq_true _ _).mp (List.all_eq_true.mp hall symbol hmem)
  cases Symbol.eq_nonterminal_of_nonterminal? hsymbol
  exact hnull A (Std.TreeSet.contains_iff_mem.mp hA)

theorem leads_terminal_of_canBegin (hnull : ∀ A ∈ nullable, Leads rules [.nonterminal A] [])
    (hfirst : ∀ a ∈ first, ∃ rest, LeadsOn rules [.nonterminal a.1] (.terminal a.2 :: rest))
    {symbols : List Symbol} {t : TerminalId} (hbegin : canBegin nullable first symbols t = true) :
    ∃ rest, Leads rules symbols (.terminal t :: rest) := by
  induction symbols with
  | nil => cases hbegin
  | cons symbol symbols ih =>
    cases symbol with
    | terminal u =>
      cases eq_of_beq hbegin
      exact ⟨symbols, .refl _⟩
    | nonterminal A =>
      simp only [canBegin, Bool.or_eq_true, Bool.and_eq_true, Std.TreeSet.contains_iff_mem] at hbegin
      rcases hbegin with hmem | ⟨hA, hrest⟩
      · obtain ⟨rest, h⟩ := hfirst _ hmem
        exact ⟨rest ++ symbols, h.leads.append (.refl symbols)⟩
      · obtain ⟨rest, h⟩ := ih hrest
        exact ⟨rest, (hnull A hA).append h⟩

theorem Follows.inherit {A B : Nonterminal} {before rest : List Symbol} {f : Follower}
    (hrule : rules ⟨B, before ++ .nonterminal A :: rest⟩) (hrest : Leads rules rest [])
    (h : Follows rules start B f) : Follows rules start A f := by
  have hbody : Leads rules [.nonterminal B] (before ++ [.nonterminal A]) := by
    refine (LeadsOn.of_rule hrule ?_).leads
    exact (Leads.refl before).append ((Leads.refl [.nonterminal A]).append hrest)
  cases f with
  | endOfInput =>
    have ⟨outer, houter⟩ := h
    refine ⟨outer ++ before, houter.trans ?_⟩
    simpa using hbody.inside outer []
  | terminal t =>
    have ⟨C, outer, after, houter⟩ := h
    refine ⟨C, outer ++ before, after, houter.trans_leads ?_⟩
    simpa using hbody.inside outer (.terminal t :: after)

section Sound

variable (hnull : ∀ A ∈ nullable, Leads rules [.nonterminal A] [])
include hnull

theorem firstRound_sound {list : List Rule} (hlist : ∀ rule ∈ list, rules rule) (fuel : Nat) :
    ∀ a ∈ saturate Std.TreeSet.size (firstRound nullable bound list) fuel ∅,
      ∃ rest, LeadsOn rules [.nonterminal a.1] (.terminal a.2 :: rest) := by
  refine forall_mem_saturate (fun rule hrule set hset a ha => ?_) fuel
    fun a ha => absurd ha Std.TreeSet.not_mem_emptyc
  rcases mem_foldl_insertIf.mp ha with hold | ⟨t, _, hbegin, rfl⟩
  · exact hset a hold
  · have ⟨rest, h⟩ := leads_terminal_of_canBegin hnull hset hbegin
    exact ⟨rest, .of_rule (hlist rule hrule) h⟩

variable (hfirst : ∀ a ∈ first, ∃ rest, LeadsOn rules [.nonterminal a.1] (.terminal a.2 :: rest))
include hfirst

/-- What the occurrences in a suffix of a body add to FOLLOW is witnessed by steps. -/
theorem followBody_sound {lhs : Nonterminal} (symbols : List Symbol) (before : List Symbol)
    (hrule : rules ⟨lhs, before ++ symbols⟩) (hfollow : ∀ a ∈ follow, Follows rules start a.1 a.2) :
    ∀ a ∈ followBody nullable first bound lhs symbols follow, Follows rules start a.1 a.2 := by
  induction symbols generalizing before follow with
  | nil => exact hfollow
  | cons symbol symbols ih =>
    have hrule' : rules ⟨lhs, before ++ [symbol] ++ symbols⟩ := by simpa using hrule
    cases symbol with
    | terminal u => exact ih (before ++ [.terminal u]) hrule' hfollow
    | nonterminal A =>
      refine ih (before ++ [.nonterminal A]) hrule' fun a ha => ?_
      rcases mem_followOccurrence.mp ha with hold | ⟨t, _, hbegin, rfl⟩ | ⟨hall, f, _, hmem, rfl⟩
      · exact hfollow a hold
      · have ⟨rest, h⟩ := leads_terminal_of_canBegin hnull hfirst hbegin
        refine ⟨lhs, before, rest, .of_rule hrule ?_⟩
        exact (Leads.refl before).append ((Leads.refl [.nonterminal A]).append h)
      · exact (hfollow _ hmem).inherit hrule (leads_nil_of_allNullable hnull hall)

theorem followRound_sound {list : List Rule} (hlist : ∀ rule ∈ list, rules rule) (fuel : Nat) :
    ∀ a ∈ saturate Std.TreeSet.size (followRound nullable first bound list) fuel
      (Std.TreeSet.insert ∅ (start, .endOfInput)), Follows rules start a.1 a.2 := by
  refine forall_mem_saturate (fun rule hrule set hset => ?_) fuel fun a ha => ?_
  · exact followBody_sound hnull hfirst rule.rhs [] (hlist rule hrule) hset
  · rcases mem_insert_iff.mp ha with rfl | hempty
    · exact ⟨[], .refl _⟩
    · exact absurd hempty Std.TreeSet.not_mem_emptyc

end Sound

/-! ## The sets hold all that steps lead to -/

theorem allNullable_append (left right : List Symbol) :
    allNullable nullable (left ++ right) = (allNullable nullable left && allNullable nullable right) :=
  List.all_append

theorem canBegin_append (left right : List Symbol) (t : TerminalId) :
    canBegin nullable first (left ++ right) t =
      (canBegin nullable first left t || (allNullable nullable left && canBegin nullable first right t)) := by
  induction left with
  | nil => rfl
  | cons symbol left ih =>
    cases symbol with
    | terminal u => exact (Bool.or_false _).symm
    | nonterminal A =>
      simp only [List.cons_append, canBegin, ih, allNullable, List.all_cons, Symbol.nonterminal?, Option.any_some]
      cases first.contains (A, t) <;> cases nullable.contains A <;> simp

namespace LookaheadClosed

variable (h : LookaheadClosed rules bound nullable first follow) {symbols last : List Symbol} {t : TerminalId}
include h

theorem allNullable_of_produces (hstep : Produces rules symbols last)
    (hall : allNullable nullable last = true) : allNullable nullable symbols = true := by
  cases hstep with
  | @step A body before after hrule =>
    simp only [allNullable_append, Bool.and_eq_true] at hall
    obtain ⟨⟨hbefore, hbody⟩, hafter⟩ := hall
    have hA : nullable.contains A = true := Std.TreeSet.contains_iff_mem.mpr (h.nullable_mem hrule hbody)
    rw [allNullable_append, hbefore, Bool.true_and]
    exact Bool.and_eq_true_iff.mpr ⟨hA, hafter⟩

theorem canBegin_of_produces (hstep : Produces rules symbols last) (ht : t < bound)
    (hbegin : canBegin nullable first last t = true) : canBegin nullable first symbols t = true := by
  cases hstep with
  | @step A body before after hrule =>
    simp only [canBegin_append, allNullable_append, Bool.or_eq_true, Bool.and_eq_true] at hbegin
    simp only [canBegin_append, canBegin, Bool.or_eq_true, Bool.and_eq_true, Std.TreeSet.contains_iff_mem]
    rcases hbegin with (hbefore | ⟨hbefore, hbody⟩) | ⟨⟨hbefore, hbody⟩, hafter⟩
    · exact .inl hbefore
    · exact .inr ⟨hbefore, .inl (h.first_mem hrule ht hbody)⟩
    · exact .inr ⟨hbefore, .inr ⟨h.nullable_mem hrule hbody, hafter⟩⟩

theorem allNullable_of_leads (hleads : Leads rules symbols last) (hall : allNullable nullable last = true) :
    allNullable nullable symbols = true := by
  induction hleads with
  | refl => exact hall
  | tail _ hstep ih => exact ih (h.allNullable_of_produces hstep hall)

theorem canBegin_of_leads (hleads : Leads rules symbols last) (ht : t < bound)
    (hbegin : canBegin nullable first last t = true) : canBegin nullable first symbols t = true := by
  induction hleads with
  | refl => exact hbegin
  | tail _ hstep ih => exact ih (h.canBegin_of_produces hstep ht hbegin)

/-- A terminal comes from the list at the beginning or from the body of a rule. -/
theorem lt_of_leads (hleads : Leads rules symbols last) (hsymbols : ∀ u, .terminal u ∈ symbols → u < bound) :
    ∀ u, .terminal u ∈ last → u < bound := by
  induction hleads with
  | refl => exact hsymbols
  | tail _ hstep ih =>
    intro u hu
    cases hstep with
    | step before after hrule =>
      rcases List.mem_append.mp hu with hu | hafter
      · rcases List.mem_append.mp hu with hbefore | hbody
        · exact ih u (List.mem_append_left _ hbefore)
        · exact h.terminal_lt hrule hbody
      · exact ih u (List.mem_append_right _ (List.mem_cons_of_mem _ hafter))

/-- A list that leads to one with a terminal in front can begin with it. -/
theorem canBegin_of_leads_terminal (hsymbols : ∀ u, .terminal u ∈ symbols → u < bound) {rest : List Symbol}
    (hleads : Leads rules symbols (.terminal t :: rest)) : canBegin nullable first symbols t = true :=
  h.canBegin_of_leads hleads (h.lt_of_leads hleads hsymbols t List.mem_cons_self) (beq_self_eq_true t)

theorem mem_nullable_of_leads {A : Nonterminal} (hleads : Leads rules [.nonterminal A] []) : A ∈ nullable := by
  have hall := h.allNullable_of_leads hleads rfl
  simpa [allNullable, Symbol.nonterminal?] using hall

theorem mem_first_of_leadsOn {A : Nonterminal} {rest : List Symbol}
    (hleads : LeadsOn rules [.nonterminal A] (.terminal t :: rest)) : (A, t) ∈ first := by
  have hbegin := h.canBegin_of_leads_terminal (by simp) hleads.leads
  simpa [canBegin] using hbegin

end LookaheadClosed

/-- What FOLLOW has to hold of a list that `A` leads to: a nonterminal is followed by what can begin the list behind it
and, if all of that is nullable, by what follows `A`. -/
structure FollowedIn (nullable : Std.TreeSet Nonterminal) (first : Std.TreeSet (Nonterminal × TerminalId))
    (follow : Std.TreeSet (Nonterminal × Follower)) (bound : Nat) (A N : Nonterminal) (rest : List Symbol) :
    Prop where
  begins : ∀ t < bound, canBegin nullable first rest t = true → (N, .terminal t) ∈ follow
  ends : allNullable nullable rest = true → ∀ f ∈ followers bound, (A, f) ∈ follow → (N, f) ∈ follow

namespace LookaheadClosed

variable (h : LookaheadClosed rules bound nullable first follow) {A B N : Nonterminal}
include h

/-- A list behind a nonterminal may be exchanged for one that a step makes of it. -/
theorem followedIn_of_produces {rest last : List Symbol} (hstep : Produces rules rest last)
    (hrest : FollowedIn nullable first follow bound A N rest) : FollowedIn nullable first follow bound A N last where
  begins t ht hbegin := hrest.begins t ht (h.canBegin_of_produces hstep ht hbegin)
  ends hall := hrest.ends (h.allNullable_of_produces hstep hall)

/-- A nonterminal in the body of a rule that takes the place of `B`. -/
theorem followedIn_body {before inner after : List Symbol} (hrule : rules ⟨B, before ++ .nonterminal N :: inner⟩)
    (hB : FollowedIn nullable first follow bound A B after) :
    FollowedIn nullable first follow bound A N (inner ++ after) := by
  have hinherit : allNullable nullable inner = true → ∀ f ∈ followers bound, (B, f) ∈ follow → (N, f) ∈ follow :=
    fun hall f hf hmem => h.follow_sub hrule _ (mem_followOccurrence.mpr (.inr (.inr ⟨hall, f, hf, hmem, rfl⟩)))
  refine ⟨fun t ht hbegin => ?_, fun hall f hf hmem => ?_⟩
  · simp only [canBegin_append, Bool.or_eq_true, Bool.and_eq_true] at hbegin
    rcases hbegin with hinner | ⟨hinner, hafter⟩
    · exact h.follow_sub hrule _ (mem_followOccurrence.mpr (.inr (.inl ⟨t, ht, hinner, rfl⟩)))
    · have hf : .terminal t ∈ followers bound := by simp [followers, ht]
      exact hinherit hinner _ hf (hB.begins t ht hafter)
  · rw [allNullable_append, Bool.and_eq_true] at hall
    exact hinherit hall.1 f hf (hB.ends hall.2 f hf hmem)

/-- The invariant of the steps from `A`, at every nonterminal of the list. -/
theorem followedIn_of_leads {last : List Symbol} (hleads : Leads rules [.nonterminal A] last) :
    ∀ before N rest, last = before ++ .nonterminal N :: rest → FollowedIn nullable first follow bound A N rest := by
  induction hleads with
  | refl =>
    intro before N rest hsplit
    have hparts : before = [] ∧ A = N ∧ rest = [] := by
      cases before <;> simp_all
    obtain ⟨rfl, rfl, rfl⟩ := hparts
    exact ⟨fun _ _ hbegin => absurd hbegin Bool.false_ne_true, fun _ _ _ hmem => hmem⟩
  | tail _ hstep ih =>
    cases hstep with
    | @step B body left right hrule =>
      intro before N rest hsplit
      -- the nonterminal stands left of the body, in it or right of it
      rcases split_append hsplit with ⟨inner, hleft, rfl⟩ | ⟨inner, rfl, rfl⟩
      · rcases split_append hleft with ⟨inner', rfl, rfl⟩ | ⟨inner', rfl, rfl⟩
        · have hstep : Produces rules (inner' ++ .nonterminal B :: right) (inner' ++ body ++ right) :=
            .step inner' right hrule
          refine h.followedIn_of_produces hstep (ih before N _ ?_)
          rw [List.append_assoc, List.cons_append]
        · exact h.followedIn_body hrule (ih left B right rfl)
      · refine ih (left ++ .nonterminal B :: inner) N rest ?_
        rw [List.append_assoc, List.cons_append]

theorem mem_follow_of_follows (hstart : (start, .endOfInput) ∈ follow) {f : Follower}
    (hfollows : Follows rules start A f) : (A, f) ∈ follow := by
  cases f with
  | endOfInput =>
    have ⟨before, hleads⟩ := hfollows
    exact (h.followedIn_of_leads hleads before A [] rfl).ends rfl _ List.mem_cons_self hstart
  | terminal t =>
    have ⟨B, before, after, hleads⟩ := hfollows
    have ht : t < bound := h.lt_of_leads hleads.leads (by simp) t (by simp)
    exact (h.followedIn_of_leads hleads.leads before A _ rfl).begins t ht (beq_self_eq_true t)

end LookaheadClosed

/-! ## The analysis of a grammar -/

namespace Analysis

variable (g : Grammar α) (included : Array Bool) (start : Nonterminal)

/-- The sets hold exactly what steps by the marked rules lead to. The tables by rule do so for all rules, marked or not. -/
structure Exact (a : Analysis) : Prop where
  nullable : ∀ A, a.isNullable A = true ↔ Leads (g.Includes included) [.nonterminal A] []
  first : ∀ A t, a.isFirst A t = true ↔
    ∃ rest, LeadsOn (g.Includes included) [.nonterminal A] (.terminal t :: rest)
  follow : ∀ A f, a.isFollower A f = true ↔ Follows (g.Includes included) start A f
  ruleNullable : ∀ id < g.rules.size,
    (a.ruleNullable.getD id false = true ↔ Leads (g.Includes included) (g.rule id).rhs [])
  ruleFirst : ∀ id < g.rules.size, ∀ t,
    (t ∈ a.ruleFirst.getD id [] ↔ ∃ rest, Leads (g.Includes included) (g.rule id).rhs (.terminal t :: rest))

theorem nullable_sound : ∀ A ∈ (compute g included start).nullable,
    Leads (g.Includes included) [.nonterminal A] [] := by
  refine nullableNonterminals_induction fun d hd hitems => ?_
  obtain ⟨rule, hrule, rfl⟩ := List.mem_map.mp hd
  refine (LeadsOn.of_rule (Grammar.mem_includedRules.mp hrule) (leads_nil_of_forall fun symbol hmem => ?_)).leads
  rcases hitems { symbol } (List.mem_map_of_mem hmem) with hopt | ⟨A, hsymbol, hA⟩
  · cases hopt
  · cases hsymbol
    exact hA

theorem first_sound : ∀ a ∈ (compute g included start).first,
    ∃ rest, LeadsOn (g.Includes included) [.nonterminal a.1] (.terminal a.2 :: rest) :=
  firstRound_sound (nullable_sound g included start) (fun _ => Grammar.mem_includedRules.mp) _

theorem follow_sound : ∀ a ∈ (compute g included start).follow,
    Follows (g.Includes included) start a.1 a.2 :=
  followRound_sound (nullable_sound g included start) (first_sound g included start)
    (fun _ => Grammar.mem_includedRules.mp) _

/-- For every grammar, mask and start, the analysis comes to its end and is exact. -/
theorem compute_exact :
    (compute g included start).Settled g included ∧ (compute g included start).Exact g included start := by
  have hclosed := lookaheadClosed_compute g included start
  have hnull := nullable_sound g included start
  have hfirst := first_sound g included start
  refine ⟨settled_compute g included start, ?_⟩
  refine ⟨fun A => ?_, fun A t => ?_, fun A f => ?_, fun id hid => ?_, fun id hid t => ?_⟩
  · rw [isNullable, Std.TreeSet.contains_iff_mem]
    exact ⟨hnull A, hclosed.mem_nullable_of_leads⟩
  · rw [isFirst, Std.TreeSet.contains_iff_mem]
    exact ⟨hfirst (A, t), fun ⟨_, hleads⟩ => hclosed.mem_first_of_leadsOn hleads⟩
  · rw [isFollower, Std.TreeSet.contains_iff_mem]
    exact ⟨follow_sound g included start (A, f),
      hclosed.mem_follow_of_follows (start_mem_follow_compute g included start)⟩
  · rw [ruleNullable_compute hid]
    exact ⟨leads_nil_of_allNullable hnull, fun hleads => hclosed.allNullable_of_leads hleads rfl⟩
  · rw [mem_ruleFirst_compute hid]
    have hrhs : ∀ u, .terminal u ∈ (g.rule id).rhs → u < g.terminalBound :=
      fun u hu => Grammar.lt_terminalBound_of_mem (Grammar.rule_mem hid) hu
    refine ⟨fun h => leads_terminal_of_canBegin hnull hfirst h.2, fun ⟨rest, hleads⟩ => ?_⟩
    exact ⟨hclosed.lt_of_leads hleads hrhs t List.mem_cons_self, hclosed.canBegin_of_leads_terminal hrhs hleads⟩

end Analysis
end ContextFree
