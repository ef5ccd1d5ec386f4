-- SUMMARY: Producing sentential forms from one another by rules.
import ContextFree.Derivation.Spans

/-!
# Sentential forms

A step replaces one nonterminal of a list of symbols by the body of one of its rules. The lookahead sets speak about what
such steps can lead to: the empty list, a list that begins with a terminal, a list in which something follows a
nonterminal.
-/
namespace ContextFree

/-- One step. -/
inductive Produces (rules : Rule → Prop) : List Symbol → List Symbol → Prop where
  | step {A : Nonterminal} {body : List Symbol} (before after : List Symbol) :
      rules ⟨A, body⟩ →
      Produces rules (before ++ .nonterminal A :: after) (before ++ body ++ after)

/-- Any number of steps. -/
inductive Leads (rules : Rule → Prop) : List Symbol → List Symbol → Prop where
  | refl (symbols : List Symbol) : Leads rules symbols symbols
  | tail {first middle last : List Symbol} :
      Leads rules first middle → Produces rules middle last → Leads rules first last

namespace Leads

variable {rules : Rule → Prop}

theorem trans {first middle last : List Symbol} (h : Leads rules first middle)
    (h' : Leads rules middle last) : Leads rules first last := by
  induction h' with
  | refl => exact h
  | tail _ hstep ih => exact .tail ih hstep

/-- Steps in the middle of a longer list. -/
theorem inside {first last : List Symbol} (before after : List Symbol) (h : Leads rules first last) :
    Leads rules (before ++ first ++ after) (before ++ last ++ after) := by
  induction h with
  | refl => exact .refl _
  | tail _ hstep ih =>
    refine .tail ih ?_
    cases hstep with
    | step b a hrule =>
      have := @Produces.step rules _ _ (before ++ b) (a ++ after) hrule
      simpa only [List.append_assoc, List.cons_append] using this

/-- Two lists side by side. -/
theorem append {first first' last last' : List Symbol} (h : Leads rules first last)
    (h' : Leads rules first' last') : Leads rules (first ++ first') (last ++ last') := by
  have hleft : Leads rules (first ++ first') (last ++ first') := by simpa using h.inside [] first'
  have hright : Leads rules (last ++ first') (last ++ last') := by simpa using h'.inside last []
  exact hleft.trans hright

end Leads

/-- One step or more. -/
def LeadsOn (rules : Rule → Prop) (first last : List Symbol) : Prop :=
  ∃ middle, Produces rules first middle ∧ Leads rules middle last

namespace LeadsOn

variable {rules : Rule → Prop}

theorem leads {first last : List Symbol} (h : LeadsOn rules first last) : Leads rules first last :=
  have ⟨_, hstep, hrest⟩ := h
  (Leads.tail (.refl first) hstep).trans hrest

theorem trans_leads {first middle last : List Symbol} (h : LeadsOn rules first middle)
    (h' : Leads rules middle last) : LeadsOn rules first last :=
  have ⟨_, hstep, hrest⟩ := h
  ⟨_, hstep, hrest.trans h'⟩

/-- A nonterminal leads to what the body of one of its rules leads to. -/
theorem of_rule {A : Nonterminal} {body last : List Symbol} (hrule : rules ⟨A, body⟩)
    (h : Leads rules body last) : LeadsOn rules [.nonterminal A] last := by
  have hstep : Produces rules [.nonterminal A] ([] ++ body ++ []) := .step [] [] hrule
  rw [List.nil_append, List.append_nil] at hstep
  exact ⟨body, hstep, h⟩

end LeadsOn

/-- What can come after `A`: the end of the input if `A` can end a list that `start` leads to, and a terminal if it can
stand right behind `A` in a list that some nonterminal leads to. -/
def Follows (rules : Rule → Prop) (start A : Nonterminal) : Follower → Prop
  | .endOfInput => ∃ before, Leads rules [.nonterminal start] (before ++ [.nonterminal A])
  | .terminal t => ∃ B before after,
      LeadsOn rules [.nonterminal B] (before ++ .nonterminal A :: .terminal t :: after)

/-- The rules that a mask marks. -/
def Grammar.Includes {α : Type} (g : Grammar α) (included : Array Bool) (rule : Rule) : Prop :=
  ∃ id, id < g.rules.size ∧ included.getD id false = true ∧ g.rule id = rule

end ContextFree
