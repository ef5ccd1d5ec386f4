-- SUMMARY: When the number of remaining trees bounds what a walker still produces, and a forest where it does not.
import ContextFree.Proofs.Walk.Enumeration

/-!
# Remaining trees

As long as no walk needs an escape, each tree that a walker produces is another unfolding of the root. There are no more
unfoldings than the count of the root says, so the number of remaining trees is a bound: loops over no input make the
count larger and are never walked.

An escape breaks the bound. The survey settles a node while an ancestor is on the path, so all families of the node may be
loops, and it counts one for them. A walk that comes to the node by another way is free to follow such a family, and the
choices that it meets below are in no count.
-/
namespace ContextFree

variable {α σ : Type}

namespace Walker

variable {w : Walker α σ}

/-- A call that finds the walker open produces one tree. -/
theorem produced_next (h : w.exhausted = false) : w.next.walker.produced = w.produced + 1 := by
  obtain ⟨-, w', -, -, -, hproduced, hnext⟩ := next_of_open h
  rw [hnext, ← hproduced]
  rcases w'.planNext_cases (w.walk w.root w.plan).trace with ⟨_, _, _, _, _, _, hplan⟩ | ⟨_, hplan⟩ <;> rw [hplan]

theorem exhausted_of_ok {produced : Produced α} (h : w.next.result = .ok produced) : w.exhausted = false := by
  cases hexhausted : w.exhausted with
  | false => rfl
  | true =>
    rw [next_of_exhausted hexhausted] at h
    cases h

/-- A walker that is still open after some calls has produced a tree at each of them. -/
theorem produced_after (n k : Nat) (h : (w.after (n + k)).exhausted = false) :
    (w.after n).exhausted = false ∧ (w.after (n + k)).produced = (w.after n).produced + k := by
  induction k with
  | zero => exact ⟨h, rfl⟩
  | succ k ih =>
    have hopen : (w.after (n + k)).exhausted = false := by
      by_contra hexhausted
      rw [Bool.not_eq_false] at hexhausted
      rw [← Nat.add_assoc, after, next_of_exhausted hexhausted] at h
      exact absurd (h.symm.trans hexhausted) Bool.false_ne_true
    obtain ⟨hfirst, hproduced⟩ := ih hopen
    refine ⟨hfirst, ?_⟩
    rw [← Nat.add_assoc, after, produced_next hopen, hproduced, Nat.add_assoc]

variable [DecidableEq α] {f : Forest α} {tokens : Array α} {trimmed : Identity → Prop} {root : NodeId}

namespace Enumerated

variable {us : List Unfolding}

/-- Whatever the number of calls, the walker has produced some unfoldings of the root, each once. -/
theorem exists_after (hf : f.Exact tokens trimmed) (hescape : f.NeedsNoEscape) (hroots : f.roots = [root])
    (hroot : root < f.size) (selector : Selector σ) (n : Nat) :
    ∃ us, Enumerated f root us ((Walker.new f selector).after n) := by
  induction n with
  | zero => exact ⟨[], .new hroots selector⟩
  | succ n ih =>
    obtain ⟨us, hus⟩ := ih
    cases hexhausted : ((Walker.new f selector).after n).exhausted with
    | true =>
      rw [Walker.after, next_of_exhausted hexhausted]
      exact ⟨us, hus⟩
    | false =>
      obtain ⟨u, hmore, -⟩ := hus.next hf hescape hroots hroot hexhausted
      exact ⟨us ++ [u], hmore⟩

/-- A walker that is open has produced fewer trees than the count says. -/
theorem length_lt (h : Enumerated f root us w) (hf : f.Exact tokens trimmed) (hescape : f.NeedsNoEscape)
    (hroots : f.roots = [root]) (hroot : root < f.size) (hopen : w.exhausted = false) : us.length < f.count root := by
  obtain ⟨u, hmore, -⟩ := h.next hf hescape hroots hroot hopen
  have hle := hmore.length_le hf hroot
  rwa [List.length_append] at hle

end Enumerated
end Walker

namespace Sample

/-- The rules over the named nonterminals, made ready to recognize the first of them. -/
def prepareNamed (names : List String) (rules : List (Nonterminal × List Symbol)) : Prepared Char :=
  let named := names.foldl (fun g name => (g.nonterminal name).2) .empty
  match Prepared.ofGrammar (rules.foldl (fun g (lhs, rhs) => declare g lhs rhs) named) 0 with
  | .ok p    => p
  | .error _ => prepared

theorem built_prepareNamed (names : List String) (rules : List (Nonterminal × List Symbol)) :
    (prepareNamed names rules).Built := by
  have hnames : ∀ {g : Grammar Char}, g.Built → (names.foldl (fun g name => (g.nonterminal name).2) g).Built := by
    induction names with
    | nil => exact id
    | cons name names ih => exact fun hg => ih (.nonterminal name hg)
  have hrules : ∀ {g : Grammar Char}, g.Built → (rules.foldl (fun g (lhs, rhs) => declare g lhs rhs) g).Built := by
    induction rules with
    | nil => exact id
    | cons rule rules ih => exact fun hg => ih (built_declare hg rule.1 rule.2)
  unfold prepareNamed
  dsimp only
  split
  · rename_i hok
    exact ⟨_, 0, hrules (hnames .empty), hok⟩
  · exact prepared_built

/-- `S → B A`, `B → A | ε | C`, `A → B` and `C → ε`. Everything derives nothing, and `A` and `B` derive each other. The survey
comes to `A` through `B`, so that the only family of `A` is a loop. -/
def detour : Prepared Char :=
  prepareNamed ["S", "B", "A", "C"]
    [(0, [.nonterminal 1, .nonterminal 2]), (1, [.nonterminal 2]), (1, []), (1, [.nonterminal 3]), (2, [.nonterminal 1]),
      (3, [])]

end Sample

namespace Recognizer

variable [DecidableEq α] [Quote α]

/-- Over a forest in which every loop over no input can be avoided, the number of remaining trees bounds the number of calls
that still succeed. No more trees are produced than the total says, and nothing remains exactly if there are no more. -/
theorem remaining_bounds (r : Recognizer α) (hp : r.grammar.Built) (input : Array α) (offset : Nat) {f : Forest α}
    (hf : (r.parseFrom input offset).outcome.forest = some f) (hescape : f.NeedsNoEscape) (selector : Selector σ) (n : Nat) :
    {k | ∃ produced, ((Walker.new f selector).after (n + k)).next.result = .ok produced}.encard ≤
        ((Walker.new f selector).after n).remaining ∧
      ((Walker.new f selector).after n).produced ≤ f.total ∧
      (((Walker.new f selector).after n).remaining = 0 ↔ ((Walker.new f selector).after n).hasMore = false) := by
  obtain ⟨-, -, trimmed, hexact⟩ := r.exists_exact hp input offset hf
  obtain ⟨root, hroots, hroot, -⟩ := hexact.root
  have htotal : f.total = f.count root := by simp [Forest.total, hroots]
  have hforest : ∀ n, ((Walker.new f selector).after n).forest = f := fun n =>
    (Walker.Enumerated.exists_after hexact hescape hroots hroot selector n).elim fun _ h => h.forest_eq
  have hopen : ∀ n, ((Walker.new f selector).after n).exhausted = false →
      ((Walker.new f selector).after n).produced < f.total := by
    intro n hopen
    obtain ⟨us, hus⟩ := Walker.Enumerated.exists_after hexact hescape hroots hroot selector n
    rw [hus.produced_eq, htotal]
    exact hus.length_lt hexact hescape hroots hroot hopen
  refine ⟨?_, ?_, ?_⟩
  · -- each call that succeeds finds the walker open, and it has then produced fewer trees than the total
    have hbelow : {k | ∃ produced, ((Walker.new f selector).after (n + k)).next.result = .ok produced} ⊆
        Set.Iio ((Walker.new f selector).after n).remaining := by
      rintro k ⟨produced, hok⟩
      have hlast := Walker.exhausted_of_ok hok
      obtain ⟨hfirst, hproduced⟩ := Walker.produced_after n k hlast
      have hless := hopen (n + k) hlast
      rw [Set.mem_Iio, Walker.remaining, hfirst, hforest]
      simp only [Bool.false_eq_true, if_false]
      omega
    refine (Set.encard_le_encard hbelow).trans (le_of_eq ?_)
    rw [← Finset.coe_Iio, Set.encard_coe_eq_coe_finsetCard, Nat.card_Iio]
  · obtain ⟨us, hus⟩ := Walker.Enumerated.exists_after hexact hescape hroots hroot selector n
    rw [hus.produced_eq, htotal]
    exact hus.length_le hexact hroot
  · rw [Walker.hasMore, Bool.not_eq_false', Walker.remaining, hforest]
    cases hexhausted : ((Walker.new f selector).after n).exhausted with
    | true => simp
    | false =>
      have hless := hopen n hexhausted
      simp only [Bool.false_eq_true, if_false, iff_false]
      omega

/-- Over nothing, the sample counts the loop and the empty rule, and a walker produces the one tree of the empty rule. -/
theorem remaining_bounds_sample : ∃ f : Forest Char,
    (parseFrom ⟨Sample.prepared, .gll {}, none⟩ #[] 0).outcome.forest = some f ∧ f.isInfinite = true ∧ f.NeedsNoEscape ∧
    {k | ∃ produced, ((Walker.new f .sequential).after (0 + k)).next.result = .ok produced}.encard ≤ 2 ∧
    ((Walker.new f .sequential).after 1).hasMore = false := by
  have hread : (parseFrom ⟨Sample.prepared, .gll {}, none⟩ #[] 0).outcome.forest.map
      (fun f => (f.isInfinite, decide f.NeedsNoEscape, (Walker.new f .sequential).remaining,
        ((Walker.new f .sequential).after 1).remaining)) = some (true, true, 2, 0) := by decide +kernel
  obtain ⟨f, hf, hfacts⟩ := Option.map_eq_some_iff.mp hread
  simp only [Prod.mk.injEq, decide_eq_true_eq] at hfacts
  obtain ⟨hinfinite, hescape, htwo, hnone⟩ := hfacts
  have hbounds := remaining_bounds ⟨Sample.prepared, .gll {}, none⟩ Sample.prepared_built #[] 0 hf hescape .sequential
  have hfirst := (hbounds 0).1
  rw [show (Walker.new f .sequential).after 0 = Walker.new f .sequential from rfl, htwo] at hfirst
  exact ⟨f, hf, hinfinite, hescape, hfirst, (hbounds 1).2.2.mp hnone⟩

/-- Over nothing, the detour counts three trees. After three there is nothing to remain, but there are more trees: the walker
produces six. -/
theorem remaining_exceeded : Sample.detour.Built ∧ ∃ f : Forest Char,
    (parseFrom ⟨Sample.detour, .earley {}, none⟩ #[] 0).outcome.forest = some f ∧ f.total = 3 ∧
    ((Walker.new f .sequential).after 3).remaining = 0 ∧ ((Walker.new f .sequential).after 3).hasMore = true ∧
    ((Walker.new f .sequential).after 5).next.result.isOk = true ∧ ((Walker.new f .sequential).after 6).produced = 6 := by
  have hread : (parseFrom ⟨Sample.detour, .earley {}, none⟩ #[] 0).outcome.forest.map (fun f =>
      (f.total, ((Walker.new f .sequential).after 3).remaining, ((Walker.new f .sequential).after 3).hasMore,
        ((Walker.new f .sequential).after 5).next.result.isOk, ((Walker.new f .sequential).after 6).produced)) =
      some (3, 0, true, true, 6) := by decide +kernel
  obtain ⟨f, hf, hfacts⟩ := Option.map_eq_some_iff.mp hread
  simp only [Prod.mk.injEq] at hfacts
  exact ⟨Sample.built_prepareNamed _ _, f, hf, hfacts⟩

end Recognizer
end ContextFree
