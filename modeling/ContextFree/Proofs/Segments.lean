-- SUMMARY: Going on after each accepted prefix cuts the input into segments, each as long as it can be.
import ContextFree.Proofs.Outcomes
import ContextFree.Proofs.Forest.Counting

/-!
# Segments

If prefixes count, a run that does not accept all of its tokens accepts the longest part of them, from the first on, that the
start symbol derives. Another run can go on behind it. What is accepted is never empty, so such a chain of runs comes to
an end, and the tokens of its forests put together are the input as far as it was accepted.
-/
namespace ContextFree

variable {α : Type}

namespace Outcome

/-- The tokens that the run accepted. -/
def segment (o : Outcome α) : List α :=
  (o.forest.map fun f => f.tokens.toList).getD []

/-- Where the accepted tokens end in the input: with it, with the prefix, or where they begin if there are none. -/
def segmentEnd (o : Outcome α) (input : Array α) : Nat :=
  if o.success then input.size else o.prefixEnd.getD o.offset

variable [DecidableEq α]

/-- The outcome accepts the input from `offset` on or else the longest part of it that can be derived, and its forest covers that
part. -/
structure TakesLongest (o : Outcome α) (p : Prepared α) (input : Array α) (offset : Nat) : Prop where
  whole : p.DerivesSpan (input.extract offset input.size) [.nonterminal p.start] 0
      (input.extract offset input.size).size → o.success = true ∧ o.prefixEnd = none
  part : ¬ p.DerivesSpan (input.extract offset input.size) [.nonterminal p.start] 0
      (input.extract offset input.size).size → o.success = false ∧
    ∀ stop, o.prefixEnd = some stop ↔
      ∃ length, stop = offset + length ∧ p.LongestPrefix (input.extract offset input.size) length
  forest : ∀ stop, o.prefixEnd = some stop → ∃ f root, o.forest = some f ∧ f.tokens = input.extract offset stop ∧
    f.roots = [root] ∧ f.span root = ⟨offset, stop⟩

end Outcome

namespace Sample

/-- `S → 'a' 'a'`. -/
def pairs : Prepared Char :=
  prepare [(0, [.terminal 0, .terminal 0])]

end Sample

namespace Recognizer

variable [DecidableEq α] [Quote α]

/-- Outcomes one after the other: the first is that of parsing the input, and each other one that of going on after the prefix
that the one before has accepted. -/
inductive Chain (r : Recognizer α) (input : Array α) : List (Outcome α) → Outcome α → Prop where
  | first : Chain r input [] (r.parse input).outcome
  | next {earlier : List (Outcome α)} {last : Outcome α} {answer : Answer α} :
      Chain r input earlier last → r.continueAfter last input = .ok answer →
      Chain r input (earlier ++ [last]) answer.outcome

/-! ## One run -/

omit [DecidableEq α] [Quote α] in
/-- A part of a later part of an input. -/
theorem extract_extract_of_le (input : Array α) {offset length : Nat} (h : offset + length ≤ input.size) :
    (input.extract offset input.size).extract 0 length = input.extract offset (offset + length) := by
  rw [Array.extract_extract, Nat.add_zero, Nat.min_eq_left h]

variable {r : Recognizer α} {input : Array α} {offset : Nat}

/-- The accepted prefix of a run that fails is the longest one, and not empty. -/
theorem prefixEnd_eq_some_iff (hp : r.grammar.Regular) {stop : Nat} :
    (r.parseFrom input offset).outcome.prefixEnd = some stop ↔
      (r.parseFrom input offset).outcome.success = false ∧ r.method.prefixParsing = true ∧
        ∃ length, stop = offset + length ∧ r.grammar.LongestPrefix (input.extract offset input.size) length := by
  obtain ⟨furthest, stop?, -, hstop, hsuccess, hreports⟩ := r.exists_reports hp input offset
  rw [hreports.prefixEnd]
  cases hcase : (r.parseFrom input offset).outcome.success with
  | true => simp
  | false =>
    rw [hcase] at hsuccess
    simp only [Bool.false_eq_true, false_iff] at hsuccess
    simp only [Bool.false_eq_true, if_false, Option.map_eq_some_iff, hstop, Prepared.AcceptedEnd, hsuccess, false_and,
      false_or, not_false_eq_true, true_and]
    constructor
    · rintro ⟨length, ⟨hcounts, hlongest⟩, rfl⟩
      exact ⟨hcounts, length, rfl, hlongest⟩
    · rintro ⟨hcounts, length, rfl, hlongest⟩
      exact ⟨length, ⟨hcounts, hlongest⟩, rfl⟩

/-- The forest of a run covers the tokens that it accepted. -/
theorem segment_of_prefixEnd (hp : r.grammar.Regular) {stop : Nat}
    (h : (r.parseFrom input offset).outcome.prefixEnd = some stop) :
    offset < stop ∧ stop ≤ input.size ∧
      ∃ f, (r.parseFrom input offset).outcome.forest = some f ∧ f.tokens = input.extract offset stop := by
  obtain ⟨hfailed, -, length, rfl, ⟨hpos, hderives⟩, -⟩ := (prefixEnd_eq_some_iff hp).mp h
  have hle := hderives.stop_le (Nat.zero_le _)
  rw [Array.size_extract] at hle
  obtain ⟨furthest, stop?, -, -, -, hreports⟩ := r.exists_reports hp input offset
  have hend := hreports.prefixEnd
  rw [h, hfailed] at hend
  simp only [Bool.false_eq_true, if_false] at hend
  obtain ⟨length', hstop, heq⟩ := Option.map_eq_some_iff.mp hend.symm
  obtain rfl : length' = length := Nat.add_left_cancel heq
  have hforest := hreports.forest
  rw [hstop, Option.map_some, extract_extract_of_le input (by omega)] at hforest
  obtain ⟨f, hf, htokens⟩ := Option.map_eq_some_iff.mp hforest
  exact ⟨by omega, by omega, f, hf, htokens⟩

/-- If prefixes count, a run accepts as much as it can. -/
theorem takesLongest (hp : r.grammar.Built) (hcounts : r.method.prefixParsing = true) :
    (r.parseFrom input offset).outcome.TakesLongest r.grammar input offset := by
  obtain ⟨furthest, stop?, -, hstop, hsuccess, hreports⟩ := r.exists_reports hp.regular input offset
  refine ⟨fun hwhole => ⟨hsuccess.mpr hwhole, ?_⟩, fun hpart => ?_, fun stop hend => ?_⟩
  · rw [hreports.prefixEnd, if_pos (hsuccess.mpr hwhole)]
  · have hfailed := eq_false_of_ne_true (mt hsuccess.mp hpart)
    refine ⟨hfailed, fun stop => ?_⟩
    rw [prefixEnd_eq_some_iff hp.regular]
    simp only [hfailed, hcounts, true_and]
  · obtain ⟨hlt, hle, f, hf, htokens⟩ := segment_of_prefixEnd hp.regular hend
    obtain ⟨-, hoffset, trimmed, hexact⟩ := r.exists_exact hp input offset hf
    obtain ⟨root, hroots, -, hidentity⟩ := hexact.root
    refine ⟨f, root, hf, htokens, hroots, ?_⟩
    have hsize : f.tokens.size = stop - offset := by
      rw [htokens, Array.size_extract, Nat.min_eq_left hle]
    simp only [Forest.span, Node.left, Node.right, hidentity, hoffset, hsize]
    congr
    omega

/-- If prefixes do not count, a run that fails accepts nothing. -/
theorem accepts_nothing (hp : r.grammar.Regular) (hcounts : r.method.prefixParsing = false)
    (hfailed : (r.parseFrom input offset).outcome.success = false) :
    (r.parseFrom input offset).outcome.prefixEnd = none ∧ (r.parseFrom input offset).outcome.forest = none := by
  obtain ⟨furthest, stop?, -, hstop, hsuccess, hreports⟩ := r.exists_reports hp input offset
  have hnone : stop? = none := by
    rw [Option.eq_none_iff_forall_ne_some]
    intro stop hsome
    rcases (hstop stop).mp hsome with ⟨hwhole, -⟩ | ⟨-, hcounts', -⟩
    · exact absurd (hfailed.symm.trans (hsuccess.mpr hwhole)) Bool.false_ne_true
    · exact absurd (hcounts.symm.trans hcounts') Bool.false_ne_true
  refine ⟨?_, ?_⟩
  · rw [hreports.prefixEnd, hfailed, hnone]
    rfl
  · exact Option.map_eq_none_iff.mp (by rw [hreports.forest, hnone, Option.map_none])

theorem offset_parseFrom (r : Recognizer α) (hp : r.grammar.Regular) (input : Array α) (offset : Nat) :
    (r.parseFrom input offset).outcome.offset = offset := by
  obtain ⟨_, _, -, -, -, hreports⟩ := r.exists_reports hp input offset
  exact hreports.offset_eq

/-- The tokens that a run accepted are the input between its offset and its end. -/
theorem segment_eq (r : Recognizer α) (hp : r.grammar.Regular) (input : Array α) (offset : Nat) :
    (r.parseFrom input offset).outcome.segment =
      (input.extract offset ((r.parseFrom input offset).outcome.segmentEnd input)).toList := by
  obtain ⟨furthest, stop?, -, hstop, hsuccess, hreports⟩ := r.exists_reports hp input offset
  unfold Outcome.segment Outcome.segmentEnd
  cases hcase : (r.parseFrom input offset).outcome.success with
  | true =>
    have hall : stop? = some (input.extract offset input.size).size :=
      (hstop _).mpr (.inl ⟨hsuccess.mp hcase, rfl⟩)
    have hforest := hreports.forest
    rw [hall, Option.map_some, Array.extract_size] at hforest
    obtain ⟨f, hf, htokens⟩ := Option.map_eq_some_iff.mp hforest
    rw [hf, Option.map_some, Option.getD_some, htokens, if_pos rfl]
  | false =>
    cases hend : (r.parseFrom input offset).outcome.prefixEnd with
    | some stop =>
      obtain ⟨-, -, f, hf, htokens⟩ := segment_of_prefixEnd hp hend
      rw [hf, Option.map_some, Option.getD_some, htokens, if_neg Bool.false_ne_true, Option.getD_some]
    | none =>
      have hnone := hreports.prefixEnd
      rw [hend, hcase, if_neg Bool.false_ne_true] at hnone
      have hforest := hreports.forest
      rw [Option.map_eq_none_iff.mp hnone.symm, Option.map_none, Option.map_eq_none_iff] at hforest
      rw [hforest, hreports.offset_eq, if_neg Bool.false_ne_true, Option.getD_none]
      simp

/-- Runs end behind where they begin. -/
theorem le_segmentEnd (r : Recognizer α) (hp : r.grammar.Regular) (input : Array α) (hoffset : offset ≤ input.size) :
    offset ≤ (r.parseFrom input offset).outcome.segmentEnd input := by
  unfold Outcome.segmentEnd
  split
  · exact hoffset
  · cases hend : (r.parseFrom input offset).outcome.prefixEnd with
    | some stop => exact Nat.le_of_lt (segment_of_prefixEnd hp hend).1
    | none => exact Nat.le_of_eq (r.offset_parseFrom hp input offset).symm

theorem continueAfter_eq_noPrefix_iff (r : Recognizer α) (o : Outcome α) (input : Array α) :
    r.continueAfter o input = .error .noPrefix ↔ o.prefixSucceeded = false := by
  unfold continueAfter Outcome.prefixSucceeded
  cases o.prefixEnd with
  | none => simp
  | some stop => cases o.success <;> simp

theorem continueAfter_eq_ok {o : Outcome α} {answer : Answer α} (h : r.continueAfter o input = .ok answer) :
    ∃ stop, o.prefixEnd = some stop ∧ o.success = false ∧ answer = r.parseFrom input stop := by
  unfold continueAfter at h
  split at h
  · rename_i stop hend
    split at h
    · cases h
    · rename_i hfailed
      cases h
      exact ⟨stop, hend, eq_false_of_ne_true hfailed, rfl⟩
  · cases h

/-! ## A chain of runs -/

/-- The last run of a chain begins where the runs before it have accepted the input, each at least one token of it. -/
structure Chained (r : Recognizer α) (input : Array α) (earlier : List (Outcome α)) (last : Outcome α) : Prop where
  last_eq : last = (r.parseFrom input last.offset).outcome
  le_size : last.offset ≤ input.size
  increasing : (earlier ++ [last]).Pairwise fun o o' => o.offset < o'.offset
  length_le : earlier.length ≤ last.offset
  covered : earlier.flatMap Outcome.segment = (input.extract 0 last.offset).toList

theorem Chained.next (hp : r.grammar.Regular) {earlier : List (Outcome α)} {last : Outcome α}
    (h : Chained r input earlier last) {answer : Answer α} (hanswer : r.continueAfter last input = .ok answer) :
    Chained r input (earlier ++ [last]) answer.outcome := by
  obtain ⟨stop, hend, hfailed, rfl⟩ := continueAfter_eq_ok hanswer
  have hsegment : last.segment = (input.extract last.offset stop).toList := by
    have heq := r.segment_eq hp input last.offset
    rw [← h.last_eq] at heq
    rw [heq, Outcome.segmentEnd, hfailed, hend]
    rfl
  rw [h.last_eq] at hend
  obtain ⟨hlt, hle, -⟩ := segment_of_prefixEnd hp hend
  have hoffset := r.offset_parseFrom hp input stop
  refine ⟨by rw [hoffset], by rw [hoffset]; exact hle, ?_, ?_, ?_⟩
  · rw [List.pairwise_append]
    refine ⟨h.increasing, List.pairwise_singleton _ _, fun o ho o' ho' => ?_⟩
    obtain rfl := List.mem_singleton.mp ho'
    rw [hoffset]
    rcases List.mem_append.mp ho with hearlier | hlast
    · have hbefore := (List.pairwise_append.mp h.increasing).2.2 o hearlier last (List.mem_singleton.mpr rfl)
      omega
    · obtain rfl := List.mem_singleton.mp hlast
      exact hlt
  · have hlength := h.length_le
    rw [hoffset, List.length_append, List.length_singleton]
    omega
  · rw [List.flatMap_append, h.covered, List.flatMap_singleton, hsegment, hoffset, ← Array.toList_append,
      Array.extract_append_extract]
    simp [Nat.le_of_lt hlt]

theorem Chain.chained (hp : r.grammar.Regular) {earlier : List (Outcome α)} {last : Outcome α}
    (h : Chain r input earlier last) : Chained r input earlier last := by
  induction h with
  | first =>
    have hoffset := r.offset_parseFrom hp input 0
    refine ⟨?_, ?_, List.pairwise_singleton _ _, Nat.zero_le _, ?_⟩
    · rw [parse, hoffset]
    · rw [parse, hoffset]
      exact Nat.zero_le _
    · rw [parse, hoffset]
      simp
  | next _ hanswer ih => exact ih.next hp hanswer

/-- The segments of a chain are the input up to the end of the last one. -/
theorem Chained.segments (hp : r.grammar.Regular) {earlier : List (Outcome α)} {last : Outcome α}
    (h : Chained r input earlier last) :
    (earlier ++ [last]).flatMap Outcome.segment = (input.extract 0 (last.segmentEnd input)).toList := by
  have hsegment := r.segment_eq hp input last.offset
  have hend := r.le_segmentEnd hp input h.le_size
  rw [← h.last_eq] at hsegment hend
  rw [List.flatMap_append, h.covered, List.flatMap_singleton, hsegment, ← Array.toList_append,
    Array.extract_append_extract]
  simp [hend]

/-- If prefixes count, a run accepts the whole input from its offset on or else the longest prefix of it, and its forest covers
what it accepts; if they do not, a run that fails accepts nothing. One can go on exactly after a prefix. Going on again
and again, the offsets increase, so it ends, and the accepted segments are the input, one after the other. -/
theorem segments_longest (r : Recognizer α) (hp : r.grammar.Built) (input : Array α) :
    (∀ offset, r.method.prefixParsing = true →
      (r.parseFrom input offset).outcome.TakesLongest r.grammar input offset) ∧
    (∀ offset, r.method.prefixParsing = false → (r.parseFrom input offset).outcome.success = false →
      (r.parseFrom input offset).outcome.prefixEnd = none ∧ (r.parseFrom input offset).outcome.forest = none) ∧
    (∀ o, r.continueAfter o input = .error .noPrefix ↔ o.prefixSucceeded = false) ∧
    ∀ earlier last, Chain r input earlier last →
      ((earlier ++ [last]).Pairwise fun o o' => o.offset < o'.offset) ∧ earlier.length ≤ input.size ∧
        (earlier ++ [last]).flatMap Outcome.segment = (input.extract 0 (last.segmentEnd input)).toList ∧
        (last.success = true → (earlier ++ [last]).flatMap Outcome.segment = input.toList) := by
  refine ⟨fun offset => takesLongest hp, fun offset => accepts_nothing hp.regular,
    fun o => r.continueAfter_eq_noPrefix_iff o input, fun earlier last hchain => ?_⟩
  have hchained := hchain.chained hp.regular
  have hsegments := hchained.segments hp.regular
  refine ⟨hchained.increasing, Nat.le_trans hchained.length_le hchained.le_size, hsegments, fun hsuccess => ?_⟩
  rw [hsegments, Outcome.segmentEnd, hsuccess, if_pos rfl, Array.extract_size]

/-- Pairs of letters are taken from four letters one after the other: the second run succeeds. -/
theorem segments_longest_pairs : ∃ first last : Outcome Char,
    Chain ⟨Sample.pairs, .earley { prefixParsing := true }, none⟩ #['a', 'a', 'a', 'a'] [first] last ∧
      first.prefixEnd = some 2 ∧ last.success = true ∧ first.segment ++ last.segment = ['a', 'a', 'a', 'a'] := by
  let r : Recognizer Char := ⟨Sample.pairs, .earley { prefixParsing := true }, none⟩
  have hfirst : (r.parse #['a', 'a', 'a', 'a']).outcome.prefixEnd = some 2 := by decide +kernel
  have hfailed : (r.parse #['a', 'a', 'a', 'a']).outcome.success = false := by decide +kernel
  have hlast : (r.parseFrom #['a', 'a', 'a', 'a'] 2).outcome.success = true := by decide +kernel
  have hnext : r.continueAfter (r.parse #['a', 'a', 'a', 'a']).outcome #['a', 'a', 'a', 'a'] =
      .ok (r.parseFrom #['a', 'a', 'a', 'a'] 2) := by
    rw [continueAfter, hfirst, hfailed]
    rfl
  have hchain : Chain r #['a', 'a', 'a', 'a'] [(r.parse #['a', 'a', 'a', 'a']).outcome]
      (r.parseFrom #['a', 'a', 'a', 'a'] 2).outcome := .next .first hnext
  obtain ⟨-, -, -, hsegments⟩ := segments_longest r (Sample.built_prepare _) #['a', 'a', 'a', 'a']
  have hwhole := (hsegments _ _ hchain).2.2.2 hlast
  rw [List.flatMap_append, List.flatMap_singleton, List.flatMap_singleton] at hwhole
  exact ⟨_, _, hchain, hfirst, hlast, hwhole⟩

end Recognizer
end ContextFree
