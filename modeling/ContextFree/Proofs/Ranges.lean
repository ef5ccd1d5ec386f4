-- SUMMARY: No index that parsing, finishing or walking uses is out of range.
import ContextFree.Proofs.Ranges.Descriptors
import ContextFree.Proofs.Ranges.ItemSets
import ContextFree.Proofs.Ranges.Walks

/-!
# Ranges

The ranges come from different places. Matches end inside the tokens, and what is derived lies between ends of matches. Dotted
states are laid out rule by rule, so that a dot which stands before a symbol can be moved over it. Nodes are numbered as
they are interned, and anew when a forest is compacted. The forest of a prefix has fewer tokens than were read, and no node
reaches behind them, because every node that is kept is part of a derivation of the root.
-/
namespace ContextFree.Recognizer

variable {α : Type} [DecidableEq α] [Quote α] {p : Prepared α}

/-- What one recognizer makes of an input is in range: the steps of finishing, the forest over the accepted tokens, and every
walker over the forest. -/
structure FinishesInRange (r : Recognizer α) (input : Array α) (offset : Nat) : Prop where
  steps : ∀ table root stop, r.unfinished? input offset = some (table, root, stop) →
    stop ≤ (input.extract offset input.size).size ∧ Forest.FinishesInRange r.grammar table [root]
  forest : ∀ f, (r.parseFrom input offset).outcome.forest = some f → f.grammar = r.grammar ∧ f.InRange ∧
    f.tokens.size ≤ (input.extract offset input.size).size ∧
    f.tokens = (input.extract offset input.size).extract 0 f.tokens.size
  walkers : ∀ f, (r.parseFrom input offset).outcome.forest = some f → ∀ (σ : Type) (selector : Selector σ) (w : Walker α σ),
    Walker.Reached f selector w → w.InRange f selector

theorem finishesInRange (r : Recognizer α) (hp : r.grammar.Built) (hrange : r.grammar.InRange) (input : Array α)
    (offset : Nat) : r.FinishesInRange input offset where
  steps table root stop hunfinished := by
    have hexact := r.unfinished?_exact hp.regular input offset hunfinished
    exact ⟨hexact.stop_le hp.regular, Forest.finishesInRange hexact.rooted⟩
  forest f hf := by
    obtain ⟨hgrammar, -, trimmed, hforest⟩ := r.exists_exact hp input offset hf
    rw [forest_parseFrom, Option.map_eq_some_iff] at hf
    obtain ⟨⟨table, root, stop⟩, hunfinished, rfl⟩ := hf
    have hrooted := (r.unfinished?_exact hp.regular input offset hunfinished).rooted
    refine ⟨hgrammar, ?_, ?_, hforest.tokens_eq⟩
    · exact hforest.inRange hrange (Forest.wellFormed_finish hrooted) (Forest.coherent_finish hrooted)
    · have hsize := congrArg Array.size hforest.tokens_eq
      rw [Array.size_extract] at hsize
      omega
  walkers f hf σ selector w hw := by
    obtain ⟨-, -, trimmed, hforest⟩ := r.exists_exact hp input offset hf
    exact hw.inRange hforest

/-- No index is out of range, for any grammar that was built from its own symbols, any input, offset, method and configuration,
and whatever is called on a walker. -/
theorem indices_in_range (hp : p.Built) (hown : p.grammar.SelfContained) (monitor : Option Monitor) (input : Array α)
    (offset : Nat) :
    let tokens := input.extract offset input.size
    let frequency? := monitor.map Monitor.frequency
    p.InRange ∧
    (∀ t, ∀ position ≤ tokens.size, position + p.matchLength t tokens position ≤ tokens.size) ∧
    (∀ config, Earley.RecognizesInRange { grammar := p, config, tokens, offset } frequency?) ∧
    (∀ config,
      let job : Gll.Job α := { grammar := p, config, tokens }
      let run := (Gll.recognize job frequency?).2
      Gll.RecognizesInRange job frequency? ∧
      ∀ stop, Gll.acceptedEnd? config tokens.size (run.calls.ends.get (p.start, 0)) = some stop →
        stop ≤ tokens.size ∧ Gll.ExtractsInRange p run.splits stop) ∧
    ∀ method, FinishesInRange ⟨p, method, monitor⟩ input offset := by
  intro tokens frequency?
  have hrange := hp.inRange hown
  refine ⟨hrange, fun t position hposition => ?_, fun config => ?_, fun config => ⟨?_, fun stop hstop => ?_⟩, fun method => ?_⟩
  · have hle := p.matchLength_le t tokens position
    omega
  · exact Earley.recognizesInRange hp.regular hrange frequency?
  · exact Gll.recognizesInRange hp.regular hrange frequency?
  · have hfinished : (Gll.recognize ⟨p, config, tokens⟩ frequency?).2.Finished ⟨p, config, tokens⟩ :=
      Gll.recognize_finished hp.regular frequency?
    have hextracts := hfinished.extractsInRange hp.regular hrange hstop
    exact hextracts
  · exact finishesInRange ⟨p, method, monitor⟩ hp hrange input offset

/-- Of four letters behind the first the sums accept three, and nodes are trimmed and dropped. The forest and a walker with a
plan are in range of the three letters. Recognition from behind the end of the input is in range of no letters. -/
theorem indices_in_range_sums :
    let input := #['b', 'a', 'a', 'a', 'b']
    Sample.sums.Built ∧ Sample.sums.grammar.SelfContained ∧
    (∃ (f : Forest Char) (w : Walker Char Unit),
      (parseFrom ⟨Sample.sums, .earley { prefixParsing := true }, none⟩ input 1).outcome.forest = some f ∧
      f.tokens = #['a', 'a', 'a'] ∧ f.InRange ∧ w.plan.length = 1 ∧ w.hasMore = true ∧ w.InRange f Sample.lastUntried) ∧
    Earley.RecognizesInRange { grammar := Sample.sums, config := {}, tokens := input.extract 9 5, offset := 9 } none := by
  intro input
  have hbuilt : Sample.sums.Built := Sample.built_prepare _
  have hown : Sample.sums.grammar.SelfContained := by decide +kernel
  have hread : (parseFrom ⟨Sample.sums, .earley { prefixParsing := true }, none⟩ input 1).outcome.forest.map (fun f =>
      let w := (Walker.new f Sample.lastUntried).next.walker
      (f.tokens, w.plan.length, w.hasMore)) = some (#['a', 'a', 'a'], 1, true) := by decide +kernel
  obtain ⟨f, hf, hfacts⟩ := Option.map_eq_some_iff.mp hread
  simp only [Prod.mk.injEq] at hfacts
  obtain ⟨htokens, hplan, hmore⟩ := hfacts
  obtain ⟨-, -, -, -, hfinishes⟩ := indices_in_range hbuilt hown none input 1
  obtain ⟨-, hforest, hwalkers⟩ := hfinishes (.earley { prefixParsing := true })
  obtain ⟨-, -, hearley, -⟩ := indices_in_range hbuilt hown none input 9
  exact ⟨hbuilt, hown, ⟨f, _, hf, htokens, (hforest f hf).2.1, hplan, hmore,
    hwalkers f hf Unit Sample.lastUntried _ (.next .new)⟩, hearley {}⟩

end ContextFree.Recognizer
