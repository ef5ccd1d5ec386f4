-- SUMMARY: Extraction as a loop: it expands every node that is not a terminal once, and it ends.
import ContextFree.Proofs.Gll.Extraction
import ContextFree.Proofs.Loops

/-!
# Expansions

Extraction takes the latest pending node and expands it, which makes other nodes pending. A node becomes pending when it is
created and never again, so the nodes that were taken and those that are pending are all inner nodes of the table, each
of them once.
-/
namespace ContextFree.Gll.Extraction

variable {α : Type} [DecidableEq α] {p : Prepared α} {tokens : Array α} {splits : Splits} {stop : Nat}
  {x x' : Extraction} {id : NodeId} {taken : List NodeId}

/-- The latest pending node is taken and expanded. -/
def Expands (p : Prepared α) (splits : Splits) (x : Extraction) (id : NodeId) (x' : Extraction) : Prop :=
  ∃ pending, x.pending = id :: pending ∧ x' = expand p splits id ⟨x.table, pending⟩

/-- What extraction of the derivations up to `stop` comes to by expanding these nodes one after the other. -/
def Expansions (p : Prepared α) (splits : Splits) (stop : Nat) : List NodeId → Extraction → Prop :=
  Steps (Expands p splits) (child ⟨.symbol (.nonterminal p.start), 0, stop⟩ {}).2

namespace Expansions

variable (hp : p.Regular) (hsplits : SoundSplits p tokens splits)
  (hderives : p.DerivesSpan tokens [.nonterminal p.start] 0 stop)

include hp hsplits hderives

theorem extracting (h : Expansions p splits stop taken x) : x.Extracting p tokens splits stop := by
  refine Steps.invariant h (extracting_root splits hderives).1 fun {s id s'} hs hstep => ?_
  obtain ⟨pending, hpending, rfl⟩ := hstep
  exact (hs.step hp hsplits hpending).1

theorem balance (h : Expansions p splits stop taken x) : taken.length + x.pending.length = (inner x.table).card := by
  induction h with
  | start => simpa using (extracting_root splits hderives).2.symm
  | next hsteps hstep ih =>
    obtain ⟨pending, hpending, rfl⟩ := hstep
    have hbalance := ((extracting hp hsplits hderives hsteps).step hp hsplits hpending).2.balance
    rw [hpending, List.length_cons] at ih
    rw [List.length_append, List.length_singleton]
    dsimp only at hbalance
    omega

/-- An inner node has been taken or is pending. -/
theorem covers (h : Expansions p splits stop taken x) : ∀ id ∈ inner x.table, id ∈ taken ++ x.pending := by
  induction h with
  | start =>
    intro id hid
    have hroot := (child_spec (x := {}) NodeTable.consistent_empty ⟨.symbol (.nonterminal p.start), 0, stop⟩).2.1
    exact (hroot.queued id hid).resolve_left (Nat.not_lt_zero id)
  | @next taken s s' id hsteps hstep ih =>
    obtain ⟨pending, hpending, rfl⟩ := hstep
    have hgrows := ((extracting hp hsplits hderives hsteps).step hp hsplits hpending).2
    intro id' hid'
    rw [List.append_assoc, List.singleton_append]
    rcases hgrows.queued id' hid' with hlt | hnew
    · have hinner : id' ∈ inner s.table := by
        refine Finset.mem_filter.mpr ⟨Finset.mem_range.mpr hlt, ?_⟩
        rw [← hgrows.table.identity_eq hlt]
        exact (Finset.mem_filter.mp hid').2
      rcases List.mem_append.mp (ih id' hinner) with htaken | hold
      · exact List.mem_append_left _ htaken
      · rw [hpending] at hold
        rcases List.mem_cons.mp hold with rfl | hrest
        · exact List.mem_append_right _ List.mem_cons_self
        · exact List.mem_append_right _ (List.mem_cons_of_mem _ (hgrows.pending id' hrest))
    · exact List.mem_append_right _ (List.mem_cons_of_mem _ hnew)

/-- Every inner node is taken once or pending once. -/
theorem lists (h : Expansions p splits stop taken x) :
    (taken ++ x.pending).Nodup ∧ ∀ id, id ∈ taken ++ x.pending ↔ id ∈ inner x.table := by
  refine nodup_of_covers (covers hp hsplits hderives h) ?_
  rw [List.length_append, balance hp hsplits hderives h]

theorem length_le (h : Expansions p splits stop taken x) : taken.length ≤ expansionBound p stop := by
  have hbalance := balance hp hsplits hderives h
  have hle := (extracting hp hsplits hderives h).card_inner_le hp
  omega

omit hsplits hderives hp [DecidableEq α] in
/-- Draining expands nodes one after the other. -/
theorem drain (h : Expansions p splits stop taken x) (fuel : Nat) :
    ∃ more, Expansions p splits stop (taken ++ more) (x.drain p splits fuel) := by
  induction fuel generalizing taken x with
  | zero => exact ⟨[], by rwa [List.append_nil]⟩
  | succ fuel ih =>
    obtain ⟨table, pending⟩ := x
    cases pending with
    | nil => exact ⟨[], by rwa [List.append_nil]⟩
    | cons id pending =>
      obtain ⟨more, hmore⟩ := ih (.next h ⟨pending, rfl, rfl⟩)
      exact ⟨id :: more, by rwa [List.append_cons]⟩

/-- Extraction expands nodes until none is pending. -/
theorem exists_extract : ∃ taken x, Expansions p splits stop taken x ∧ x.pending = [] ∧
    x.table = (extract p splits stop).2 := by
  have hstart : Expansions p splits stop [] (child ⟨.symbol (.nonterminal p.start), 0, stop⟩ {}).2 := .start
  obtain ⟨hroot, hcard⟩ := extracting_root splits hderives
  obtain ⟨-, -, hnone⟩ := hroot.drain hp hsplits (expansionBound p stop) (by omega)
  obtain ⟨taken, htaken⟩ := hstart.drain (expansionBound p stop)
  exact ⟨taken, _, htaken, hnone, rfl⟩

end Expansions
end ContextFree.Gll.Extraction
