-- SUMMARY: Every index that recognition by descriptors uses is in range, and so is every index of extraction.
import ContextFree.Proofs.Gll.Expansions
import ContextFree.Proofs.Gll.Schedules
import ContextFree.Proofs.Ranges.Tables

/-!
# Ranges of descriptors

A step reads what the run holds when it begins: the points to which its descriptor leads over terminals, and the return points
and ends of calls. What it adds on the way is not read before the next step, so it is enough to look at the runs between
steps. Extraction is a list of splits for each node that it expands. The list can be read off the recorded splits before
the first of them is packed, and it is followed split by split.
-/
namespace ContextFree

section Pivots

variable {α : Type} [DecidableEq α] {p : Prepared α} {tokens : Array α} {before : List Symbol} {i k j : Nat}

theorem Prepared.SplitsAt.left_le_pivot (h : p.SplitsAt tokens before i k j) : i ≤ k := by
  cases h with
  | nothing => exact Nat.le_refl _
  | last hbefore _ => exact hbefore.le

theorem Prepared.SplitsAt.pivot_le_right (h : p.SplitsAt tokens before i k j) : k ≤ j := by
  cases h with
  | nothing => exact Nat.le_refl _
  | last _ hlast => exact hlast.le

end Pivots

namespace Gll

variable {α : Type} [DecidableEq α]

-- ---------------------------------------------------------------------------
-- Recognition
-- ---------------------------------------------------------------------------

namespace Run

variable {job : Job α} {run : Run} {slot : StateId} {i j : Nat} {taken : List Descriptor}

/-- What a run holds is in range: the points that its rules have passed, the calls with their return points and ends, and the
splits. From each point the dot can be moved over the symbol after it, and a terminal there matches inside the input. -/
structure InRange (job : Job α) (run : Run) : Prop where
  pending : ∀ d ∈ run.pending, d ∈ run.seen
  point : ∀ slot i j, Finished.Passed job run slot i j → slot < job.grammar.states.size ∧ i ≤ j ∧ j ≤ job.tokens.size
  next : ∀ slot i j, Finished.Passed job run slot i j → ∀ symbol, (job.grammar.state slot).next = some symbol →
    job.grammar.states.advance slot = .ok (slot + 1) ∧ slot + 1 < job.grammar.states.size ∧ job.grammar.grammar.Owns symbol
  scan : ∀ slot i j, Finished.Passed job run slot i j → ∀ t, (job.grammar.state slot).next = some (.terminal t) →
    j + job.grammar.matchLength t job.tokens j ≤ job.tokens.size
  opened : ∀ A k, (A, k) ∈ run.calls.opened → k ≤ job.tokens.size
  returns : ∀ A k, ∀ point ∈ run.calls.returns.get (A, k),
    point.1 < job.grammar.states.size ∧ point.2 ≤ k ∧ k ≤ job.tokens.size
  ends : ∀ A k, ∀ stop ∈ run.calls.ends.get (A, k), k ≤ stop ∧ stop ≤ job.tokens.size
  splits : ∀ slot i j, ∀ k ∈ run.splits.get (slot, i, j),
    slot < job.grammar.states.size ∧ i ≤ k ∧ k ≤ j ∧ j ≤ job.tokens.size
  furthest_le : run.furthest ≤ job.tokens.size

/-- However a point was come to, the rule derives what stands before its dot. -/
theorem Sound.exists_following (hp : job.grammar.Regular) (hs : run.Sound job) (h : Finished.Passed job run slot i j) :
    ∃ id before after, Following job run.calls slot i j id before after := by
  induction h with
  | seen hd =>
    obtain ⟨id, before, after, hqueued⟩ := hs.seen hd
    exact ⟨id, before, after, hqueued.toFollowing⟩
  | @scan slot id before after t i k hdot _ hpos ih =>
    obtain ⟨id', before', after', hfollowing⟩ := ih
    obtain ⟨rfl, rfl, rfl⟩ := hdot.unique hp hfollowing.atDot
    exact ⟨id, _, after, hfollowing.step (.terminal hpos (.nil _))⟩

theorem Sound.inRange (hp : job.grammar.Regular) (hrange : job.grammar.InRange) (hs : run.Sound job) : run.InRange job where
  pending _ := hs.pending
  point slot i j hpassed := by
    obtain ⟨id, before, after, h⟩ := hs.exists_following hp hpassed
    exact ⟨h.atDot.lt_size hp, h.derives.le, (h.reaches hp hs).le_size⟩
  next slot i j hpassed symbol hnext := by
    obtain ⟨id, before, after, h⟩ := hs.exists_following hp hpassed
    have hlt := h.atDot.lt_size hp
    have howns := hrange.next slot hlt symbol hnext
    rw [h.atDot.next_eq hp] at hnext
    cases after with
    | nil => cases hnext
    | cons symbol' after => exact ⟨h.atDot.advance_eq hp, h.atDot.step.lt_size hp, howns⟩
  scan slot i j hpassed t hnext := by
    obtain ⟨id, before, after, h⟩ := hs.exists_following hp hpassed
    have hle := (h.reaches hp hs).le_size
    have hmatch := job.grammar.matchLength_le t job.tokens j
    omega
  opened A k hopened := ((hs.opened hopened).any.reaches hp).le_size
  returns A k point hpoint := by
    obtain ⟨slot, id, before, after, hslot, h⟩ := hs.returns hpoint
    rw [hslot]
    exact ⟨h.atDot.step.lt_size hp, h.derives.le, (h.reaches hp hs).le_size⟩
  ends A k stop hstop := by
    obtain ⟨hderives, hopened⟩ := hs.ends hstop
    exact ⟨hderives.le, hderives.stop_le ((hs.opened hopened).any.reaches hp).le_size⟩
  splits slot i j k hk := by
    obtain ⟨id, before, after, hdot, -, -, hsplit⟩ := hs.splits hk
    exact ⟨hdot.lt_size hp, hsplit.left_le_pivot, hsplit.pivot_le_right, hs.splits_le hk⟩
  furthest_le := hs.furthest.le_size

/-- Whatever the order in which descriptors are taken, the run is in range. -/
theorem Schedule.inRange (hp : job.grammar.Regular) (hrange : job.grammar.InRange) (h : Schedule job taken run) :
    run.InRange job :=
  (h.draining hp).sound.inRange hp hrange

end Run

/-- Recognition follows a schedule, and whatever the schedule, the runs are in range. -/
structure RecognizesInRange (job : Job α) (frequency? : Option Nat) : Prop where
  ends : ∃ taken, Run.Schedule job taken (recognize job frequency?).2 ∧ (recognize job frequency?).2.pending = []
  runs : ∀ taken run, Run.Schedule job taken run → run.InRange job

theorem recognizesInRange {job : Job α} (hp : job.grammar.Regular) (hrange : job.grammar.InRange) (frequency? : Option Nat) :
    RecognizesInRange job frequency? where
  ends := Run.exists_schedule_recognize hp frequency?
  runs _ _ h := h.inRange hp hrange

-- ---------------------------------------------------------------------------
-- Extraction
-- ---------------------------------------------------------------------------

namespace Extraction

variable {p : Prepared α} {tokens : Array α} {splits : Splits} {stop : Nat} {x x' : Extraction} {parent : NodeId}
  {taken : List NodeId}

/-- A split that is packed under a node. -/
structure Packing where
  parent : NodeId
  slot : StateId
  i : Nat
  k : Nat
  j : Nat

def Packing.make (p : Prepared α) (x : Extraction) (m : Packing) : Extraction :=
  x.pack p m.parent m.slot m.i m.k m.j

/-- The recorded splits of a state over an extent. -/
def packingsAt (splits : Splits) (parent : NodeId) (slot : StateId) (left right : Nat) : List Packing :=
  (splits.get (slot, left, right)).toList.map (⟨parent, slot, left, ·, right⟩)

/-- The splits that are packed when a node is expanded. -/
def packings (p : Prepared α) (splits : Splits) (parent : NodeId) (t : NodeTable) : List Packing :=
  let ⟨label, left, right⟩ := (t.node parent).identity
  match label with
  | .symbol (.nonterminal A) =>
    (p.rulesFor A).toList.flatMap fun rule =>
      packingsAt splits parent (p.states.completed rule (p.rule rule).rhs.length) left right
  | .symbol (.terminal _) => []
  | .state slot => packingsAt splits parent slot left right

omit [DecidableEq α] in
theorem foldl_packingsAt (p : Prepared α) (splits : Splits) (parent : NodeId) (slot : StateId) (left right : Nat)
    (x : Extraction) :
    (packingsAt splits parent slot left right).foldl (Packing.make p) x = x.packAll p splits parent slot left right := by
  rw [packingsAt, List.foldl_map, packAll, ← Array.foldl_toList]
  rfl

omit [DecidableEq α] in
/-- Packing them one after the other expands the node. -/
theorem foldl_packings (p : Prepared α) (splits : Splits) (parent : NodeId) (x : Extraction) :
    (packings p splits parent x.table).foldl (Packing.make p) x = expand p splits parent x := by
  unfold packings expand
  obtain ⟨label, left, right⟩ := (x.table.node parent).identity
  match label with
  | .symbol (.terminal t) => rfl
  | .state slot => exact foldl_packingsAt p splits parent slot left right x
  | .symbol (.nonterminal A) =>
    simp only [List.foldl_flatMap, foldl_packingsAt, ← Array.foldl_toList]

/-- Extraction packs this split when it has come to `x`. -/
inductive Packs (p : Prepared α) (splits : Splits) (stop : Nat) : Extraction → Packing → Prop where
  | mk {taken : List NodeId} {y : Extraction} {id : NodeId} {pending : List NodeId} {done rest : List Packing} {m : Packing} :
      Expansions p splits stop taken y → y.pending = id :: pending → packings p splits id y.table = done ++ m :: rest →
      Packs p splits stop (done.foldl (Packing.make p) ⟨y.table, pending⟩) m

/-- The table is in range, and what is pending is in the table. -/
structure InRange (p : Prepared α) (stop : Nat) (x : Extraction) : Prop where
  table : x.table.InRange p stop
  pending_lt : ∀ id ∈ x.pending, id < x.table.size

/-- What a split names is in range. Where the family needs the first symbol of the rule or the state before, there is one. -/
structure Packing.InRange (p : Prepared α) (stop : Nat) (x : Extraction) (m : Packing) : Prop where
  parent_lt : m.parent < x.table.size
  slot_lt : m.slot < p.states.size
  left_le : m.i ≤ m.k
  pivot_le : m.k ≤ m.j
  right_le : m.j ≤ stop
  first : (p.state m.slot).dot = 2 → (p.rule (p.state m.slot).rule).rhs ≠ []
  before : 0 < (p.state m.slot).dot → ∃ slot, p.states.retreat m.slot = some slot ∧ slot < p.states.size

/-- What has to be so when a split is packed. It stays so while the table grows. -/
def Packing.Ready (p : Prepared α) (tokens : Array α) (x : Extraction) (m : Packing) : Prop :=
  ∃ id before after, p.AtDot m.slot id before after ∧ id ∈ p.rulesFor (p.rule id).lhs ∧ HasOwnNode before after ∧
    p.SplitsAt tokens before m.i m.k m.j ∧ m.parent < x.table.size ∧
    (x.table.node m.parent).identity = partIdentity p m.slot id before after m.i m.j

namespace Packing

variable {m : Packing}

theorem Ready.mono (h : m.Ready p tokens x) (hgrows : Grows x x') : m.Ready p tokens x' := by
  obtain ⟨id, before, after, hdot, hid, hown, hsplit, hlt, hparent⟩ := h
  exact ⟨id, before, after, hdot, hid, hown, hsplit, Nat.lt_of_lt_of_le hlt hgrows.table.size_le,
    (hgrows.table.identity_eq hlt).trans hparent⟩

theorem Ready.proper (hp : p.Regular) (hx : x.Proper p tokens stop) (h : m.Ready p tokens x) :
    (m.make p x).Proper p tokens stop ∧ Grows x (m.make p x) := by
  obtain ⟨id, before, after, hdot, hid, hown, hsplit, hlt, hparent⟩ := h
  obtain ⟨hproper, hgrows, -⟩ := hx.pack hp hlt hdot hid hown hparent hsplit
  exact ⟨hproper, hgrows⟩

theorem Ready.inRange (hp : p.Regular) (hx : x.Proper p tokens stop) (h : m.Ready p tokens x) : m.InRange p stop x := by
  obtain ⟨id, before, after, hdot, -, hown, hsplit, hlt, hparent⟩ := h
  have hright : m.j ≤ stop := by
    have hright := hx.right_le ⟨m.parent, hlt, hparent⟩
    rcases hown.identity_cases p m.slot id m.i m.j with ⟨-, heq⟩ | ⟨-, -, heq⟩ <;> rwa [heq] at hright
  refine ⟨hlt, hdot.lt_size hp, hsplit.left_le_pivot, hsplit.pivot_le_right, hright, fun htwo => ?_, fun hpos => ?_⟩
  · rw [hdot.dot_eq hp] at htwo
    rw [hdot.rule_eq hp, hdot.rhs_eq]
    exact List.append_ne_nil_of_left_ne_nil (List.ne_nil_of_length_pos (by omega)) after
  · rw [hdot.dot_eq hp] at hpos
    obtain ⟨before, symbol, rfl⟩ := (List.eq_nil_or_concat before).resolve_left (List.ne_nil_of_length_pos hpos)
    rw [List.concat_eq_append] at hdot
    obtain ⟨previous, hslot, hback⟩ := hdot.back
    rw [hslot] at hdot ⊢
    exact ⟨previous, hdot.retreat_eq hp, hback.lt_size hp⟩

/-- Splits that are ready at first are ready when it is their turn. -/
theorem proper_foldl (hp : p.Regular) {ms : List Packing} (hx : x.Proper p tokens stop)
    (hready : ∀ m ∈ ms, m.Ready p tokens x) :
    (ms.foldl (make p) x).Proper p tokens stop ∧ Grows x (ms.foldl (make p) x) := by
  induction ms generalizing x with
  | nil => exact ⟨hx, .refl x⟩
  | cons m ms ih =>
    obtain ⟨hm, hrest⟩ := List.forall_mem_cons.mp hready
    obtain ⟨hproper, hgrows⟩ := hm.proper hp hx
    obtain ⟨hlast, hgrows'⟩ := ih hproper fun m' hm' => (hrest m' hm').mono hgrows
    exact ⟨hlast, hgrows.trans hgrows'⟩

end Packing

/-- The splits of a node that is expanded are all ready. -/
theorem Proper.ready_packings (hp : p.Regular) (hsplits : SoundSplits p tokens splits) (hx : x.Proper p tokens stop)
    (hlt : parent < x.table.size) : ∀ m ∈ packings p splits parent x.table, m.Ready p tokens x := by
  -- a state stands for one position of one rule, so its splits are all of the same part
  have hready : ∀ {slot id before after left right}, p.AtDot slot id before after →
      (x.table.node parent).identity = partIdentity p slot id before after left right →
      ∀ m ∈ packingsAt splits parent slot left right, m.Ready p tokens x := by
    intro slot id before after left right hdot hparent m hm
    obtain ⟨k, hk, rfl⟩ := List.mem_map.mp hm
    obtain ⟨id', before', after', hdot', hid, hown, hsplit⟩ := hsplits (Array.mem_toList_iff.mp hk)
    obtain ⟨rfl, rfl, rfl⟩ := hdot.unique hp hdot'
    exact ⟨id, before, after, hdot, hid, hown, hsplit, hlt, hparent⟩
  have hderived := hx.faithful.derived ⟨parent, hlt, rfl⟩
  unfold packings
  generalize hparent : (x.table.node parent).identity = identity at hderived
  obtain ⟨label, left, right⟩ := identity
  match label with
  | .symbol (.terminal t) => exact fun m hm => absurd hm List.not_mem_nil
  | .state slot =>
    obtain ⟨id, before, after, hdot, htwo, hne, -⟩ := hderived
    have hown : HasOwnNode before after := .inr htwo
    rcases hown.identity_cases p slot id left right with ⟨hnil, -⟩ | ⟨-, -, hidentity⟩
    · exact absurd hnil hne
    · exact hready hdot (hparent.trans hidentity.symm)
  | .symbol (.nonterminal A) =>
    intro m hm
    obtain ⟨id, hid, hat⟩ := List.mem_flatMap.mp hm
    obtain ⟨hrule, -, rfl⟩ := hp.mem_rulesFor.mp (Array.mem_toList_iff.mp hid)
    exact hready (Prepared.atDot_completed hrule) hparent m hat

theorem Proper.inRange (hp : p.Regular) (hrange : p.InRange) (hx : x.Proper p tokens stop) : x.InRange p stop :=
  ⟨hx.faithful.inRange hp hrange fun id hid => hx.right_le ⟨id, hid, rfl⟩, hx.pending_lt⟩

variable (hp : p.Regular) (hrange : p.InRange) (hsplits : SoundSplits p tokens splits)
  (hderives : p.DerivesSpan tokens [.nonterminal p.start] 0 stop)

include hp hrange hsplits hderives

theorem Expansions.inRange (h : Expansions p splits stop taken x) : x.InRange p stop :=
  (h.extracting hp hsplits hderives).toProper.inRange hp hrange

/-- Every split that extraction packs is in range, and so is the extraction to which it is added. -/
theorem Packs.inRange {m : Packing} (h : Packs p splits stop x m) : x.InRange p stop ∧ m.InRange p stop x := by
  obtain ⟨hexpansions, hpending, hpackings⟩ := h
  rename_i taken y id pending done rest
  have hy := hexpansions.extracting hp hsplits hderives
  have hlt : id < y.table.size := hy.pending_lt id (hpending ▸ List.mem_cons_self)
  -- the splits that were packed before this one have left the table proper and added to it only
  have htaken : Proper p tokens stop ⟨y.table, pending⟩ :=
    ⟨hy.faithful, hy.right_le, fun id' hid' => hy.pending_lt id' (hpending ▸ List.mem_cons_of_mem id hid')⟩
  have hready := htaken.ready_packings hp hsplits hlt
  rw [hpackings] at hready
  obtain ⟨hdone, hm⟩ := List.forall_mem_append.mp hready
  obtain ⟨hproper, hgrows⟩ := Packing.proper_foldl hp htaken hdone
  exact ⟨hproper.inRange hp hrange, ((hm m List.mem_cons_self).mono hgrows).inRange hp hproper⟩

end Extraction

open Extraction

/-- Extraction up to `stop` expands nodes until none is pending, each by packing its splits, and all of this is in range. -/
structure ExtractsInRange (p : Prepared α) (splits : Splits) (stop : Nat) : Prop where
  ends : ∃ taken x, Expansions p splits stop taken x ∧ x.pending = [] ∧ x.table = (extract p splits stop).2
  packings : ∀ id x, (packings p splits id x.table).foldl (Packing.make p) x = expand p splits id x
  expansions : ∀ taken x, Expansions p splits stop taken x → x.InRange p stop
  packs : ∀ x m, Packs p splits stop x m → x.InRange p stop ∧ m.InRange p stop x

/-- An accepted end lies inside the input, and extraction up to it is in range. -/
theorem Run.Finished.extractsInRange {job : Job α} {run : Run} {stop : Nat} (hp : job.grammar.Regular)
    (hrange : job.grammar.InRange) (h : run.Finished job)
    (hstop : acceptedEnd? job.config job.tokens.size (run.calls.ends.get (job.grammar.start, 0)) = some stop) :
    stop ≤ job.tokens.size ∧ ExtractsInRange job.grammar run.splits stop := by
  have hsplits : SoundSplits job.grammar job.tokens run.splits := fun _ _ _ _ hk => h.sound.splits hk
  have hderives := (h.sound.ends (acceptedEnd?_spec hstop).1).1
  refine ⟨hderives.stop_le (Nat.zero_le _), ?_⟩
  exact
    { ends := Expansions.exists_extract hp hsplits hderives
      packings := foldl_packings job.grammar run.splits
      expansions := fun _ _ hx => hx.inRange hp hrange hsplits hderives
      packs := fun _ _ hm => hm.inRange hp hrange hsplits hderives }

end Gll
end ContextFree
