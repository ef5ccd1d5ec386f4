-- SUMMARY: What a walker does does not depend on the numbers of the nodes, so it is the same over the forests of both methods.
import ContextFree.Proofs.Forest.Renumbering
import ContextFree.Proofs.Walk.Choosing

/-!
# Walks over renumbered forests

Walks keep tables by the numbers of nodes: what escapes were found, which families were taken and completed, which nodes
are open, what is planned. Over two forests that are renumberings of each other, with a selector that does not look at the
numbers, these tables stay renumberings of each other at every step. The choices are then the same, and so is all that a
walk reports. A walker goes from walk to walk in the same way, whatever calls it is given.
-/
namespace ContextFree

variable {α σ : Type} {ρ : NodeId → NodeId}

/-! ## Selectors that do not look at numbers -/

/-- The same child under another number. -/
def ChildView.renumber (ρ : NodeId → NodeId) (v : ChildView) : ChildView := { v with node := ρ v.node }

/-- The same family with its children under other numbers. -/
def Candidate.renumber (ρ : NodeId → NodeId) (c : Candidate) : Candidate :=
  { c with children := c.children.map (·.renumber ρ) }

@[simp] theorem Candidate.family_renumber (c : Candidate) : (c.renumber ρ).family = c.family := rfl

@[simp] theorem Candidate.priority_renumber (c : Candidate) : (c.renumber ρ).priority = c.priority := by
  simp only [priority, renumber, List.filterMap_map]
  rfl

theorem untried_renumber (candidates : List Candidate) (tried : List Nat) :
    untried (candidates.map (·.renumber ρ)) tried =
      (untried candidates tried).map fun (candidate, i) => (candidate.renumber ρ, i) := by
  simp only [untried, List.zipIdx_map, List.filter_map]
  rfl

theorem firstUntried_renumber (candidates : List Candidate) (tried : List Nat) :
    firstUntried (candidates.map (·.renumber ρ)) tried = firstUntried candidates tried := by
  simp only [firstUntried, untried_renumber, List.head?_map, Option.map_map]
  rfl

namespace Selector

/-- The answers of the selector do not depend on the numbers of the children. -/
def IgnoresNumbers (s : Selector σ) : Prop :=
  ∀ ρ candidates tried memory, s.select (candidates.map (·.renumber ρ)) tried memory = s.select candidates tried memory

theorem best?_renumber (candidates : List (Candidate × Nat)) :
    best? (candidates.map fun (candidate, i) => (candidate.renumber ρ, i)) = best? candidates := by
  simp only [best?, List.foldl_map, Candidate.priority_renumber]

/-- The selectors that come with the library. -/
def builtIn : List (Selector Unit) := [sequential, byPriority, silent]

theorem ignoresNumbers_of_builtIn {s : Selector Unit} (h : s ∈ builtIn) : s.IgnoresNumbers := by
  simp only [builtIn, List.mem_cons, List.not_mem_nil, or_false] at h
  rcases h with rfl | rfl | rfl <;> intro ρ candidates tried memory
  · simp only [sequential, stateless, firstUntried_renumber, List.length_map]
  · simp only [byPriority, stateless, untried_renumber, best?_renumber]
  · simp only [silent, stateless, firstUntried_renumber]

end Selector

/-! ## Memories and walks -/

/-- The same choice under another number of its node. -/
def Choice.renumber (ρ : NodeId → NodeId) (c : Choice) : Choice := { c with node := ρ c.node }

/-- The memories say the same about nodes that correspond. -/
structure WalkMemory.Renumbers (ρ : NodeId → NodeId) (m m' : WalkMemory) : Prop where
  escapes : ∀ id, m'.escapes[ρ id]? = m.escapes[id]?
  productive : ∀ id i, (ρ id, i) ∈ m'.productive ↔ (id, i) ∈ m.productive
  selected : ∀ id i, (ρ id, i) ∈ m'.selected ↔ (id, i) ∈ m.selected

/-- The walks stand at the same point and have reported the same. The derivations followed name nodes by their numbers, and
no step reads them. -/
structure Walk.Renumbers (ρ : NodeId → NodeId) (w w' : Walk α σ) : Prop where
  memory : w.memory.Renumbers ρ w'.memory
  selector : w'.selector = w.selector
  plan : w'.plan = w.plan.map (·.renumber ρ)
  trace : w'.trace = w.trace.map (·.renumber ρ)
  onPath : ∀ id, ρ id ∈ w'.onPath ↔ id ∈ w.onPath
  madeChoice : w'.madeChoice = w.madeChoice
  events : w'.events = w.events
  notes : w'.notes = w.notes

/-- What becomes of the answer of a selector: the candidate, or the first untried family if the answer is no good. -/
def Walk.take (usable tried : List Nat) (candidates : List Candidate) (answer : Selection × σ) (w : Walk α σ) :
    Nat × Bool × Walk α σ :=
  match (candidates[answer.1.index]?).filter fun c => !tried.contains c.family with
  | some candidate => (candidate.family, answer.1.ambiguous, { w with selector := answer.2 })
  | none =>
    let first := (usable.find? fun family => !tried.contains family).or usable.head?
    (first.getD 0, answer.1.ambiguous,
      { w with selector := answer.2, notes := w.notes.push (.unusableCandidate answer.1.index candidates.length) })

theorem Walk.ask_eq_take (f : Forest α) (selector : Selector σ) (id : NodeId) (usable tried : List Nat) (w : Walk α σ) :
    w.ask f selector id usable tried = w.take usable tried (usable.map (viewFamily f id))
      (selector.select (usable.map (viewFamily f id)) tried.reverse w.selector) := rfl

/-- A choice that is not taken from the plan. -/
def Walk.newChoice (f : Forest α) (selector : Selector σ) (id : NodeId) (usable tried : List Nat) (w : Walk α σ) :
    Choice × Walk α σ :=
  let (chosen, ambiguous, w) := w.ask f selector id usable tried
  ({ node := id, tried := chosen :: tried, candidates := usable.length, chosen, ambiguous }, w)

theorem Walk.makeChoice_eq (f : Forest α) (selector : Selector σ) (id : NodeId) (usable : List Nat) (w : Walk α σ) :
    w.makeChoice f selector id usable =
      match (w.plan.head?.filter (·.node == id)).filter (!·.reselect) with
      | some choice => (choice, w)
      | none => w.newChoice f selector id usable (((w.plan.head?.filter (·.node == id)).map Choice.tried).getD []) := rfl

namespace WalkMemory.Renumbers

variable {m m' : WalkMemory} (h : m.Renumbers ρ m') (hρ : Function.Injective ρ) (id : NodeId)

include h hρ

theorem select (family : Nat) : (m.select id family).Renumbers ρ (m'.select (ρ id) family) := by
  refine ⟨h.escapes, h.productive, fun a i => ?_⟩
  simp only [WalkMemory.select, Std.TreeSet.mem_insert, Std.compare_eq_iff_eq, Prod.mk.injEq, hρ.eq_iff, h.selected]

theorem complete (family : Nat) : (m.complete id family).Renumbers ρ (m'.complete (ρ id) family) := by
  refine ⟨h.escapes, fun a i => ?_, h.selected⟩
  simp only [WalkMemory.complete, Std.TreeSet.mem_insert, Std.compare_eq_iff_eq, Prod.mk.injEq, hρ.eq_iff, h.productive]

theorem escape (family? : Option Nat) : (m.escape id family?).Renumbers ρ (m'.escape (ρ id) family?) := by
  refine ⟨fun a => ?_, h.productive, h.selected⟩
  have hmem : ρ id ∈ m'.escapes ↔ id ∈ m.escapes := by
    rw [Std.TreeMap.mem_iff_isSome_getElem?, Std.TreeMap.mem_iff_isSome_getElem?, h.escapes]
  simp only [WalkMemory.escape, Std.TreeMap.getElem?_insertIfNew, Std.compare_eq_iff_eq, hρ.eq_iff, hmem, h.escapes]

end WalkMemory.Renumbers

namespace Walk.Renumbers

variable {f f' : Forest α} {selector : Selector σ} {w w' : Walk α σ}

/-! ## Steps that do not choose -/

theorem emit (h : w.Renumbers ρ w') (event : Event α) : (w.emit event).Renumbers ρ (w'.emit event) :=
  { h with events := congrArg (·.push event) h.events }

theorem enter (h : w.Renumbers ρ w') (hρ : Function.Injective ρ) (id : NodeId) :
    (w.enter id).Renumbers ρ (w'.enter (ρ id)) :=
  { h with onPath := fun a => by rw [mem_onPath_enter, mem_onPath_enter, hρ.eq_iff, h.onPath] }

theorem follow (h : w.Renumbers ρ w') (id : NodeId) (family? : Option Nat) :
    (w.follow id family?).Renumbers ρ (w'.follow (ρ id) family?) :=
  { h with }

theorem leave (h : w.Renumbers ρ w') (hρ : Function.Injective ρ) (id : NodeId) (family? : Option Nat) :
    (w.leave id family?).Renumbers ρ (w'.leave (ρ id) family?) := by
  have hpath : ∀ a, ρ a ∈ (w'.leave (ρ id) family?).onPath ↔ a ∈ (w.leave id family?).onPath := fun a => by
    rw [mem_onPath_leave, mem_onPath_leave, Ne, Ne, hρ.eq_iff, h.onPath]
  cases family? with
  | none => exact { h with onPath := hpath }
  | some family => exact { h with onPath := hpath, memory := h.memory.complete hρ id family }

theorem record (h : w.Renumbers ρ w') (hρ : Function.Injective ρ) (choice : Choice) :
    (w.record choice).Renumbers ρ (w'.record (choice.renumber ρ)) where
  memory := h.memory.select hρ choice.node choice.chosen
  selector := h.selector
  plan := by simp only [Walk.record, h.plan, List.map_tail]
  trace := by simp only [Walk.record, h.trace, List.map_cons]
  onPath := h.onPath
  madeChoice := by simp only [Walk.record, h.madeChoice, Choice.renumber]
  events := h.events
  notes := h.notes

/-! ## Choices -/

section

variable (hf : f.RenumbersAll ρ f') (h : w.Renumbers ρ w') (id : NodeId)

include hf h

theorem leadsBack (i : Nat) : w'.leadsBack ((f'.node (ρ id)).families.getD i .nothing) =
    w.leadsBack ((f.node id).families.getD i .nothing) := by
  simp only [Walk.leadsBack, hf.children, List.any_map]
  congr 1
  funext child
  exact Bool.eq_iff_iff.mpr (h.onPath child)

theorem usableFamilies : w'.usableFamilies f' (ρ id) = w.usableFamilies f id := by
  simp only [Walk.usableFamilies, hf.families_size, hf.isLoop, h.leadsBack hf, hf.children, List.any_map, Function.comp_def,
    hf.count]

theorem findEscape : w'.findEscape f' (ρ id) = w.findEscape f id := by
  have hproductive : ∀ i, w'.memory.productive.contains (ρ id, i) = w.memory.productive.contains (id, i) := fun i =>
    Bool.eq_iff_iff.mpr (h.memory.productive id i)
  have hselected : ∀ i, w'.memory.selected.contains (ρ id, i) = w.memory.selected.contains (id, i) := fun i =>
    Bool.eq_iff_iff.mpr (h.memory.selected id i)
  simp only [Walk.findEscape, hf.families_size, h.leadsBack hf, hf.children, List.isEmpty_map, hproductive, hselected]

theorem rememberedEscape? : w'.rememberedEscape? f' (ρ id) = w.rememberedEscape? f id := by
  simp only [Walk.rememberedEscape?, h.memory.escapes, h.leadsBack hf]

theorem escape : (w'.escape f' (ρ id)).1 = (w.escape f id).1 ∧ (w.escape f id).2.Renumbers ρ (w'.escape f' (ρ id)).2 := by
  unfold Walk.escape
  rw [h.rememberedEscape? hf, h.findEscape hf]
  split
  · exact ⟨rfl, h⟩
  · have hmemory := h.memory.escape hf.injective id (w.findEscape f id)
    dsimp only
    split
    · rename_i family _
      exact ⟨rfl, { h with memory := hmemory.select hf.injective id family }⟩
    · exact ⟨rfl, { h with memory := hmemory }⟩

omit h in
theorem viewFamily (family : Nat) : viewFamily f' (ρ id) family = (viewFamily f id family).renumber ρ := by
  have hchild : ∀ child, viewChild f' (ρ child) = (viewChild f child).renumber ρ := fun child => by
    simp only [viewChild, ChildView.renumber, hf.label, hf.span, hf.grammar]
  simp only [Walk.viewFamily, Candidate.renumber, hf.children, List.map_map]
  congr 1
  exact List.map_congr_left fun child _ => hchild child

omit hf in
theorem take (usable tried : List Nat) (candidates : List Candidate) (answer : Selection × σ) :
    (w'.take usable tried (candidates.map (·.renumber ρ)) answer).1 = (w.take usable tried candidates answer).1 ∧
      (w'.take usable tried (candidates.map (·.renumber ρ)) answer).2.1 = (w.take usable tried candidates answer).2.1 ∧
      (w.take usable tried candidates answer).2.2.Renumbers ρ
        (w'.take usable tried (candidates.map (·.renumber ρ)) answer).2.2 := by
  unfold Walk.take
  rw [List.getElem?_map, Option.filter_map]
  simp only [Function.comp_def, Candidate.family_renumber]
  cases (candidates[answer.1.index]?).filter fun c => !tried.contains c.family with
  | some candidate => exact ⟨rfl, rfl, { h with selector := rfl }⟩
  | none => exact ⟨rfl, rfl, { h with selector := rfl, notes := by simp only [Option.map_none, h.notes, List.length_map] }⟩

variable (hselector : selector.IgnoresNumbers)

include hselector

theorem ask (usable tried : List Nat) :
    (w'.ask f' selector (ρ id) usable tried).1 = (w.ask f selector id usable tried).1 ∧
      (w'.ask f' selector (ρ id) usable tried).2.1 = (w.ask f selector id usable tried).2.1 ∧
      (w.ask f selector id usable tried).2.2.Renumbers ρ (w'.ask f' selector (ρ id) usable tried).2.2 := by
  have hviews : usable.map (Walk.viewFamily f' (ρ id)) = (usable.map (Walk.viewFamily f id)).map (·.renumber ρ) := by
    rw [List.map_map]
    exact List.map_congr_left fun family _ => viewFamily hf id family
  rw [ask_eq_take, ask_eq_take, hviews, h.selector, hselector]
  exact take h usable tried _ _

theorem newChoice (usable tried : List Nat) :
    (w'.newChoice f' selector (ρ id) usable tried).1 = (w.newChoice f selector id usable tried).1.renumber ρ ∧
      (w.newChoice f selector id usable tried).2.Renumbers ρ (w'.newChoice f' selector (ρ id) usable tried).2 := by
  obtain ⟨hchosen, hambiguous, hwalk⟩ := ask hf h id hselector usable tried
  refine ⟨?_, hwalk⟩
  simp only [Walk.newChoice, Choice.renumber, hchosen, hambiguous]

theorem makeChoice (usable : List Nat) :
    (w'.makeChoice f' selector (ρ id) usable).1 = (w.makeChoice f selector id usable).1.renumber ρ ∧
      (w.makeChoice f selector id usable).2.Renumbers ρ (w'.makeChoice f' selector (ρ id) usable).2 := by
  -- a planned choice counts at its node only, and as numbers are not confused it counts in both walks or in neither
  have hplanned : w'.plan.head?.filter (·.node == ρ id) = (w.plan.head?.filter (·.node == id)).map (·.renumber ρ) := by
    rw [h.plan, List.head?_map, Option.filter_map]
    congr 2
    funext choice
    exact Bool.eq_iff_iff.mpr (by simp [Choice.renumber, hf.injective.eq_iff])
  rw [makeChoice_eq, makeChoice_eq, hplanned]
  generalize w.plan.head?.filter (·.node == id) = planned?
  have hrepeated : (planned?.map (·.renumber ρ)).filter (!·.reselect) =
      (planned?.filter (!·.reselect)).map (·.renumber ρ) := Option.filter_map
  have htried : (planned?.map (·.renumber ρ)).map Choice.tried = planned?.map Choice.tried := Option.map_map ..
  rw [hrepeated, htried]
  cases planned?.filter (!·.reselect) with
  | some choice => exact ⟨rfl, h⟩
  | none => exact newChoice hf h id hselector usable _

/-- Choosing finds the same family and keeps the walks in step. -/
theorem choose : (w'.choose f' selector (ρ id)).1 = (w.choose f selector id).1 ∧
    (w.choose f selector id).2.Renumbers ρ (w'.choose f' selector (ρ id)).2 := by
  unfold Walk.choose
  rw [h.usableFamilies hf]
  split
  · exact h.escape hf id
  · rename_i family _
    exact ⟨rfl, { h with memory := h.memory.select hf.injective id family }⟩
  · obtain ⟨hchoice, hwalk⟩ := makeChoice hf h id hselector (w.usableFamilies f id)
    dsimp only
    rw [hchoice]
    exact ⟨rfl, hwalk.record hf.injective _⟩

/-! ## Visits -/

theorem inside {depth : Nat}
    (hvisit : ∀ {w w' : Walk α σ}, w.Renumbers ρ w' → ∀ id,
      (visit f selector depth id w).Renumbers ρ (visit f' selector depth (ρ id) w')) :
    (inside f selector depth id w).Renumbers ρ (inside f' selector depth (ρ id) w') := by
  obtain ⟨hfamily, hwalk⟩ := choose hf (h.enter hf.injective id) id hselector
  have hfold : ∀ (children : List NodeId) {w w' : Walk α σ}, w.Renumbers ρ w' →
      (children.foldl (fun w child => visit f selector depth child w) w).Renumbers ρ
        ((children.map ρ).foldl (fun w child => visit f' selector depth child w) w') := by
    intro children
    induction children with
    | nil => exact fun h => h
    | cons child children ih => exact fun h => ih (hvisit h child)
  have hchildren : ((((w'.enter (ρ id)).choose f' selector (ρ id)).1.map fun i =>
      ((f'.node (ρ id)).families.getD i .nothing).children).getD []) =
      ((((w.enter id).choose f selector id).1.map fun i =>
        ((f.node id).families.getD i .nothing).children).getD []).map ρ := by
    rw [hfamily]
    cases ((w.enter id).choose f selector id).1 with
    | none => rfl
    | some i => exact hf.children id i
  simp only [Walk.inside, hchildren]
  rw [hfamily]
  exact (hfold _ (hwalk.follow id _)).leave hf.injective id _

omit h id in
/-- A visit keeps the walks in step, at every depth. -/
theorem visit (depth : Nat) {w w' : Walk α σ} (h : w.Renumbers ρ w') (id : NodeId) :
    (visit f selector depth id w).Renumbers ρ (visit f' selector depth (ρ id) w') := by
  induction depth generalizing w w' id with
  | zero => exact h
  | succ depth ih =>
    -- label, extent and attributes of the node agree, so both visits take the same branch and report the same event
    rw [visit_succ, visit_succ, hf.label, hf.span, hf.attributesOf, hf.grammar, hf.tokens, Node.left, Node.left, Node.right,
      Node.right, hf.identity]
    split
    · exact h.emit _
    · exact (inside hf (h.emit _) id hselector ih).emit _
    · exact inside hf h id hselector ih

end

end Walk.Renumbers

/-! ## Walkers -/

namespace Walker

/-- The calls that a walker answers. -/
inductive Call where
  | hasMore
  | next
  | replay
  | reset
  | remaining
deriving DecidableEq

/-- What a call gives back. A tree comes as the events that a builder is called with. -/
inductive Reply (α : Type) where
  | hasMore (more : Bool)
  | tree (result : Except Error (List (Event α))) (notes : List Note)
  | reset
  | remaining (count : Nat)

/-- What is seen of a step from outside. -/
def Step.reply (s : Step α σ) : Reply α :=
  .tree (s.result.map Produced.events) s.notes

/-- Make one call. -/
def call (w : Walker α σ) : Call → Reply α × Walker α σ
  | .hasMore   => (.hasMore w.hasMore, w)
  | .next      => (w.next.reply, w.next.walker)
  | .replay    => (w.replay.reply, w.replay.walker)
  | .reset     => (.reset, w.reset)
  | .remaining => (.remaining w.remaining, w)

/-- The replies to calls that are made one after the other. -/
def replies (w : Walker α σ) : List Call → List (Reply α)
  | []            => []
  | call :: calls => (w.call call).1 :: (w.call call).2.replies calls

/-- The walkers go through renumbered forests, with selectors that do not look at numbers, and stand at the same point. -/
structure Renumbers (ρ : NodeId → NodeId) (w w' : Walker α σ) : Prop where
  forest : w.forest.RenumbersAll ρ w'.forest
  selector : w'.selector = w.selector
  ignoresNumbers : w.selector.IgnoresNumbers
  selectorMemory : w'.selectorMemory = w.selectorMemory
  root : w'.root = w.root
  -- a position without a root would be read as node zero, which is another node after renumbering
  root_lt : w.exhausted = false → w.root < w.forest.roots.length
  plan : w'.plan = w.plan.map (·.renumber ρ)
  last : w'.last? = w.last?.map fun (root, plan) => (root, plan.map (·.renumber ρ))
  last_lt : ∀ last ∈ w.last?, last.1 < w.forest.roots.length
  produced : w'.produced = w.produced
  exhausted : w'.exhausted = w.exhausted
  memory : w.memory.Renumbers ρ w'.memory

namespace Renumbers

variable {w w' : Walker α σ}

theorem new {f f' : Forest α} {selector : Selector σ} (hf : f.RenumbersAll ρ f') (hselector : selector.IgnoresNumbers) :
    (Walker.new f selector).Renumbers ρ (Walker.new f' selector) where
  forest := hf
  selector := rfl
  ignoresNumbers := hselector
  selectorMemory := rfl
  root := rfl
  root_lt hopen := List.length_pos_iff.mpr (by simpa [Walker.new] using hopen)
  plan := rfl
  last := rfl
  last_lt := by simp [Walker.new]
  produced := rfl
  exhausted := by simp [Walker.new, hf.roots]
  memory := ⟨by simp [Walker.new], by simp [Walker.new], by simp [Walker.new]⟩

variable (h : w.Renumbers ρ w')

include h

theorem walk {root : Nat} (hroot : root < w.forest.roots.length) (plan : List Choice) :
    (w.walk root plan).Renumbers ρ (w'.walk root (plan.map (·.renumber ρ))) := by
  have hdepth : Walk.depthBound w'.forest (plan.map (·.renumber ρ)) = Walk.depthBound w.forest plan := by
    simp only [Walk.depthBound, h.forest.size, List.length_map]
  have hid : w'.forest.roots.getD root 0 = ρ (w.forest.roots.getD root 0) := by
    simp [h.forest.roots, hroot]
  have hbegun : Walk.Renumbers (α := α) ρ { memory := w.memory, selector := w.selectorMemory, plan }
      { memory := w'.memory, selector := w'.selectorMemory, plan := plan.map (·.renumber ρ) } :=
    ⟨h.memory, h.selectorMemory, rfl, rfl, by simp, rfl, rfl, rfl⟩
  have hwalked := Walk.Renumbers.visit h.forest h.ignoresNumbers (Walk.depthBound w.forest plan)
    (hbegun.emit (.startTree w.forest.isAmbiguous w.forest.isInfinite)) (w.forest.roots.getD root 0)
  unfold Walker.walk
  dsimp only
  rw [hdepth, hid, h.forest.ambiguous, h.forest.infinite, h.selector, hwalked.madeChoice]
  exact hwalked.emit _

theorem learn {walked walked' : Walk α σ} (hwalked : walked.Renumbers ρ walked') :
    (w.learn walked).Renumbers ρ (w'.learn walked') :=
  { h with memory := hwalked.memory, selectorMemory := hwalked.selector }

theorem planNext (trace : List Choice) : (w.planNext trace).Renumbers ρ (w'.planNext (trace.map (·.renumber ρ))) := by
  have hdrop : (trace.map (·.renumber ρ)).dropWhile Choice.isExhausted =
      (trace.dropWhile Choice.isExhausted).map (·.renumber ρ) := List.dropWhile_map ..
  unfold Walker.planNext
  rw [hdrop]
  cases trace.dropWhile Choice.isExhausted with
  | nil =>
    have hdone : decide (w'.root + 1 ≥ w'.forest.roots.length) = decide (w.root + 1 ≥ w.forest.roots.length) := by
      rw [h.root, h.forest.roots, List.length_map]
    exact { h with
      plan := rfl
      root := congrArg (· + 1) h.root
      exhausted := hdone
      root_lt := fun hopen => Nat.not_le.mp (of_decide_eq_false hopen) }
  | cons choice earlier =>
    exact { h with
      plan := by simp only [List.map_reverse, List.map_cons, Choice.renumber] }

/-! ## Calls -/

theorem next : w'.next.reply = w.next.reply ∧ w.next.walker.Renumbers ρ w'.next.walker := by
  unfold Walker.next
  rw [h.exhausted]
  split
  · exact ⟨rfl, h⟩
  · rename_i hopen
    have hroot := h.root_lt (eq_false_of_ne_true hopen)
    have hwalked := h.walk hroot w.plan
    rw [← h.plan] at hwalked
    dsimp only
    rw [h.root, hwalked.trace]
    refine ⟨?_, planNext ?_ _⟩
    · simp only [Step.reply, Except.map, produce, hwalked.events, hwalked.notes]
    · exact { h.learn hwalked with
        last := by simp only [Option.map_some, List.map_reverse]
        last_lt := by
          rintro _ ⟨⟩
          exact hroot
        produced := congrArg (· + 1) h.produced }

theorem replay : w'.replay.reply = w.replay.reply ∧ w.replay.walker.Renumbers ρ w'.replay.walker := by
  unfold Walker.replay
  rw [h.last]
  cases hlast : w.last? with
  | none => exact ⟨rfl, h⟩
  | some last =>
    have hwalked := h.walk (h.last_lt last hlast) last.2
    refine ⟨?_, h.learn hwalked⟩
    simp only [Option.map_some, Step.reply, Except.map, produce, hwalked.events, hwalked.notes]

theorem reset : w.reset.Renumbers ρ w'.reset := by
  unfold Walker.reset
  rw [h.selector, h.selectorMemory]
  exact { new h.forest h.ignoresNumbers with selectorMemory := rfl }

theorem call (c : Call) : (w'.call c).1 = (w.call c).1 ∧ (w.call c).2.Renumbers ρ (w'.call c).2 := by
  cases c with
  | hasMore => exact ⟨by rw [Walker.call, Walker.call, hasMore, hasMore, h.exhausted], h⟩
  | next => exact h.next
  | replay => exact h.replay
  | reset => exact ⟨rfl, h.reset⟩
  | remaining =>
    exact ⟨by rw [Walker.call, Walker.call, remaining, remaining, h.exhausted, h.forest.total_eq, h.produced], h⟩

/-- No calls tell the walkers apart. -/
theorem replies (calls : List Call) : w'.replies calls = w.replies calls := by
  induction calls generalizing w w' with
  | nil => rfl
  | cons c calls ih =>
    obtain ⟨hreply, hwalker⟩ := h.call c
    rw [Walker.replies, Walker.replies, hreply, ih hwalker]

end Renumbers
end Walker

/-- The same calls to walkers over the forests give the same replies, with each of the selectors that come with the library. -/
def Forest.WalkedAlike (f f' : Forest α) : Prop :=
  ∀ selector ∈ Selector.builtIn, ∀ calls, (Walker.new f selector).replies calls = (Walker.new f' selector).replies calls

theorem Forest.Renumbers.walkedAlike {f f' : Forest α} (h : f.Renumbers ρ f') (hf : f.WellFormed) (hf' : f'.WellFormed) :
    f.WalkedAlike f' := by
  intro selector hselector calls
  have hnew := Walker.Renumbers.new (h.onNodes hf hf') (Selector.ignoresNumbers_of_builtIn hselector)
  exact (hnew.replies calls).symm

namespace Recognizer

variable [DecidableEq α] [Quote α]

/-- Two runs that accept an input or a prefix of it return forests that walkers do not tell apart, whatever their methods,
configurations and monitors. The same holds for all forests that differ only in the numbers of their nodes. -/
theorem walkers_agree :
    (∀ r r' : Recognizer α, r.grammar.Built → r'.grammar = r.grammar → ∀ (input : Array α) (offset : Nat),
      (r.parseFrom input offset).outcome.accepted = true → (r'.parseFrom input offset).outcome.accepted = true →
      ∃ f f', (r.parseFrom input offset).outcome.forest = some f ∧ (r'.parseFrom input offset).outcome.forest = some f' ∧
        f.WalkedAlike f') ∧
    ∀ (f f' : Forest α) (ρ : NodeId → NodeId), f.WellFormed → f'.WellFormed → f.Renumbers ρ f' → f.WalkedAlike f' := by
  refine ⟨fun r r' hp hgrammar input offset haccepted haccepted' => ?_, fun f f' ρ hf hf' hρ => hρ.walkedAlike hf hf'⟩
  obtain ⟨p, method, monitor⟩ := r
  obtain ⟨p', method', monitor'⟩ := r'
  obtain rfl : p = p' := hgrammar.symm
  have hregular : p.Regular := hp.regular
  obtain ⟨f, hf⟩ := exists_forest _ hregular input offset haccepted
  obtain ⟨f', hf'⟩ := exists_forest _ hregular input offset haccepted'
  obtain ⟨hwell, hwell', ρ, hρ⟩ := exists_renumbers hregular hf hf'
  exact ⟨f, f', hf, hf', hρ.walkedAlike hwell hwell'⟩

/-- Over a prefix of two letters, which has loops, both methods give the root of the sample another number, and walkers do not
tell the forests apart in either direction. -/
theorem walkers_agree_sample : ∃ f f' : Forest Char,
    (parseFrom ⟨Sample.prepared, .earley { prefixParsing := true }, none⟩ #['a', 'a', 'b'] 0).outcome.forest = some f ∧
    (parseFrom ⟨Sample.prepared, .gll { prefixParsing := true }, none⟩ #['a', 'a', 'b'] 0).outcome.forest = some f' ∧
    f.isInfinite = true ∧ f.roots ≠ f'.roots ∧ f.WalkedAlike f' ∧ f'.WalkedAlike f := by
  let r : Recognizer Char := ⟨Sample.prepared, .earley { prefixParsing := true }, none⟩
  let r' : Recognizer Char := ⟨Sample.prepared, .gll { prefixParsing := true }, none⟩
  obtain ⟨f, f', hf, hf', halike⟩ := walkers_agree.1 r r' Sample.prepared_built rfl #['a', 'a', 'b'] 0
    (by decide +kernel) (by decide +kernel)
  obtain ⟨hwell', hwell, ρ, hρ⟩ := exists_renumbers Sample.prepared_built.regular hf' hf
  have hread : (r.parseFrom #['a', 'a', 'b'] 0).outcome.forest.map (fun f => (f.isInfinite, f.roots)) =
      some (true, [6]) := by decide +kernel
  have hread' : (r'.parseFrom #['a', 'a', 'b'] 0).outcome.forest.map Forest.roots = some [0] := by decide +kernel
  rw [hf, Option.map_some, Option.some.injEq, Prod.mk.injEq] at hread
  rw [hf', Option.map_some, Option.some.injEq] at hread'
  refine ⟨f, f', hf, hf', hread.1, ?_, halike, walkers_agree.2 f' f ρ hwell' hwell hρ⟩
  rw [hread.2, hread']
  decide

end Recognizer
end ContextFree
