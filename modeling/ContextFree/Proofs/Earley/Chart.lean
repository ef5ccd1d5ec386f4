-- SUMMARY: Item sets and runs as they grow: what adding an item changes, and what a run has in common with a later one.
import ContextFree.Earley.Run
import ContextFree.Proofs.Splits
import ContextFree.Proofs.Saturation

/-!
# Charts

Every change to a chart adds an item to one of its sets. The indexes of the set follow, the other sets stay as they are,
and no item ever leaves or moves.
-/
namespace ContextFree.Earley

variable {α : Type}

/-! ## Item sets -/

namespace ItemSet

variable {next : Item → Option Symbol} {s : ItemSet} {item other : Item} {A : Nonterminal}

/-- The indexes of a set list the items that they should. -/
structure Filed (next : Item → Option Symbol) (s : ItemSet) : Prop where
  nodup : s.items.toList.Nodup
  mem_seen : ∀ {item}, item ∈ s.seen ↔ item ∈ s.items
  mem_scans : ∀ {item}, item ∈ s.scans ↔ item ∈ s.items ∧ ∃ t, next item = some (.terminal t)
  mem_waitingOn : ∀ {A item}, item ∈ s.waitingOn A ↔ item ∈ s.items ∧ next item = some (.nonterminal A)

theorem filed_empty : Filed next {} where
  nodup := List.nodup_nil
  mem_seen := by simp
  mem_scans := by simp
  mem_waitingOn := by simp [waitingOn]

theorem add_of_mem (h : s.Filed next) (hmem : item ∈ s.items) : s.add (next item) item = s := by
  have hseen : s.seen.contains item = true := h.mem_seen.mpr hmem
  rw [add, if_pos hseen]

theorem items_add (h : s.Filed next) (hnew : item ∉ s.items) : (s.add (next item) item).items = s.items.push item := by
  have hseen : ¬ s.seen.contains item = true := fun hseen => hnew (h.mem_seen.mp hseen)
  simp only [add, if_neg hseen]
  split <;> rfl

@[simp] theorem predicted_add (s : ItemSet) (symbol? : Option Symbol) (item : Item) :
    (s.add symbol? item).predicted = s.predicted := by
  simp only [add]
  split
  · rfl
  · split <;> rfl

theorem mem_add (h : s.Filed next) : other ∈ (s.add (next item) item).items ↔ other ∈ s.items ∨ other = item := by
  by_cases hmem : item ∈ s.items
  · rw [add_of_mem h hmem]
    exact ⟨.inl, fun ho => ho.elim (fun ho => ho) fun heq => heq ▸ hmem⟩
  · rw [items_add h hmem, Array.mem_push]

/-- Adding an item files it under the symbol after its dot. -/
theorem Filed.add (h : s.Filed next) (item : Item) : (s.add (next item) item).Filed next := by
  by_cases hmem : item ∈ s.items
  · rw [add_of_mem h hmem]
    exact h
  · have hseen : ¬ s.seen.contains item = true := fun hseen => hmem (h.mem_seen.mp hseen)
    have hitems := items_add h hmem
    refine ⟨?_, fun {other} => ?_, fun {other} => ?_, fun {A other} => ?_⟩
    · rw [hitems, Array.toList_push]
      apply h.nodup.append (List.nodup_singleton item)
      rw [List.disjoint_singleton]
      exact fun hin => hmem (Array.mem_toList_iff.mp hin)
    · have hinsert : (s.add (next item) item).seen = s.seen.insert item := by
        simp only [ItemSet.add, if_neg hseen]
        split <;> rfl
      rw [hitems, hinsert, mem_insert_iff, Array.mem_push, h.mem_seen, or_comm]
    · rw [hitems, Array.mem_push]
      simp only [ItemSet.add, if_neg hseen]
      cases hnext : next item with
      | none => grind [h.mem_scans]
      | some symbol =>
        cases symbol with
        | terminal t => grind [h.mem_scans]
        | nonterminal A => grind [h.mem_scans]
    · rw [hitems, Array.mem_push]
      simp only [ItemSet.add, if_neg hseen, waitingOn]
      have hold : other ∈ s.waitingOn A ↔ other ∈ s.items ∧ next other = some (.nonterminal A) := h.mem_waitingOn
      simp only [waitingOn] at hold
      cases hnext : next item with
      | none => grind
      | some symbol =>
        cases symbol with
        | terminal t => grind
        | nonterminal B =>
          simp only [getD_alter_push]
          grind

end ItemSet

/-! ## Runs -/

namespace Run

variable {job : Job α} {run run' run'' : Run} {position j : Nat} {item : Item} {id : RuleId}
  {before after : List Symbol} {symbol : Symbol}

theorem set_modify (run : Run) (position j : Nat) (f : ItemSet → ItemSet) :
    { run with sets := run.sets.modify position f }.set j =
      if position = j ∧ j < run.sets.size then f (run.set j) else run.set j := by
  simp only [Run.set, Array.getD_eq_getD_getElem?, Array.getElem?_modify]
  by_cases hposition : position = j
  · by_cases hlt : j < run.sets.size
    · simp [hposition, hlt]
    · simp [hposition, hlt]
  · simp [hposition]

theorem set_addItem (hlt : position < run.sets.size) :
    (run.addItem job position item).set j = if position = j then
      (run.set j).add (job.grammar.state item.state).next item else run.set j := by
  rw [addItem, set_modify]
  by_cases hposition : position = j
  · simp [hposition, hposition ▸ hlt]
  · simp [hposition]

theorem advance_of_next (hp : job.grammar.Regular) (hdot : job.grammar.AtDot item.state id before (symbol :: after))
    (child : Nat) :
    run.advance job item position child =
      let made := run.table.recordStep job.grammar (item.state + 1) item.origin position item.node child
      addItem job position ⟨item.state + 1, item.origin, some made.1⟩
        ⟨run.sets, made.2, max run.furthest position, run.workItems⟩ := by
  rw [advance, hdot.advance_eq hp]

/-! ### Counting

Only processing an item counts. -/

theorem workItems_advance (job : Job α) (item : Item) (position : Nat) (child : NodeId) (run : Run) :
    (run.advance job item position child).workItems = run.workItems := by
  unfold advance
  split <;> rfl

theorem workItems_completedNode (job : Job α) (item : Item) (position : Nat) (run : Run) :
    (run.completedNode job item position).2.workItems = run.workItems := by
  unfold completedNode
  split <;> rfl

theorem workItems_foldl {β : Type} (f : Run → β → Run) (hf : ∀ run x, (f run x).workItems = run.workItems) (xs : Array β)
    (run : Run) : (xs.foldl f run).workItems = run.workItems := by
  rw [← Array.foldl_toList]
  exact List.foldlRecOn (motive := fun r : Run => r.workItems = run.workItems) xs.toList f rfl
    fun r hr x _ => (hf r x).trans hr

theorem workItems_predict [DecidableEq α] (job : Job α) (A : Nonterminal) (position : Nat) (run : Run) :
    (run.predict job A position).workItems = run.workItems := by
  unfold predict
  split
  · rfl
  · refine workItems_foldl _ (fun run id => ?_) _ _
    split <;> rfl

theorem workItems_processItem [DecidableEq α] (job : Job α) (position : Nat) (item : Item)
    (empties : Std.TreeMap Nonterminal NodeId) (run : Run) :
    (run.processItem job position item empties).2.workItems = run.workItems + 1 := by
  unfold processItem
  dsimp only
  split
  · rfl
  · split
    · rw [workItems_advance, workItems_predict]
    · rw [workItems_predict]
  · rw [workItems_foldl _ fun run other => workItems_advance job other position _ run, workItems_completedNode]

theorem workItems_scan [DecidableEq α] (job : Job α) (position : Nat) (run : Run) :
    (run.scan job position).workItems = run.workItems := by
  refine workItems_foldl _ (fun run item => ?_) _ _
  unfold scanItem
  split
  · dsimp only
    split
    · rfl
    · rw [workItems_advance]
  · rfl

/-! ### Growing -/

/-- A later run has the items, predictions and nodes of an earlier one, and only the sets at some positions are touched. -/
structure Grows (touched : Nat → Prop) (run run' : Run) : Prop where
  items : ∀ j, (run.set j).items.toList <+: (run'.set j).items.toList
  predicted : ∀ j, Sub (run.set j).predicted (run'.set j).predicted
  table : run.table.Extends run'.table
  same : ∀ j, ¬ touched j → run'.set j = run.set j

namespace Grows

variable {touched touched' : Nat → Prop}

theorem refl (run : Run) : Grows touched run run :=
  ⟨fun _ => List.prefix_refl _, fun _ => Sub.refl _, .refl _, fun _ _ => rfl⟩

theorem trans (h : Grows touched run run') (h' : Grows touched run' run'') : Grows touched run run'' :=
  ⟨fun j => (h.items j).trans (h'.items j), fun j => (h.predicted j).trans (h'.predicted j),
    h.table.trans h'.table, fun j hj => (h'.same j hj).trans (h.same j hj)⟩

theorem mono (h : Grows touched run run') (hsub : ∀ j, touched j → touched' j) : Grows touched' run run' :=
  ⟨h.items, h.predicted, h.table, fun j hj => h.same j fun htouched => hj (hsub j htouched)⟩

theorem mem (h : Grows touched run run') (hitem : item ∈ (run.set j).items) : item ∈ (run'.set j).items :=
  Array.mem_toList_iff.mp ((h.items j).subset (Array.mem_toList_iff.mpr hitem))

theorem getElem? (h : Grows touched run run') {cursor : Nat} (hitem : (run.set j).items[cursor]? = some item) :
    (run'.set j).items[cursor]? = some item := by
  obtain ⟨rest, hrest⟩ := h.items j
  rw [← Array.getElem?_toList] at hitem ⊢
  rw [← hrest, List.getElem?_append_left (List.getElem?_eq_some_iff.mp hitem).1, hitem]

end Grows
end Run
end ContextFree.Earley
