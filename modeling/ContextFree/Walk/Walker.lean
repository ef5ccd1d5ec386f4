-- SUMMARY: Producing the trees of a forest one after the other.
import ContextFree.Walk.Walk

/-!
# Walkers

A walker produces the trees of a forest one by one. The choices of one walk are the plan of the next: the last one that has
untried families left is made anew, those before it are repeated, those after it are forgotten. When nothing is left the
walker goes on to the next root.
-/
namespace ContextFree

variable {α σ : Type}

structure Walker (α σ : Type) where
  forest : Forest α
  selector : Selector σ
  /-- The memory of the selector. -/
  selectorMemory : σ
  /-- Position of the current root. -/
  root : Nat := 0
  /-- Choices for the next walk, the first one first. -/
  plan : List Choice := []
  /-- The root and the choices of the last tree. -/
  last? : Option (Nat × List Choice) := none
  /-- Trees produced since the start or the last reset. -/
  produced : Nat := 0
  exhausted : Bool
  memory : WalkMemory := {}

namespace Walker

def new (forest : Forest α) (selector : Selector σ) : Walker α σ :=
  { forest, selector, selectorMemory := selector.initial, exhausted := forest.roots.isEmpty }

def hasMore (w : Walker α σ) : Bool := !w.exhausted

/-- Trees that remain to be produced, as far as the count of the forest tells. -/
def remaining (w : Walker α σ) : Nat :=
  if w.exhausted then 0 else w.forest.total - w.produced

/-- Walk from a root along a plan. -/
def walk (w : Walker α σ) (root : Nat) (plan : List Choice) : Walk α σ :=
  let begun : Walk α σ := { memory := w.memory, selector := w.selectorMemory, plan }
  let walked := Walk.visit w.forest w.selector (Walk.depthBound w.forest plan) (w.forest.roots.getD root 0)
    (begun.emit (.startTree w.forest.isAmbiguous w.forest.isInfinite))
  walked.emit (.endTree walked.madeChoice)

/-- Keep what a walk has learned. -/
def learn (w : Walker α σ) (walked : Walk α σ) : Walker α σ :=
  { w with memory := walked.memory, selectorMemory := walked.selector }

/-- Plan the next walk after one whose choices were `trace`, the latest first. -/
def planNext (w : Walker α σ) (trace : List Choice) : Walker α σ :=
  match trace.dropWhile Choice.isExhausted with
  | choice :: earlier => { w with plan := ({ choice with reselect := true } :: earlier).reverse }
  | []                =>
    { w with plan := [], root := w.root + 1, exhausted := w.root + 1 ≥ w.forest.roots.length }

/-- A tree as a walk produced it. -/
structure Produced (α : Type) where
  events : List (Event α)
  /-- Each inner node with the position of its family, in preorder. -/
  derivation : List (NodeId × Option Nat)

/-- What a call to a walker gives: a tree or an error, the notes, and the walker afterwards. -/
structure Step (α σ : Type) where
  result : Except Error (Produced α)
  notes : List Note
  walker : Walker α σ

/-- What a finished walk produced. -/
def produce (walked : Walk α σ) : Produced α :=
  ⟨walked.events.toList, walked.derivation.toList⟩

/-- Produce the next tree. -/
def next (w : Walker α σ) : Step α σ :=
  if w.exhausted then ⟨.error .noMoreTrees, [], w⟩
  else
    let walked := w.walk w.root w.plan
    let w := { w.learn walked with produced := w.produced + 1, last? := some (w.root, walked.trace.reverse) }
    ⟨.ok (produce walked), walked.notes.toList, w.planNext walked.trace⟩

/-- Produce the last tree again. -/
def replay (w : Walker α σ) : Step α σ :=
  match w.last? with
  | none => ⟨.error .noTreeSelected, [], w⟩
  | some (root, plan) =>
    let walked := w.walk root plan
    ⟨.ok (produce walked), walked.notes.toList, w.learn walked⟩

/-- Start over from the first tree. -/
def reset (w : Walker α σ) : Walker α σ :=
  { new w.forest w.selector with selectorMemory := w.selector.reset w.selectorMemory }

end Walker
end ContextFree
