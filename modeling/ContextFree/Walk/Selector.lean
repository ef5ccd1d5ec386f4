-- SUMMARY: Who decides which family an ambiguous node is derived by.
import ContextFree.Forest.Node
import ContextFree.Vocabulary.Attributes

/-!
# Selectors

Where a node has several usable families, the walker asks a selector. A selector sees the candidates and the families that
were tried before at this point. It answers with a position among the candidates, and says whether the choice was
arbitrary. It may have a memory of its own, of type `σ`, which a reset of the walker winds back.
-/
namespace ContextFree

variable {σ : Type}

/-- A child of a candidate. -/
structure ChildView where
  node : NodeId
  label : Label
  /-- The child's symbol; for a node labelled by a state, the symbol before its dot. -/
  symbol : Option Symbol
  /-- The attributes of `symbol`. -/
  attributes : Attributes
  span : Span

/-- A family that the walker may follow. -/
structure Candidate where
  /-- The position of the family within its node. -/
  family : Nat
  children : List ChildView

namespace Candidate

/-- The highest priority among the children, or zero if none has one. -/
def priority (c : Candidate) : Int :=
  (c.children.filterMap (·.attributes.priority)).max?.getD 0

def isEpsilon (c : Candidate) : Bool :=
  c.children.isEmpty

end Candidate

structure Selection where
  /-- A position in the list of candidates. -/
  index : Nat
  /-- Whether the choice was arbitrary among equally good ones. -/
  ambiguous : Bool
deriving DecidableEq

/-- A decision procedure with a memory. -/
structure Selector (σ : Type) where
  initial : σ
  select : List Candidate → (tried : List Nat) → σ → Selection × σ
  reset : σ → σ := id

/-- Candidates that were not tried, with their positions. -/
def untried (candidates : List Candidate) (tried : List Nat) : List (Candidate × Nat) :=
  candidates.zipIdx.filter fun (candidate, _) => !tried.contains candidate.family

/-- The position of the first candidate that was not tried. -/
def firstUntried (candidates : List Candidate) (tried : List Nat) : Nat :=
  ((untried candidates tried).head?.map (·.2)).getD 0

namespace Selector

/-- A selector without memory. -/
def stateless (choose : List Candidate → List Nat → Selection) : Selector Unit where
  initial := ()
  select := fun candidates tried _ => (choose candidates tried, ())

/-- Families in order; a choice among several counts as arbitrary. -/
def sequential : Selector Unit :=
  stateless fun candidates tried => ⟨firstUntried candidates tried, candidates.length > 1⟩

/-- Families in order; no choice counts as arbitrary. -/
def silent : Selector Unit :=
  stateless fun candidates tried => ⟨firstUntried candidates tried, false⟩

/-- The best candidate in a list with positions: the first of those with the highest priority, with the number of others that
tie with it. -/
def best? : List (Candidate × Nat) → Option (Nat × Int × Nat) :=
  List.foldl
    (fun best? (candidate, index) =>
      let priority := candidate.priority
      match best? with
      | none => some (index, priority, 0)
      | some (i, highest, ties) =>
        if priority < highest then some (i, highest, ties)
        else if priority = highest then some (i, highest, ties + 1)
        else some (index, priority, 0))
    none

/-- The family whose children have the highest priority; only a tie counts as arbitrary. -/
def byPriority : Selector Unit :=
  stateless fun candidates tried =>
    match best? (untried candidates tried) with
    | some (index, _, ties) => ⟨index, ties > 0⟩
    | none                  => ⟨0, false⟩

end Selector
end ContextFree
