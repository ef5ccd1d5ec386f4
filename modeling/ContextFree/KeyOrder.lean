-- SUMMARY: Orders on the keys of sets and maps.
import Std.Data.TreeMap
import Std.Data.TreeSet

/-!
# Key orders

Sets and maps are search trees, so their keys are ordered. A type of keys is ordered through its rank, a tuple of numbers that
determines the value: keys of equal rank are equal.
-/
namespace ContextFree

variable {α β : Type}

/-- Pairs are ordered by their first parts and, where these agree, by their second parts. -/
instance pairOrd [Ord α] [Ord β] : Ord (α × β) := lexOrd

/-- Values that are compared by a rank that determines them compare as equal only if they are equal. -/
theorem lawfulEqCmp_compareOn [Ord β] [Std.LawfulEqOrd β] {rank : α → β}
    (hrank : ∀ a b, rank a = rank b → a = b) : Std.LawfulEqCmp (compareOn rank) where
  compare_self := Std.ReflOrd.compare_self
  eq_of_compare h := hrank _ _ (Std.LawfulEqOrd.eq_of_compare h)

end ContextFree
