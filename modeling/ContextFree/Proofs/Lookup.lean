-- SUMMARY: What indexes answer: maps whose values are arrays that grow at the end, and multimaps. Where a list is split.
import ContextFree.Multimap
import Mathlib.Data.List.Nodup

/-!
# Answers of indexes

Indexes are maps from keys to arrays of values, built by appending one value at a time under its key. Only the array of that
key changes.
-/
namespace ContextFree

/-- A list put together from two parts, split at one element: the element stands in one of the parts. -/
theorem split_append {β : Type} {left right before rest : List β} {x : β} (h : left ++ right = before ++ x :: rest) :
    (∃ inner, left = before ++ x :: inner ∧ rest = inner ++ right) ∨
      ∃ inner, before = left ++ inner ∧ right = inner ++ x :: rest := by
  rcases List.append_eq_append_iff.mp h with ⟨inner, hbefore, hright⟩ | ⟨inner, hleft, hrest⟩
  · exact .inr ⟨inner, hbefore, hright⟩
  · cases inner with
    | nil => exact .inr ⟨[], by simpa using hleft.symm, hrest.symm⟩
    | cons first inner =>
      cases hrest
      exact .inl ⟨inner, hleft, rfl⟩

variable {κ β : Type} [Ord κ] [Std.TransOrd κ] [Std.LawfulEqOrd κ] [DecidableEq κ]

/-- Appending a value under one key. -/
theorem getD_alter_push (m : Std.TreeMap κ (Array β)) (key key' : κ) (value : β) :
    (m.alter key fun old => some ((old.getD #[]).push value)).getD key' #[] =
      if key = key' then (m.getD key' #[]).push value else m.getD key' #[] := by
  simp only [Std.TreeMap.getD_alter, Std.LawfulEqCmp.compare_eq_iff_eq]
  split
  · rename_i heq
    rw [heq, Option.getD_some, Std.TreeMap.getD_eq_getD_getElem?]
  · rfl

theorem getElem?_insert_eq (m : Std.TreeMap κ β) (key key' : κ) (value : β) :
    (m.insert key value)[key']? = if key = key' then some value else m[key']? := by
  simp only [Std.TreeMap.getElem?_insert, Std.LawfulEqCmp.compare_eq_iff_eq]

namespace Multimap

variable [DecidableEq β]

omit [Std.TransOrd κ] [Std.LawfulEqOrd κ] [DecidableEq κ] in
@[simp] theorem contains_iff {m : Multimap κ β} {key : κ} {value : β} :
    m.contains key value = true ↔ value ∈ m.get key := by
  rw [contains, Array.contains_iff_mem]

omit [Std.LawfulEqOrd κ] [DecidableEq κ] [DecidableEq β] in
@[simp] theorem get_empty (key : κ) : (empty : Multimap κ β).get key = #[] :=
  Std.TreeMap.getD_emptyc

theorem get_add (m : Multimap κ β) (key key' : κ) (value : β) :
    (m.add key value).get key' =
      if key = key' ∧ value ∉ m.get key' then (m.get key').push value else m.get key' := by
  simp only [add, get, Std.TreeMap.getD_alter, Std.LawfulEqCmp.compare_eq_iff_eq]
  by_cases hkey : key = key'
  · subst hkey
    simp only [if_true, true_and, Option.getD_some, ← Std.TreeMap.getD_eq_getD_getElem?,
      Array.contains_iff_mem]
    by_cases hmem : value ∈ m.lists.getD key #[]
    · rw [if_pos hmem, if_neg (not_not_intro hmem)]
    · rw [if_neg hmem, if_pos hmem]
  · simp only [hkey, if_false, false_and]

/-- The pairs of a multimap after adding one. -/
@[simp] theorem mem_get_add {m : Multimap κ β} {key key' : κ} {value value' : β} :
    value' ∈ (m.add key value).get key' ↔ value' ∈ m.get key' ∨ (key = key' ∧ value' = value) := by
  rw [get_add]
  split
  · rename_i h
    rw [Array.mem_push]
    exact or_congr_right ⟨fun heq => ⟨h.1, heq⟩, fun heq => heq.2⟩
  · rename_i h
    refine ⟨Or.inl, ?_⟩
    rintro (hmem | ⟨hkey, rfl⟩)
    · exact hmem
    · by_contra hnot
      exact h ⟨hkey, hnot⟩

end Multimap
end ContextFree
