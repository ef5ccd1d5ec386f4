-- SUMMARY: Attributes are a map: a name is found by halving, is added at its place, and keeps its value.
import ContextFree.Vocabulary.Attributes
import Mathlib.Data.String.Basic
import Mathlib.Data.List.Sort

/-!
# Sets of attributes

The entries of a set increase by name, so a name has one value at most and halving finds it. A name that is missing is put
between the smaller and the larger ones, which keeps the order. Two sets that give the same answers are the same.
-/
namespace ContextFree.Attributes

/-- The names increase from one entry to the next. -/
def Sorted (a : Attributes) : Prop :=
  a.toList.Pairwise (·.1 < ·.1)

/-- What the place of a name tells: the entry that has the name, or the gap between the smaller and the larger names. -/
inductive Place.Fits (a : Attributes) (name : String) : Place → Prop where
  | taken {index : Nat} {value : String} : a.entries[index]? = some (name, value) → Fits a name (.taken index)
  | vacant {before after : List (String × String)} : a.toList = before ++ after → (∀ e ∈ before, e.1 < name) →
      (∀ e ∈ after, name < e.1) → Fits a name (.vacant before.length)

variable {a b : Attributes} {name name' value value' existing : String}

theorem length_toList (a : Attributes) : a.toList.length = a.entries.size :=
  Array.length_toList

theorem sorted_empty : empty.Sorted :=
  .nil

/-! ## Finding a name -/

/-- The names up to an entry are no larger than its name, and those from it on are no smaller. -/
theorem Sorted.around (h : a.Sorted) {i : Nat} {entry : String × String} (hentry : a.entries[i]? = some entry) :
    i < a.toList.length ∧ (∀ e ∈ a.toList.take (i + 1), e.1 ≤ entry.1) ∧ ∀ e ∈ a.toList.drop i, entry.1 ≤ e.1 := by
  rw [← Array.getElem?_toList] at hentry
  obtain ⟨hi, rfl⟩ := List.getElem?_eq_some_iff.mp hentry
  have hmono : ∀ {j k : Nat} (hj : j < a.toList.length) (hk : k < a.toList.length), j ≤ k →
      (a.toList[j]).1 ≤ (a.toList[k]).1 := by
    intro j k hj hk hjk
    obtain hlt | rfl := Nat.lt_or_eq_of_le hjk
    · exact le_of_lt (List.pairwise_iff_getElem.mp h j k hj hk hlt)
    · exact le_rfl
  refine ⟨hi, fun e he => ?_, fun e he => ?_⟩
  · obtain ⟨j, hj, rfl⟩ := List.mem_take_iff_getElem.mp he
    exact hmono _ hi (by omega)
  · obtain ⟨j, hj, rfl⟩ := List.mem_drop_iff_getElem.mp he
    exact hmono hi _ (by omega)

/-- The names before the interval are smaller and those behind it are larger; each halving keeps that. -/
theorem fits_search (h : a.Sorted) (fuel lo hi : Nat) (hfuel : hi - lo < fuel) (hle : lo ≤ hi)
    (hsize : hi ≤ a.toList.length) (hbefore : ∀ e ∈ a.toList.take lo, e.1 < name)
    (hafter : ∀ e ∈ a.toList.drop hi, name < e.1) : Place.Fits a name (search a.entries name fuel lo hi) := by
  fun_induction search a.entries name fuel lo hi with
  | case1 => omega
  | case2 fuel lo hi hlt middle hnone =>
    rw [Array.getElem?_eq_none_iff] at hnone
    have : a.entries.size = a.toList.length := rfl
    omega
  | case3 fuel lo hi hlt middle existing value hentry hcompare =>
    rw [compare_eq_iff_eq] at hcompare
    exact .taken (hcompare ▸ hentry)
  | case4 fuel lo hi hlt middle existing value hentry hcompare ih =>
    rw [compare_lt_iff_lt] at hcompare
    obtain ⟨_, hsmaller, _⟩ := h.around hentry
    exact ih (by omega) (by omega) hsize (fun e he => (hsmaller e he).trans_lt hcompare) hafter
  | case5 fuel lo hi hlt middle existing value hentry hcompare ih =>
    rw [compare_gt_iff_gt] at hcompare
    obtain ⟨_, _, hlarger⟩ := h.around hentry
    exact ih (by omega) (by omega) (by omega) hbefore fun e he => lt_of_lt_of_le hcompare (hlarger e he)
  | case6 fuel lo hi hge =>
    obtain rfl : lo = hi := by omega
    have hlength := List.length_take_of_le hsize
    rw [← hlength]
    exact .vacant (List.take_append_drop lo _).symm hbefore hafter

theorem Sorted.fits (h : a.Sorted) (name : String) : Place.Fits a name (a.locate name) := by
  refine fits_search h _ 0 _ (Nat.lt_succ_self _) (Nat.zero_le _) (Nat.le_refl _) (List.forall_mem_nil _) fun e he => ?_
  rw [List.drop_eq_nil_of_le (Nat.le_of_eq a.length_toList)] at he
  cases he

theorem Sorted.nodup_names (h : a.Sorted) : (a.toList.map Prod.fst).Nodup :=
  (List.pairwise_map.mpr h).imp ne_of_lt

/-- A name has one value. -/
theorem Sorted.value_unique (h : a.Sorted) (hvalue : (name, value) ∈ a.toList) (hvalue' : (name, value') ∈ a.toList) :
    value = value' :=
  (Prod.mk.inj (List.inj_on_of_nodup_map h.nodup_names hvalue hvalue' rfl)).2

theorem notMem_of_vacant {before after : List (String × String)} (hsplit : a.toList = before ++ after)
    (hbefore : ∀ e ∈ before, e.1 < name) (hafter : ∀ e ∈ after, name < e.1) : (name, value) ∉ a.toList := by
  rw [hsplit, List.mem_append]
  rintro (hmem | hmem)
  · exact lt_irrefl _ (hbefore _ hmem)
  · exact lt_irrefl _ (hafter _ hmem)

/-- Looking a name up reads the list of entries. -/
theorem Sorted.get?_eq_some_iff (h : a.Sorted) : a.get? name = some value ↔ (name, value) ∈ a.toList := by
  have hfits := h.fits name
  unfold get?
  generalize a.locate name = place at hfits ⊢
  cases hfits with
  | taken hentry =>
    have hmem := Array.mem_toList_iff.mpr (Array.mem_of_getElem? hentry)
    simp only [hentry, Option.map_some, Option.some_inj]
    exact ⟨fun heq => heq ▸ hmem, h.value_unique hmem⟩
  | vacant hsplit hbefore hafter =>
    exact iff_of_false (fun heq => by cases heq) (notMem_of_vacant hsplit hbefore hafter)

/-- A name is in the set if looking it up gives a value. -/
theorem Sorted.contains_eq (h : a.Sorted) (name : String) : a.contains name = (a.get? name).isSome := by
  have hfits := h.fits name
  unfold contains get?
  generalize a.locate name = place at hfits ⊢
  cases hfits with
  | taken hentry => simp only [hentry, Option.map_some, Option.isSome_some]
  | vacant => rfl

/-- Sets that answer alike are the same. -/
theorem Sorted.eq_of_get? (ha : a.Sorted) (hb : b.Sorted) (h : ∀ name, a.get? name = b.get? name) : a = b := by
  have hmem : ∀ e, e ∈ a.toList ↔ e ∈ b.toList := by
    rintro ⟨name, value⟩
    rw [← ha.get?_eq_some_iff, ← hb.get?_eq_some_iff, h]
  have hperm := (List.perm_ext_iff_of_nodup ha.nodup_names.of_map hb.nodup_names.of_map).mpr hmem
  have heq : a.toList = b.toList := hperm.eq_of_pairwise (fun _ _ _ _ hlt hgt => absurd hlt hgt.asymm) ha hb
  obtain ⟨⟨entries⟩⟩ := a
  obtain ⟨⟨entries'⟩⟩ := b
  cases heq
  rfl

/-! ## Setting a name -/

theorem insertIdx_append_length {β : Type} (before after : List β) (x : β) :
    (before ++ after).insertIdx before.length x = before ++ x :: after := by
  induction before with
  | nil => rw [List.nil_append, List.length_nil, List.insertIdx_zero, List.nil_append]
  | cons y before ih => rw [List.cons_append, List.length_cons, List.insertIdx_succ_cons, ih, List.cons_append]

theorem toList_insert {before after : List (String × String)} (hsplit : a.toList = before ++ after)
    (entry : String × String) : (Attributes.mk (a.entries.insertIdxIfInBounds before.length entry)).toList =
      before ++ entry :: after := by
  have hle : before.length ≤ a.entries.size := by
    rw [← a.length_toList, hsplit, List.length_append]
    exact Nat.le_add_right _ _
  rw [toList, Array.insertIdxIfInBounds, dif_pos hle, Array.toList_insertIdx, ← toList, hsplit, insertIdx_append_length]

/-- What setting a name can do: add the name at its place, find the value already there, or refuse a different value. -/
theorem Sorted.set_cases (h : a.Sorted) (name value : String) :
    (∃ before after b, a.toList = before ++ after ∧ (∀ e ∈ before, e.1 < name) ∧ (∀ e ∈ after, name < e.1) ∧
      b.toList = before ++ (name, value) :: after ∧ a.get? name = none ∧ a.set name value = .ok b) ∨
    (a.get? name = some value ∧ a.set name value = .ok a) ∨
    ∃ existing, existing ≠ value ∧ a.get? name = some existing ∧ a.set name value = .error existing := by
  have hfits := h.fits name
  unfold get? set
  generalize a.locate name = place at hfits ⊢
  cases hfits with
  | @taken _ existing hentry =>
    simp only [hentry, Option.map_some]
    by_cases hvalue : existing = value
    · exact .inr (.inl ⟨congrArg some hvalue, if_pos hvalue⟩)
    · exact .inr (.inr ⟨existing, hvalue, rfl, if_neg hvalue⟩)
  | vacant hsplit hbefore hafter =>
    exact .inl ⟨_, _, _, hsplit, hbefore, hafter, toList_insert hsplit _, rfl, rfl⟩

/-- A value is refused if the name has a different one. -/
theorem Sorted.set_eq_error_iff (h : a.Sorted) :
    a.set name value = .error existing ↔ a.get? name = some existing ∧ existing ≠ value := by
  obtain ⟨_, _, b, _, _, _, _, hget, hset⟩ | ⟨hget, hset⟩ | ⟨existing', hne, hget, hset⟩ := h.set_cases name value <;>
    rw [hget, hset]
  · exact iff_of_false (fun h => by cases h) (fun h => by cases h.1)
  · exact iff_of_false (fun h => by cases h) (fun h => h.2 (Option.some_inj.mp h.1).symm)
  · rw [Except.error.injEq, Option.some_inj]
    exact ⟨fun heq => ⟨heq, heq ▸ hne⟩, And.left⟩

theorem Sorted.set_eq_ok_iff (h : a.Sorted) :
    (∃ b, a.set name value = .ok b) ↔ ∀ existing, a.get? name = some existing → existing = value := by
  cases hset : a.set name value with
  | ok b =>
    refine iff_of_true ⟨b, rfl⟩ fun existing hget => ?_
    by_contra hne
    cases hset.symm.trans (h.set_eq_error_iff.mpr ⟨hget, hne⟩)
  | error existing =>
    obtain ⟨hget, hne⟩ := h.set_eq_error_iff.mp hset
    exact iff_of_false (fun ⟨_, hok⟩ => by cases hok) fun hall => hne (hall existing hget)

/-- The name that was set has its value unless it already had one, and the other names keep theirs. -/
theorem Sorted.set (h : a.Sorted) (hset : a.set name value = .ok b) :
    b.Sorted ∧ ∀ name', b.get? name' = (a.get? name').or (if name = name' then some value else none) := by
  obtain ⟨before, after, b', hsplit, hbefore, hafter, hlist, hget, hok⟩ | ⟨hget, hok⟩ | ⟨_, _, _, herror⟩ :=
    h.set_cases name value
  · cases hset.symm.trans hok
    have hsorted : b.Sorted := by
      rw [Sorted, hsplit, List.pairwise_append] at h
      rw [Sorted, hlist, List.pairwise_append, List.pairwise_cons]
      refine ⟨h.1, ⟨hafter, h.2.1⟩, fun e he e' he' => ?_⟩
      obtain rfl | he' := List.mem_cons.mp he'
      · exact hbefore e he
      · exact h.2.2 e he e' he'
    have hmem : ∀ e, e ∈ b.toList ↔ (name, value) = e ∨ e ∈ a.toList := by
      intro e
      rw [hlist, hsplit, List.mem_append, List.mem_cons, List.mem_append, or_left_comm, eq_comm]
    refine ⟨hsorted, fun name' => Option.ext fun value' => ?_⟩
    rw [hsorted.get?_eq_some_iff, hmem, ← h.get?_eq_some_iff, Prod.mk.injEq]
    by_cases heq : name = name'
    · subst heq
      simp [hget]
    · simp [heq]
  · cases hset.symm.trans hok
    refine ⟨h, fun name' => ?_⟩
    split
    · rename_i heq
      rw [← heq, hget, Option.some_or]
    · rw [Option.or_none]
  · cases hset.symm.trans herror

end ContextFree.Attributes
