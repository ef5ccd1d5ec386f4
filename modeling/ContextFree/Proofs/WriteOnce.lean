-- SUMMARY: Over any list of requests to a grammar, each attribute of a symbol keeps the first value it is given.
import ContextFree.Proofs.Attributes
import ContextFree.Proofs.Rules
import Mathlib.Data.List.Induction

/-!
# Write-once attributes

Requests to a grammar come in any order: names and terminals are interned, rules are declared, attributes are set, and at
some point the grammar is closed. An attribute of a symbol has the value that was asked for first. That value may be asked
for again. A different one is refused, and what is refused leaves the grammar as it is. Only requests for one and the same
attribute of a symbol depend on each other.
-/
namespace ContextFree.Grammar

variable {α : Type} [DecidableEq α]

/-- A request to a grammar. -/
inductive Request (α : Type) where
  | nonterminal (name : String)
  | terminal (t : Terminal α)
  | declare (lhs : Nonterminal) (items : List RuleItem)
  | setAttribute (symbol : Symbol) (name value : String)
  | close

/-- Do what is asked, or say why it cannot be done. -/
def perform (g : Grammar α) : Request α → Except Error (Grammar α)
  | .nonterminal name               => .ok (g.nonterminal name).2
  | .terminal t                     => .ok (g.terminal t).2
  | .declare lhs items              => g.declare lhs items
  | .setAttribute symbol name value => g.setAttribute symbol name value
  | .close                          => .ok g.close

/-- The grammar after a request. One that is refused changes nothing. -/
def request (g : Grammar α) (r : Request α) : Grammar α :=
  match g.perform r with
  | .ok g'   => g'
  | .error _ => g

/-- What a list of requests makes of the empty grammar. -/
def after (requests : List (Request α)) : Grammar α :=
  requests.foldl request empty

/-- The value that a request asks for, if it is about this attribute of this symbol. -/
def Request.value? (symbol : Symbol) (name : String) : Request α → Option String
  | .setAttribute symbol' name' value => if symbol' = symbol ∧ name' = name then some value else none
  | _ => none

/-- The values asked for one attribute of a symbol, in order. -/
def asked (requests : List (Request α)) (symbol : Symbol) (name : String) : List String :=
  requests.filterMap (Request.value? symbol name)

/-- Some request for this attribute and this value succeeded. -/
def Granted (requests : List (Request α)) (symbol : Symbol) (name value : String) : Prop :=
  ∃ earlier later, requests = earlier ++ .setAttribute symbol name value :: later ∧
    ∃ g, (after earlier).setAttribute symbol name value = .ok g

/-- The first request for this attribute that succeeded asked for this value. -/
def GrantedFirst (requests : List (Request α)) (symbol : Symbol) (name value : String) : Prop :=
  ∃ earlier later, requests = earlier ++ .setAttribute symbol name value :: later ∧
    (∃ g, (after earlier).setAttribute symbol name value = .ok g) ∧ ∀ value', ¬Granted earlier symbol name value'

/-- The attributes after a list of requests are those of a map that is written once. -/
structure WriteOnce (requests : List (Request α)) : Prop where
  succeeds_iff : ∀ symbol name value, (∃ g, (after requests).setAttribute symbol name value = .ok g) ↔
    ∀ value', Granted requests symbol name value' → value' = value
  /-- What is refused is reported with the value that stands against it, and changes nothing. -/
  refused : ∀ {symbol name value e}, (after requests).setAttribute symbol name value = .error e →
    after (requests ++ [.setAttribute symbol name value]) = after requests ∧
    ∃ existing, existing ≠ value ∧ GrantedFirst requests symbol name existing ∧
      e = .attributeConflict ((after requests).nameOf symbol) name existing value
  increasing : ∀ symbol, ((after requests).attributesOf symbol).toList.Pairwise (·.1 < ·.1)
  mem_iff : ∀ symbol name value, (name, value) ∈ ((after requests).attributesOf symbol).toList ↔
    GrantedFirst requests symbol name value
  get_iff : ∀ symbol name value, ((after requests).attributesOf symbol).get? name = some value ↔
    (name, value) ∈ ((after requests).attributesOf symbol).toList
  contains_iff : ∀ symbol name, ((after requests).attributesOf symbol).contains name = true ↔
    ∃ value, (name, value) ∈ ((after requests).attributesOf symbol).toList
  /-- Only requests about a symbol change its attributes. -/
  others : ∀ {r symbol}, (∀ name value, r ≠ .setAttribute symbol name value) →
    (after (requests ++ [r])).attributesOf symbol = (after requests).attributesOf symbol
  /-- The order of requests counts only among those for one attribute of one symbol. -/
  order : ∀ {requests' : List (Request α)}, (∀ symbol name, asked requests' symbol name = asked requests symbol name) →
    ∀ symbol, (after requests').attributesOf symbol = (after requests).attributesOf symbol

/-! ## One request -/

section OneRequest

variable {g g' : Grammar α} {symbol symbol' : Symbol} {name value : String} {r : Request α}

omit [DecidableEq α] in
theorem attributesOf_empty (symbol : Symbol) : (empty : Grammar α).attributesOf symbol = .empty :=
  Std.TreeMap.getD_emptyc

omit [DecidableEq α] in
theorem attributes_close (g : Grammar α) : g.close.attributes = g.attributes := by
  refine close_induction (P := fun g' => g'.attributes = g.attributes) (fun rule h => ?_) (fun h => h) rfl
  unfold pushRule
  split <;> exact h

omit [DecidableEq α] in
/-- An attribute is set in the set of its symbol. -/
theorem attributesOf_setAttribute (hok : g.setAttribute symbol name value = .ok g') :
    (g.attributesOf symbol).set name value = .ok (g'.attributesOf symbol) ∧
      ∀ symbol', symbol ≠ symbol' → g'.attributesOf symbol' = g.attributesOf symbol' := by
  unfold setAttribute at hok
  split at hok
  · rename_i attributes hset
    cases hok
    refine ⟨hset.trans (congrArg _ ?_), fun symbol' hne => ?_⟩
    · exact Std.TreeMap.getD_insert_self.symm
    · rw [attributesOf, Std.TreeMap.getD_insert, if_neg (mt Std.LawfulEqCmp.compare_eq_iff_eq.mp hne)]
      rfl
  · cases hok

omit [DecidableEq α] in
theorem setAttribute_eq_error_iff {e : Error} : g.setAttribute symbol name value = .error e ↔
    ∃ existing, (g.attributesOf symbol).set name value = .error existing ∧
      e = .attributeConflict (g.nameOf symbol) name existing value := by
  cases hset : (g.attributesOf symbol).set name value with
  | ok attributes => simp [setAttribute, hset]
  | error existing => simp [setAttribute, hset, eq_comm]

theorem request_of_ok (h : g.perform r = .ok g') : g.request r = g' := by
  rw [request, h]

theorem request_of_error {e : Error} (h : g.perform r = .error e) : g.request r = g := by
  rw [request, h]

/-- A request that is not about a symbol leaves its attributes as they are. -/
theorem attributesOf_request (h : ∀ name value, r ≠ .setAttribute symbol name value) :
    (g.request r).attributesOf symbol = g.attributesOf symbol := by
  cases hperform : g.perform r with
  | error e => rw [request_of_error hperform]
  | ok g' =>
    rw [request_of_ok hperform]
    cases r with
    | nonterminal name =>
      cases hperform
      unfold nonterminal
      split <;> rfl
    | terminal t =>
      cases hperform
      unfold terminal
      split <;> rfl
    | declare lhs items =>
      rw [perform, declare] at hperform
      split at hperform
      · cases hperform
      · split at hperform <;> cases hperform <;> rfl
    | setAttribute symbol' name value =>
      refine (attributesOf_setAttribute hperform).2 symbol ?_
      rintro rfl
      exact h name value rfl
    | close =>
      cases hperform
      rw [attributesOf, attributes_close]
      rfl

end OneRequest

/-! ## Lists of requests -/

section Requests

variable {g : Grammar α} {requests earlier : List (Request α)} {symbol : Symbol} {name value : String}

theorem after_concat (requests : List (Request α)) (r : Request α) :
    after (requests ++ [r]) = (after requests).request r := by
  rw [after, List.foldl_append]
  rfl

/-- What requests make of the empty grammar is built. -/
theorem built_after (requests : List (Request α)) : (after requests).Built := by
  induction requests using List.reverseRecOn with
  | nil => exact .empty
  | append_singleton requests r ih =>
    rw [after_concat]
    cases hperform : (after requests).perform r with
    | error e => rwa [request_of_error hperform]
    | ok g =>
      rw [request_of_ok hperform]
      cases r with
      | nonterminal name =>
        cases hperform
        exact .nonterminal name ih
      | terminal t =>
        cases hperform
        exact .terminal t ih
      | declare lhs items => exact .declare lhs items ih hperform
      | setAttribute symbol name value => exact .setAttribute symbol name value ih hperform
      | close =>
        cases hperform
        exact .close ih

omit [DecidableEq α] in
theorem Request.value?_eq_some {r : Request α} :
    r.value? symbol name = some value ↔ r = .setAttribute symbol name value := by
  cases r <;> simp [Request.value?, and_assoc]

/-- The sets are sorted, and each attribute has the value that was asked for first. -/
structure Tracks (g : Grammar α) (requests : List (Request α)) : Prop where
  sorted : ∀ symbol, (g.attributesOf symbol).Sorted
  get_eq : ∀ symbol name, (g.attributesOf symbol).get? name = (asked requests symbol name).head?

omit [DecidableEq α] in
theorem asked_concat (requests : List (Request α)) (r : Request α) (symbol : Symbol) (name : String) :
    asked (requests ++ [r]) symbol name = asked requests symbol name ++ (r.value? symbol name).toList := by
  rw [asked, List.filterMap_append]
  cases hvalue : r.value? symbol name <;> simp [asked, hvalue]

theorem Tracks.request (h : Tracks g requests) (r : Request α) : Tracks (g.request r) (requests ++ [r]) := by
  suffices hsymbol : ∀ symbol, ((g.request r).attributesOf symbol).Sorted ∧ ∀ name,
      ((g.request r).attributesOf symbol).get? name = (asked (requests ++ [r]) symbol name).head? from
    ⟨fun symbol => (hsymbol symbol).1, fun symbol => (hsymbol symbol).2⟩
  intro symbol
  simp only [asked_concat, List.head?_append, ← h.get_eq]
  by_cases hr : ∀ name value, r ≠ .setAttribute symbol name value
  · have hvalue : ∀ name, r.value? symbol name = none := fun name =>
      Option.eq_none_iff_forall_ne_some.mpr fun value heq => hr name value (Request.value?_eq_some.mp heq)
    simp only [attributesOf_request hr, hvalue]
    exact ⟨h.sorted symbol, fun name => (Option.or_none).symm⟩
  · push Not at hr
    obtain ⟨name, value, rfl⟩ := hr
    have hvalue : ∀ name', (Request.setAttribute symbol name value : Request α).value? symbol name' =
        if name = name' then some value else none := fun name' => by simp [Request.value?]
    simp only [hvalue]
    cases hperform : g.perform (.setAttribute symbol name value) with
    | ok g' =>
      rw [request_of_ok hperform]
      simpa only [Option.head?_toList] using (h.sorted symbol).set (attributesOf_setAttribute hperform).1
    | error e =>
      rw [request_of_error hperform]
      obtain ⟨existing, hset, rfl⟩ := setAttribute_eq_error_iff.mp hperform
      obtain ⟨hget, _⟩ := (h.sorted symbol).set_eq_error_iff.mp hset
      refine ⟨h.sorted symbol, fun name' => ?_⟩
      split
      · rename_i heq
        rw [← heq, hget, Option.some_or]
      · simp

theorem tracks_after (requests : List (Request α)) : Tracks (after requests) requests := by
  induction requests using List.reverseRecOn with
  | nil => exact ⟨fun symbol => attributesOf_empty symbol ▸ Attributes.sorted_empty, fun symbol name => by
      rw [after, List.foldl_nil, attributesOf_empty]; rfl⟩
  | append_singleton requests r ih => exact after_concat requests r ▸ ih.request r

theorem setAttribute_after_iff : (∃ g, (after requests).setAttribute symbol name value = .ok g) ↔
    ∀ value' ∈ (asked requests symbol name).head?, value' = value := by
  have htracks := tracks_after requests
  have hset : (∃ a, ((after requests).attributesOf symbol).set name value = .ok a) ↔
      ∀ value' ∈ (asked requests symbol name).head?, value' = value := by
    rw [(htracks.sorted symbol).set_eq_ok_iff, htracks.get_eq]
    rfl
  refine Iff.trans ?_ hset
  cases hperform : (after requests).setAttribute symbol name value with
  | ok g => exact iff_of_true ⟨g, rfl⟩ ⟨_, (attributesOf_setAttribute hperform).1⟩
  | error e =>
    obtain ⟨existing, herror, _⟩ := setAttribute_eq_error_iff.mp hperform
    exact iff_of_false (fun ⟨_, hok⟩ => by cases hok) fun ⟨_, hok⟩ => by cases herror.symm.trans hok

/-- What is granted is what was asked for first. -/
theorem head?_of_granted (h : Granted requests symbol name value) :
    (asked requests symbol name).head? = some value := by
  obtain ⟨earlier, later, rfl, hok⟩ := h
  have hfirst := setAttribute_after_iff.mp hok
  have hvalue : (Request.setAttribute symbol name value : Request α).value? symbol name = some value :=
    Request.value?_eq_some.mpr rfl
  rw [asked, List.filterMap_append, List.filterMap_cons_some hvalue, List.head?_append, List.head?_cons]
  cases hhead : (List.filterMap (Request.value? symbol name) earlier).head? with
  | none => rfl
  | some value' => exact congrArg some (hfirst value' hhead)

theorem grantedFirst_of_head? (h : (asked requests symbol name).head? = some value) :
    GrantedFirst requests symbol name value := by
  obtain ⟨values, hvalues⟩ := List.head?_eq_some_iff.mp h
  obtain ⟨earlier, r, later, rfl, hnone, hvalue, _⟩ := List.filterMap_eq_cons_iff.mp hvalues
  obtain rfl := Request.value?_eq_some.mp hvalue
  have hasked : asked earlier symbol name = [] := List.filterMap_eq_nil_iff.mpr hnone
  refine ⟨earlier, later, rfl, setAttribute_after_iff.mpr ?_, fun value' hgranted => ?_⟩
  · rw [hasked]
    exact fun _ hmem => by cases hmem
  · have hhead := head?_of_granted hgranted
    rw [hasked] at hhead
    cases hhead

theorem GrantedFirst.granted (h : GrantedFirst requests symbol name value) : Granted requests symbol name value := by
  obtain ⟨earlier, later, hsplit, hok, _⟩ := h
  exact ⟨earlier, later, hsplit, hok⟩

theorem granted_iff : Granted requests symbol name value ↔ (asked requests symbol name).head? = some value :=
  ⟨head?_of_granted, fun h => (grantedFirst_of_head? h).granted⟩

theorem grantedFirst_iff : GrantedFirst requests symbol name value ↔ (asked requests symbol name).head? = some value :=
  ⟨fun h => head?_of_granted h.granted, grantedFirst_of_head?⟩

end Requests

/-- Attributes are written once, whatever the requests are and in whatever order they come. -/
theorem writeOnce_after (requests : List (Request α)) : WriteOnce requests := by
  have htracks := tracks_after requests
  have hmem : ∀ symbol name value, (name, value) ∈ ((after requests).attributesOf symbol).toList ↔
      GrantedFirst requests symbol name value := by
    intro symbol name value
    rw [← (htracks.sorted symbol).get?_eq_some_iff, htracks.get_eq, grantedFirst_iff]
  constructor
  case succeeds_iff =>
    intro symbol name value
    simp only [setAttribute_after_iff, granted_iff]
    rfl
  case refused =>
    intro symbol name value e herror
    obtain ⟨existing, hset, rfl⟩ := setAttribute_eq_error_iff.mp herror
    obtain ⟨hget, hne⟩ := (htracks.sorted symbol).set_eq_error_iff.mp hset
    refine ⟨?_, existing, hne, ?_, rfl⟩
    · rw [after_concat, request_of_error (r := .setAttribute symbol name value) herror]
    · rwa [htracks.get_eq, ← grantedFirst_iff] at hget
  case increasing => exact htracks.sorted
  case mem_iff => exact hmem
  case get_iff => exact fun symbol name value => (htracks.sorted symbol).get?_eq_some_iff
  case contains_iff =>
    intro symbol name
    rw [(htracks.sorted symbol).contains_eq, Option.isSome_iff_exists]
    exact exists_congr fun value => (htracks.sorted symbol).get?_eq_some_iff
  case others =>
    intro r symbol hr
    rw [after_concat, attributesOf_request hr]
  case order =>
    intro requests' hasked symbol
    have htracks' := tracks_after requests'
    refine (htracks'.sorted symbol).eq_of_get? (htracks.sorted symbol) fun name => ?_
    rw [htracks'.get_eq, htracks.get_eq, hasked]

end ContextFree.Grammar
