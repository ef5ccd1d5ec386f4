-- SUMMARY: Before it is finished, the forest of a run holds every derivation of its nodes, each once, and nothing else.
import ContextFree.Proofs.Recognition
import ContextFree.Proofs.Forest.Nodes

/-!
# Forests hold every derivation

The table of nodes that a run hands over to be finished is exact below its root: the families of a node correspond one
to one to the ways to derive it. For a nonterminal these are the pairs of a useful rule and a pivot, for a dotted state
the pivots; a terminal has none.
-/
namespace ContextFree

variable {α : Type}

/-! ## Lists of ways -/

/-- A list without repetition of all values of an injective function lists its arguments. -/
theorem exists_arguments {β γ : Type} {f : β → γ} {P : β → Prop} {values : List γ} (hnodup : values.Nodup)
    (hvalues : ∀ value, value ∈ values ↔ ∃ b, P b ∧ f b = value)
    (hinjective : ∀ b b', P b → P b' → f b = f b' → b = b') :
    ∃ arguments : List β, arguments.Nodup ∧ (∀ b, b ∈ arguments ↔ P b) ∧ values = arguments.map f := by
  have hsome : ∀ values : List γ, (∀ value ∈ values, ∃ b, P b ∧ f b = value) →
      ∃ arguments : List β, (∀ b ∈ arguments, P b) ∧ values = arguments.map f := by
    intro values
    induction values with
    | nil => exact fun _ => ⟨[], by simp, rfl⟩
    | cons value values ih =>
      intro h
      obtain ⟨b, hb, rfl⟩ := h value List.mem_cons_self
      obtain ⟨arguments, hP, rfl⟩ := ih fun value hvalue => h value (List.mem_cons_of_mem _ hvalue)
      exact ⟨b :: arguments, by simpa using ⟨hb, hP⟩, rfl⟩
  obtain ⟨arguments, hP, rfl⟩ := hsome values fun value hvalue => (hvalues value).mp hvalue
  refine ⟨arguments, hnodup.of_map, fun b => ⟨hP b, fun hb => ?_⟩, rfl⟩
  obtain ⟨b', hb', heq⟩ := List.mem_map.mp ((hvalues (f b)).mpr ⟨b, hb, rfl⟩)
  rwa [hinjective b b' hb (hP b' hb') heq.symm]

namespace NodeTable

variable {t : NodeTable} {root id : Nat}

variable [DecidableEq α]

/-- The families of a node are the ways to derive it, and it has at least one derivation. -/
structure ExactAt (t : NodeTable) (p : Prepared α) (tokens : Array α) (id : NodeId) : Prop where
  present : id < t.size
  derived : Derived p tokens (t.node id).identity
  terminal : ∀ {terminal i j}, (t.node id).identity = ⟨.symbol (.terminal terminal), i, j⟩ →
    j = i + p.matchLength terminal tokens i ∧ i < j ∧ (t.node id).families = #[]
  nonterminal : ∀ {A i j}, (t.node id).identity = ⟨.symbol (.nonterminal A), i, j⟩ →
    ∃ ways : List (RuleId × Nat), ways.Nodup ∧
      (∀ rule k, (rule, k) ∈ ways ↔ rule ∈ p.rulesFor A ∧ p.SplitsAt tokens (p.rule rule).rhs i k j) ∧
      familyKeys t.nodes id = ways.map fun (rule, k) =>
        splitKey (p.states.completed rule (p.rule rule).rhs.length) (p.rule rule).rhs i k j
  state : ∀ {slot i j}, (t.node id).identity = ⟨.state slot, i, j⟩ →
    ∃ rule before after, p.AtDot slot rule before after ∧ 2 ≤ before.length ∧ after ≠ [] ∧
      ∃ pivots : List Nat, pivots.Nodup ∧ (∀ k, k ∈ pivots ↔ p.SplitsAt tokens before i k j) ∧
        familyKeys t.nodes id = pivots.map (splitKey slot before i · j)

variable {p : Prepared α} {tokens : Array α} {stop : Nat}

theorem Exact.hasFamily_iff (h : t.Exact p tokens stop root) (hid : id < t.size)
    (hrel : Relevant p tokens stop (t.node id).identity) {key : List Identity} :
    key ∈ familyKeys t.nodes id ↔ Way p tokens (t.node id).identity key := by
  rw [h.faithful.consistent.mem_familyKeys hid]
  exact ⟨h.faithful.way, h.complete ⟨id, hid, rfl⟩ hrel⟩

/-- Everything below the root of an exact table is in it and relevant. -/
theorem Exact.relevant (hp : p.Regular) (h : t.Exact p tokens stop root) (hreach : Reachable t.nodes [root] id) :
    id < t.size ∧ Relevant p tokens stop (t.node id).identity := by
  induction hreach with
  | root hmem =>
    obtain rfl := List.mem_singleton.mp hmem
    obtain ⟨hlt, hidentity⟩ := h.faithful.consistent.find_iff.mp h.root
    refine ⟨hlt, ?_⟩
    rw [hidentity]
    exact Within.start
  | @child id child family _ hfamily hchild ih =>
    obtain ⟨hlt, hrel⟩ := ih
    have hway := h.faithful.way ⟨id, hlt, rfl, family, hfamily, rfl⟩
    exact ⟨h.faithful.consistent.child_lt hfamily hchild, hrel.child hp hway (List.mem_map_of_mem hchild)⟩

theorem Exact.terminal_node (h : t.Exact p tokens stop root) (hid : id < t.size) {a : TerminalId} {i j : Nat}
    (hidentity : (t.node id).identity = ⟨.symbol (.terminal a), i, j⟩) :
    j = i + p.matchLength a tokens i ∧ i < j ∧ (t.node id).families = #[] := by
  have hderived := h.faithful.derived ⟨id, hid, hidentity⟩
  have hlength : j = i + p.matchLength a tokens i ∧ i < j := by
    simp only [Derived, Prepared.DerivesSpan] at hderived
    cases hderived with
    | terminal hpos hrest =>
      cases hrest
      exact ⟨rfl, Nat.lt_add_of_pos_right hpos⟩
  refine ⟨hlength.1, hlength.2, Array.eq_empty_iff_forall_not_mem.mpr fun family hfamily => ?_⟩
  have hway := h.faithful.way ⟨id, hid, hidentity, family, hfamily, rfl⟩
  cases hway

/-- Every node below the root of an exact table has exactly its ways as families. -/
theorem Exact.exactAt (hp : p.Regular) (h : t.Exact p tokens stop root) (hreach : Reachable t.nodes [root] id) :
    t.ExactAt p tokens id := by
  obtain ⟨hlt, hrel⟩ := h.relevant hp hreach
  have hderived := h.faithful.derived ⟨id, hlt, rfl⟩
  have hnodup := h.faithful.consistent.familyKeys_nodup id
  refine ⟨hlt, hderived, h.terminal_node hlt, fun {A i j} hidentity => ?_, fun {slot i j} hidentity => ?_⟩
  · have hkeys : ∀ key, key ∈ familyKeys t.nodes id ↔
        ∃ way : RuleId × Nat, (way.1 ∈ p.rulesFor A ∧ p.SplitsAt tokens (p.rule way.1).rhs i way.2 j) ∧
          splitKey (p.states.completed way.1 (p.rule way.1).rhs.length) (p.rule way.1).rhs i way.2 j = key := by
      intro key
      rw [h.hasFamily_iff hlt hrel, hidentity]
      constructor
      · intro hway
        cases hway with
        | rule hrule hsplit => exact ⟨(_, _), ⟨hrule, hsplit⟩, rfl⟩
      · rintro ⟨way, ⟨hrule, hsplit⟩, rfl⟩
        exact .rule hrule hsplit
    obtain ⟨ways, hways, hmem, heq⟩ := exists_arguments hnodup hkeys (by
      rintro ⟨rule, k⟩ ⟨rule', k'⟩ ⟨hrule, hsplit⟩ ⟨hrule', hsplit'⟩ heq
      exact Prod.ext (splitKey_rule hp hrule hrule' heq) (splitKey_pivot hsplit hsplit' heq))
    exact ⟨ways, hways, fun rule k => hmem (rule, k), heq⟩
  · rw [hidentity] at hderived
    obtain ⟨rule, before, after, hdot, htwo, hne, -⟩ := hderived
    have hkeys : ∀ key, key ∈ familyKeys t.nodes id ↔
        ∃ k, p.SplitsAt tokens before i k j ∧ splitKey slot before i k j = key := by
      intro key
      rw [h.hasFamily_iff hlt hrel, hidentity]
      constructor
      · intro hway
        cases hway with
        | part hdot' _ _ hsplit =>
          obtain ⟨rfl, rfl, rfl⟩ := hdot.unique hp hdot'
          exact ⟨_, hsplit, rfl⟩
      · rintro ⟨k, hsplit, rfl⟩
        exact .part hdot htwo hne hsplit
    exact ⟨rule, before, after, hdot, htwo, hne,
      exists_arguments hnodup hkeys fun k k' hsplit hsplit' heq => splitKey_pivot hsplit hsplit' heq⟩

end NodeTable

/-! ## The tables of runs -/

namespace Recognizer

variable [DecidableEq α]

/-- The table of a run just before it is finished, its root, and the end of the input that the root covers. -/
def unfinished? (r : Recognizer α) (input : Array α) (offset : Nat) : Option (NodeTable × NodeId × Nat) :=
  let tokens := input.extract offset input.size
  let frequency? := r.monitor.map Monitor.frequency
  match r.method with
  | .earley config =>
    let job : Earley.Job α := { grammar := r.grammar, config, tokens, offset }
    let halt := Earley.recognize job frequency?
    (halt.root? job).map fun (root, stop) => (halt.run.table, root, stop)
  | .gll config =>
    let job : Gll.Job α := { grammar := r.grammar, config, tokens }
    let run := (Gll.recognize job frequency?).2
    (Gll.acceptedEnd? config tokens.size (run.calls.ends.get (r.grammar.start, 0))).map fun stop =>
      let (root, table) := Gll.extract r.grammar run.splits stop
      (table, root, stop)

theorem forest_parseFrom [Quote α] (r : Recognizer α) (input : Array α) (offset : Nat) :
    (r.parseFrom input offset).outcome.forest = (r.unfinished? input offset).map fun (table, root, stop) =>
      Forest.finish r.grammar table [root] ((input.extract offset input.size).extract 0 stop) offset := by
  rw [outcome_parseFrom]
  obtain ⟨grammar, method, monitor⟩ := r
  cases method with
  | earley config =>
    simp only [unfinished?, Option.map_map]
    rfl
  | gll config =>
    simp only [unfinished?, Gll.parse, Option.map_map]
    rfl

/-- What a run hands over to be finished is exact, under either method and any configuration. -/
theorem unfinished?_exact (r : Recognizer α) (hp : r.grammar.Regular) (input : Array α) (offset : Nat)
    {table : NodeTable} {root : NodeId} {stop : Nat} (h : r.unfinished? input offset = some (table, root, stop)) :
    table.Exact r.grammar (input.extract offset input.size) stop root := by
  obtain ⟨grammar, method, monitor⟩ := r
  cases method with
  | earley config =>
    simp only [unfinished?, Option.map_eq_some_iff] at h
    obtain ⟨⟨root', stop'⟩, hroot, heq⟩ := h
    cases heq
    let job : Earley.Job α := { grammar, config, tokens := input.extract offset input.size, offset }
    have hfinished : (Earley.recognize job (monitor.map Monitor.frequency)).Finished job :=
      Earley.recognize_finished hp _
    exact hfinished.exact hp (Earley.Halt.startNode_of_root? hroot)
  | gll config =>
    simp only [unfinished?, Option.map_eq_some_iff] at h
    obtain ⟨stop', hend, heq⟩ := h
    cases heq
    let job : Gll.Job α := { grammar, config, tokens := input.extract offset input.size }
    have hfinished : (Gll.recognize job (monitor.map Monitor.frequency)).2.Finished job :=
      Gll.recognize_finished hp _
    obtain ⟨hmem, hstop⟩ := Gll.acceptedEnd?_spec hend
    exact hfinished.extract_exact hp hstop hmem

/-- Every node below the root of a run's forest, before it is finished, has exactly the ways to derive it as families. -/
theorem unfinished_exactAt [Quote α] (r : Recognizer α) (hp : r.grammar.Built) (input : Array α) (offset : Nat)
    {f : Forest α} (hf : (r.parseFrom input offset).outcome.forest = some f) :
    ∃ table root stop, r.unfinished? input offset = some (table, root, stop) ∧
      f = Forest.finish r.grammar table [root] ((input.extract offset input.size).extract 0 stop) offset ∧
      (table.node root).identity = ⟨.symbol (.nonterminal r.grammar.start), 0, stop⟩ ∧
      ∀ id, Reachable table.nodes [root] id → table.ExactAt r.grammar (input.extract offset input.size) id := by
  rw [forest_parseFrom, Option.map_eq_some_iff] at hf
  obtain ⟨⟨table, root, stop⟩, hunfinished, rfl⟩ := hf
  have hexact := r.unfinished?_exact hp.regular input offset hunfinished
  obtain ⟨-, hidentity⟩ := hexact.faithful.consistent.find_iff.mp hexact.root
  exact ⟨table, root, stop, hunfinished, rfl, hidentity, fun id hreach => hexact.exactAt hp.regular hreach⟩

/-- Over two letters, the start symbol of the sample is derived in exactly three ways. -/
theorem unfinished_exactAt_sample : Sample.prepared.Built ∧
    ∃ ways : List (RuleId × Nat), ways.length = 3 ∧ ways.Nodup ∧ ∀ rule k, (rule, k) ∈ ways ↔
      rule ∈ Sample.prepared.rulesFor Sample.prepared.start ∧
        Sample.prepared.SplitsAt #['a', 'a'] (Sample.prepared.rule rule).rhs 0 k 2 := by
  let r : Recognizer Char := { grammar := Sample.prepared, method := .gll {} }
  have hsome : (r.parseFrom #['a', 'a'] 0).outcome.forest.isSome = true := by decide +kernel
  obtain ⟨table, root, stop, hunfinished, -, hidentity, hexact⟩ :=
    unfinished_exactAt r Sample.prepared_built #['a', 'a'] 0 (Option.some_get hsome).symm
  have hread : (r.unfinished? #['a', 'a'] 0).map (fun (table, root, stop) =>
      (stop, (table.node root).families.size)) = some (2, 3) := by decide +kernel
  rw [hunfinished, Option.map_some, Option.some.injEq, Prod.mk.injEq] at hread
  obtain ⟨rfl, hsize⟩ := hread
  obtain ⟨ways, hnodup, hways, hfamilies⟩ := (hexact root (.root List.mem_cons_self)).nonterminal hidentity
  refine ⟨Sample.prepared_built, ways, ?_, hnodup, hways⟩
  have hlength := congrArg List.length hfamilies
  rw [familyKeys, List.length_map, List.length_map, Array.length_toList] at hlength
  exact hlength.symm.trans hsize

end Recognizer
end ContextFree
