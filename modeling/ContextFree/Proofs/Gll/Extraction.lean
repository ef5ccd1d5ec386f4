-- SUMMARY: Expanding the recorded splits from the root downwards gives an exact table.
import ContextFree.Gll.Extraction
import ContextFree.Proofs.Gll.Recognition

/-!
# Extraction

A node that is created is pending until it is expanded, unless it is a terminal. Expanding it gives it one family per
split. There are no more such nodes than states with an extent, so in the end every node is expanded.
-/
namespace ContextFree.Gll.Extraction

variable {α : Type} {p : Prepared α} {x x' x'' : Extraction} {identity : Identity} {slot : StateId} {id : RuleId}
  {before after : List Symbol} {i k j stop : Nat}

/-! ## Growing -/

/-- The nodes that are not terminals. -/
def inner (t : NodeTable) : Finset Nat :=
  (Finset.range t.size).filter fun id => (t.node id).identity.label.isTerminal = false

/-- A later extraction has the nodes and families of an earlier one. Its new inner nodes are pending, and take one place in
both lists. -/
structure Grows (x x' : Extraction) : Prop where
  table : x.table.Extends x'.table
  pending : ∀ id ∈ x.pending, id ∈ x'.pending
  queued : ∀ id ∈ inner x'.table, id < x.table.size ∨ id ∈ x'.pending
  balance : (inner x'.table).card + x.pending.length = (inner x.table).card + x'.pending.length

theorem Grows.refl (x : Extraction) : Grows x x :=
  ⟨.refl _, fun _ h => h, fun _ h => .inl (Finset.mem_range.mp (Finset.mem_filter.mp h).1), rfl⟩

theorem Grows.trans (h : Grows x x') (h' : Grows x' x'') : Grows x x'' where
  table := h.table.trans h'.table
  pending id hid := h'.pending id (h.pending id hid)
  queued id hid := by
    rcases h'.queued id hid with hlt | hpending
    · have hinner : id ∈ inner x'.table := by
        refine Finset.mem_filter.mpr ⟨Finset.mem_range.mpr hlt, ?_⟩
        rw [← h'.table.identity_eq hlt]
        exact (Finset.mem_filter.mp hid).2
      exact (h.queued id hinner).imp (fun h => h) (h'.pending id)
    · exact .inr hpending
  balance := by
    have := h.balance
    have := h'.balance
    omega

theorem inner_congr {t t' : NodeTable} (hsize : t'.size = t.size)
    (hidentity : ∀ id : Nat, (t'.node id).identity = (t.node id).identity) : inner t' = inner t := by
  simp only [inner, hsize, hidentity]

theorem inner_of_push {t t' : NodeTable} (hsize : t'.size = t.size + 1) (hextends : t.Extends t') :
    inner t' = if (t'.node t.size).identity.label.isTerminal = false then insert t.size (inner t) else inner t := by
  have hold : ∀ id ∈ Finset.range t.size, ((t'.node id).identity.label.isTerminal = false ↔
      (t.node id).identity.label.isTerminal = false) := by
    intro id hid
    rw [hextends.identity_eq (Finset.mem_range.mp hid)]
  rw [inner, hsize, Finset.range_add_one, Finset.filter_insert, Finset.filter_congr hold, inner]

theorem addFamily_grows (x : Extraction) (parent : Nat) (family : Family)
    (hextends : x.table.Extends (x.table.addFamily parent family)) : Grows x (x.addFamily parent family) := by
  have hinner : inner (x.addFamily parent family).table = inner x.table :=
    inner_congr (NodeTable.size_addFamily _ _ _) fun id => NodeTable.identity_addFamily _ _ _ _
  refine ⟨hextends, fun _ h => h, fun id hid => ?_, by rw [hinner]; rfl⟩
  rw [hinner] at hid
  exact .inl (Finset.mem_range.mp (Finset.mem_filter.mp hid).1)

/-- Asking for a node adds its identity, and a new inner node is pending. -/
theorem child_spec (hx : x.table.Consistent) (identity : Identity) :
    NodeTable.Adds x.table (x.child identity).2.table (· = identity) (fun _ _ => False) ∧
      Grows x (x.child identity).2 ∧ (x.child identity).1 < (x.child identity).2.table.size ∧
      ((x.child identity).2.table.node (x.child identity).1).identity = identity := by
  have hadds := NodeTable.intern_adds hx identity
  have hnode := NodeTable.intern_node hx identity
  cases hfind : x.table.find? identity with
  | some id =>
    rw [NodeTable.intern_of_some hfind] at hadds hnode
    simp only [child, hfind]
    exact ⟨hadds, .refl x, hnode⟩
  | none =>
    have hsize : (x.table.intern identity).2.size = x.table.size + 1 := by
      rw [NodeTable.intern_of_none hfind]
      simp [NodeTable.size]
    have hid : (x.table.intern identity).1 = x.table.size := by rw [NodeTable.intern_of_none hfind]
    simp only [child, hfind]
    refine ⟨hadds, ?_, hnode⟩
    generalize x.table.intern identity = made at hadds hnode hsize hid
    have hinner := inner_of_push hsize hadds.extension
    rw [← hid, hnode.2] at hinner
    cases hterminal : identity.label.isTerminal with
    | true =>
      rw [hterminal, if_neg (by simp)] at hinner
      refine ⟨hadds.extension, fun _ h => h, fun _ h => ?_, by rw [hinner]; rfl⟩
      rw [hinner] at h
      exact .inl (Finset.mem_range.mp (Finset.mem_filter.mp h).1)
    | false =>
      rw [hterminal, if_pos rfl] at hinner
      have hnew : made.1 ∉ inner x.table := by simp [inner, hid]
      refine ⟨hadds.extension, fun _ h => List.mem_cons_of_mem _ h, fun id h => ?_, ?_⟩
      · rw [hinner] at h
        rcases Finset.mem_insert.mp h with rfl | hold
        · exact .inr List.mem_cons_self
        · exact .inl (Finset.mem_range.mp (Finset.mem_filter.mp hold).1)
      · rw [hinner, Finset.card_insert_of_notMem hnew]
        simp only [Bool.false_eq_true, if_false, List.length_cons]
        omega

theorem mem_pending_child {id : Nat} (h : id ∈ (x.child identity).2.pending) :
    id ∈ x.pending ∨ id = (x.child identity).1 := by
  simp only [child] at h ⊢
  cases hfind : x.table.find? identity with
  | some _ =>
    rw [hfind] at h
    exact .inl h
  | none =>
    rw [hfind] at h
    dsimp only at h
    split at h
    · exact .inl h
    · exact (List.mem_cons.mp h).symm

/-! ## Packing a split -/

theorem pack_of_nothing (hp : p.Regular) (hdot : p.AtDot slot id [] after) (parent : Nat) :
    x.pack p parent slot i k j = x.addFamily parent .nothing := by
  simp [pack, hdot.previous_eq hp]

theorem pack_of_single (hp : p.Regular) {symbol : Symbol} (hdot : p.AtDot slot id [symbol] after) (parent : Nat) :
    x.pack p parent slot i k j =
      let right := x.child ⟨.symbol symbol, k, j⟩
      right.2.addFamily parent (.unary right.1) := by
  simp [pack, hdot.previous_eq hp, hdot.dot_eq hp]

theorem pack_of_longer (hp : p.Regular) {symbol : Symbol} (hdot : p.AtDot (slot + 1) id (before ++ [symbol]) after)
    (hne : before ≠ []) (parent : Nat) :
    x.pack p parent (slot + 1) i k j =
      let right := x.child ⟨.symbol symbol, k, j⟩
      let left := right.2.child ⟨partLabel slot before, i, k⟩
      left.2.addFamily parent (.binary left.1 right.1) := by
  have hprevious : (p.state (slot + 1)).previous = some symbol :=
    (hdot.previous_eq hp).trans List.getLast?_concat
  match before, hne with
  | [first], _ => simp [pack, hprevious, hdot.dot_eq hp, hdot.rule_eq hp, hdot.rhs_eq, partLabel]
  | _ :: _ :: _, _ => simp [pack, hprevious, hdot.dot_eq hp, hdot.retreat_eq hp, partLabel]

/-- The node has a family for each recorded split. -/
def Expanded (p : Prepared α) (splits : Splits) (t : NodeTable) (x : Identity) : Prop :=
  ∀ ⦃slot id before after i k j⦄, p.AtDot slot id before after → id ∈ p.rulesFor (p.rule id).lhs →
    HasOwnNode before after → x = partIdentity p slot id before after i j → k ∈ splits.get (slot, i, j) →
    t.HasFamily x (splitKey slot before i k j)

theorem Expanded.mono {splits : Splits} {t t' : NodeTable} (h : Expanded p splits t identity) (ht : t.Consistent)
    (hextends : t.Extends t') : Expanded p splits t' identity :=
  fun _ _ _ _ _ _ _ hdot hid hown heq hk => hextends.hasFamily ht (h hdot hid hown heq hk)

theorem expanded_of_terminal (splits : Splits) (t : NodeTable) (h : identity.label.isTerminal = true) :
    Expanded p splits t identity := by
  intro slot id before after i k j _ _ hown heq
  rcases hown.identity_cases p slot id i j with ⟨-, hidentity⟩ | ⟨-, -, hidentity⟩
  · simp [heq, hidentity, Label.isTerminal, Symbol.isTerminal] at h
  · simp [heq, hidentity, Label.isTerminal] at h

variable [DecidableEq α] {tokens : Array α}

/-- Everything in the table is derived and ends at `stop` at the latest, and what is pending is in the table. -/
structure Proper (p : Prepared α) (tokens : Array α) (stop : Nat) (x : Extraction) : Prop where
  faithful : x.table.Faithful p tokens
  right_le : ∀ {y}, x.table.Has y → y.right ≤ stop
  pending_lt : ∀ id ∈ x.pending, id < x.table.size

theorem Proper.child (hx : x.Proper p tokens stop) (hderived : Derived p tokens identity)
    (hright : identity.right ≤ stop) : (x.child identity).2.Proper p tokens stop := by
  obtain ⟨hadds, -, hlt, -⟩ := child_spec hx.faithful.consistent identity
  refine ⟨hx.faithful.adds hadds (fun y hy => hy ▸ hderived) fun _ _ h => h.elim, fun hy => ?_, fun id hid => ?_⟩
  · rcases hadds.has.mp hy with hold | rfl
    · exact hx.right_le hold
    · exact hright
  · rcases mem_pending_child hid with hold | rfl
    · exact Nat.lt_of_lt_of_le (hx.pending_lt id hold) hadds.extension.size_le
    · exact hlt

/-- Adding a family to a node that was there before its children were asked for. -/
theorem Proper.addFamily (hx : x'.Proper p tokens stop) (hgrows : Grows x x') {parent : Nat} (hlt : parent < x.table.size)
    (hparent : (x.table.node parent).identity = identity) {family : Family} {key : List Identity}
    (hchildren : ∀ child ∈ family.children, child < x'.table.size)
    (hkey : Order.familyKey x'.table.nodes family = key) (hway : Way p tokens identity key) :
    (x'.addFamily parent family).Proper p tokens stop ∧ Grows x (x'.addFamily parent family) ∧
      (x'.addFamily parent family).table.HasFamily identity key := by
  have hlt' := Nat.lt_of_lt_of_le hlt hgrows.table.size_le
  have hadds := NodeTable.addFamily_adds hx.faithful.consistent hlt' hchildren
  rw [hgrows.table.identity_eq hlt, hparent, hkey] at hadds
  refine ⟨⟨hx.faithful.adds hadds (fun _ h => h.elim) ?_, fun hy => ?_, fun id hid => ?_⟩,
    hgrows.trans (addFamily_grows x' parent family hadds.extension), hadds.hasFamily.mpr (.inr ⟨rfl, rfl⟩)⟩
  · rintro y key ⟨rfl, rfl⟩
    exact hway
  · exact hx.right_le ((hadds.has.mp hy).resolve_right fun h => h)
  · exact Nat.lt_of_lt_of_le (hx.pending_lt id hid) hadds.extension.size_le

/-- A single symbol before the dot is the only child. -/
theorem Proper.pack_single (hp : p.Regular) (hx : x.Proper p tokens stop) {parent : Nat} (hlt : parent < x.table.size)
    {symbol : Symbol} (hdot : p.AtDot slot id [symbol] after)
    (hparent : (x.table.node parent).identity = identity) (hsymbol : p.DerivesSpan tokens [symbol] k j) (hj : j ≤ stop)
    (hway : Way p tokens identity [⟨.symbol symbol, k, j⟩]) :
    (x.pack p parent slot i k j).Proper p tokens stop ∧ Grows x (x.pack p parent slot i k j) ∧
      (x.pack p parent slot i k j).table.HasFamily identity [⟨.symbol symbol, k, j⟩] := by
  have hderived : Derived p tokens ⟨.symbol symbol, k, j⟩ := hsymbol
  obtain ⟨-, hgrows, hrightLt, hrightId⟩ := child_spec hx.faithful.consistent ⟨.symbol symbol, k, j⟩
  have hright := hx.child hderived hj
  rw [pack_of_single hp hdot]
  generalize x.child ⟨.symbol symbol, k, j⟩ = right at hgrows hrightLt hrightId hright
  refine hright.addFamily hgrows hlt hparent (by simpa [Family.children] using hrightLt) ?_ hway
  simp [NodeTable.familyKey_eq, Family.children, hrightId]

/-- Otherwise the last symbol is the right child, and what stands before it the left one. -/
theorem Proper.pack_longer (hp : p.Regular) (hx : x.Proper p tokens stop) {parent : Nat} (hlt : parent < x.table.size)
    {symbol : Symbol} (hdot : p.AtDot slot id before (symbol :: after)) (hne : before ≠ [])
    (hparent : (x.table.node parent).identity = identity) (hbefore : p.DerivesSpan tokens before i k)
    (hsymbol : p.DerivesSpan tokens [symbol] k j) (hj : j ≤ stop)
    (hway : Way p tokens identity [⟨partLabel slot before, i, k⟩, ⟨.symbol symbol, k, j⟩]) :
    (x.pack p parent (slot + 1) i k j).Proper p tokens stop ∧ Grows x (x.pack p parent (slot + 1) i k j) ∧
      (x.pack p parent (slot + 1) i k j).table.HasFamily identity
        [⟨partLabel slot before, i, k⟩, ⟨.symbol symbol, k, j⟩] := by
  have hderived : Derived p tokens ⟨.symbol symbol, k, j⟩ := hsymbol
  obtain ⟨-, hgrows, hrightLt, hrightId⟩ := child_spec hx.faithful.consistent ⟨.symbol symbol, k, j⟩
  have hright := hx.child hderived hj
  rw [pack_of_longer hp hdot.step hne]
  dsimp only
  generalize x.child ⟨.symbol symbol, k, j⟩ = right at hgrows hrightLt hrightId hright
  have hderived : Derived p tokens ⟨partLabel slot before, i, k⟩ :=
    derived_partLabel hdot hne (List.cons_ne_nil symbol after) hbefore
  obtain ⟨-, hgrows', hleftLt, hleftId⟩ := child_spec hright.faithful.consistent ⟨partLabel slot before, i, k⟩
  have hleft := hright.child hderived (Nat.le_trans hsymbol.le hj)
  generalize right.2.child ⟨partLabel slot before, i, k⟩ = left at hgrows' hleftLt hleftId hleft
  refine hleft.addFamily (hgrows.trans hgrows') hlt hparent ?_ ?_ hway
  · simpa [Family.children] using ⟨hleftLt, Nat.lt_of_lt_of_le hrightLt hgrows'.table.size_le⟩
  · simp [NodeTable.familyKey_eq, Family.children, hleftId, hgrows'.table.identity_eq hrightLt, hrightId]

/-- Packing a split adds its family to the parent. -/
theorem Proper.pack (hp : p.Regular) (hx : x.Proper p tokens stop) {parent : Nat} (hlt : parent < x.table.size)
    (hdot : p.AtDot slot id before after) (hid : id ∈ p.rulesFor (p.rule id).lhs) (hown : HasOwnNode before after)
    (hparent : (x.table.node parent).identity = partIdentity p slot id before after i j)
    (hsplit : p.SplitsAt tokens before i k j) :
    (x.pack p parent slot i k j).Proper p tokens stop ∧ Grows x (x.pack p parent slot i k j) ∧
      (x.pack p parent slot i k j).table.HasFamily (partIdentity p slot id before after i j)
        (splitKey slot before i k j) := by
  have hway := Way.of_atDot hdot hid hown hsplit
  have hj : j ≤ stop := by
    have hright := hx.right_le ⟨parent, hlt, hparent⟩
    cases after with
    | nil => exact hright
    | cons next after => exact hright
  cases hsplit with
  | nothing =>
    rw [pack_of_nothing hp hdot]
    exact hx.addFamily (.refl x) hlt hparent (by simp [Family.children]) rfl hway
  | @last before symbol _ _ _ hbefore hsymbol =>
    cases before with
    | nil => exact hx.pack_single hp hlt hdot hparent hsymbol hj hway
    | cons first before =>
      have hne := List.cons_ne_nil first before
      have hprevious : p.AtDot (p.states.initial id + (first :: before).length) id (first :: before) (symbol :: after) :=
        ⟨hdot.lt, rfl, by rw [hdot.rhs_eq, List.append_assoc, List.singleton_append]⟩
      obtain rfl : slot = p.states.initial id + (first :: before).length + 1 :=
        hdot.slot_eq.trans (by simp [Nat.add_assoc])
      rw [splitKey_append hne] at hway ⊢
      exact hx.pack_longer hp hlt hprevious hne hparent hbefore hsymbol hj hway

/-! ## Expanding a node -/

/-- Recorded splits are splits. -/
def SoundSplits (p : Prepared α) (tokens : Array α) (splits : Splits) : Prop :=
  ∀ ⦃slot i j k⦄, k ∈ splits.get (slot, i, j) → ∃ id before after, p.AtDot slot id before after ∧
    id ∈ p.rulesFor (p.rule id).lhs ∧ HasOwnNode before after ∧ p.SplitsAt tokens before i k j

theorem Proper.packAll (hp : p.Regular) {splits : Splits} (hsplits : SoundSplits p tokens splits)
    (hx : x.Proper p tokens stop) {parent : Nat} (hlt : parent < x.table.size) (hdot : p.AtDot slot id before after)
    (hparent : (x.table.node parent).identity = partIdentity p slot id before after i j) :
    (x.packAll p splits parent slot i j).Proper p tokens stop ∧ Grows x (x.packAll p splits parent slot i j) ∧
      ∀ k ∈ splits.get (slot, i, j), (x.packAll p splits parent slot i j).table.HasFamily
        (partIdentity p slot id before after i j) (splitKey slot before i k j) := by
  have hvisit : ∀ y : Extraction, ∀ k ∈ (splits.get (slot, i, j)).toList,
      (y.Proper p tokens stop ∧ x.table.Extends y.table) →
      ((y.pack p parent slot i k j).Proper p tokens stop ∧ x.table.Extends (y.pack p parent slot i k j).table) ∧
        Grows y (y.pack p parent slot i k j) ∧
        (y.pack p parent slot i k j).table.HasFamily (partIdentity p slot id before after i j)
          (splitKey slot before i k j) := by
    rintro y k hk ⟨hy, hextends⟩
    obtain ⟨id', before', after', hdot', hid, hown, hsplit⟩ := hsplits (Array.mem_toList_iff.mp hk)
    obtain ⟨rfl, rfl, rfl⟩ := hdot.unique hp hdot'
    obtain ⟨hproper, hgrows, hfamily⟩ := hy.pack hp (Nat.lt_of_lt_of_le hlt hextends.size_le) hdot hid hown
      ((hextends.identity_eq hlt).trans hparent) hsplit
    exact ⟨⟨hproper, hextends.trans hgrows.table⟩, hgrows, hfamily⟩
  obtain ⟨⟨hproper, -⟩, hgrows, hfamilies⟩ := foldl_visits Grows.refl Grows.trans
    (P := fun y : Extraction => y.Proper p tokens stop ∧ x.table.Extends y.table)
    (Q := fun k y => y.table.HasFamily (partIdentity p slot id before after i j) (splitKey slot before i k j))
    hvisit (fun y y' k hy hgrows hfamily => hgrows.table.hasFamily hy.1.faithful.consistent hfamily) ⟨hx, .refl _⟩
  rw [Array.foldl_toList] at hproper hgrows hfamilies
  exact ⟨hproper, hgrows, fun k hk => hfamilies k (Array.mem_toList_iff.mpr hk)⟩

/-- Packing the splits of all rules of a nonterminal. -/
theorem Proper.packRules (hp : p.Regular) {splits : Splits} (hsplits : SoundSplits p tokens splits)
    (hx : x.Proper p tokens stop) {parent : Nat} (hlt : parent < x.table.size) {A : Nonterminal}
    (hparent : (x.table.node parent).identity = ⟨.symbol (.nonterminal A), i, j⟩) {x' : Extraction}
    (hx' : (p.rulesFor A).foldl (fun x id =>
      x.packAll p splits parent (p.states.completed id (p.rule id).rhs.length) i j) x = x') :
    x'.Proper p tokens stop ∧ Grows x x' ∧
      ∀ id ∈ p.rulesFor A, ∀ k ∈ splits.get (p.states.completed id (p.rule id).rhs.length, i, j),
        x'.table.HasFamily ⟨.symbol (.nonterminal A), i, j⟩
          (splitKey (p.states.completed id (p.rule id).rhs.length) (p.rule id).rhs i k j) := by
  have hvisit : ∀ y : Extraction, ∀ id ∈ (p.rulesFor A).toList, (y.Proper p tokens stop ∧ x.table.Extends y.table) →
      let y' := y.packAll p splits parent (p.states.completed id (p.rule id).rhs.length) i j
      (y'.Proper p tokens stop ∧ x.table.Extends y'.table) ∧ Grows y y' ∧
        ∀ k ∈ splits.get (p.states.completed id (p.rule id).rhs.length, i, j),
          y'.table.HasFamily ⟨.symbol (.nonterminal A), i, j⟩
            (splitKey (p.states.completed id (p.rule id).rhs.length) (p.rule id).rhs i k j) := by
    rintro y id hid ⟨hy, hextends⟩
    obtain ⟨hrule, -, rfl⟩ := hp.mem_rulesFor.mp (Array.mem_toList_iff.mp hid)
    obtain ⟨hproper, hgrows, hfamilies⟩ := hy.packAll hp hsplits (Nat.lt_of_lt_of_le hlt hextends.size_le)
      (Prepared.atDot_completed hrule) ((hextends.identity_eq hlt).trans hparent)
    exact ⟨⟨hproper, hextends.trans hgrows.table⟩, hgrows, hfamilies⟩
  obtain ⟨⟨hproper, -⟩, hgrows, hfamilies⟩ := foldl_visits Grows.refl Grows.trans
    (P := fun y : Extraction => y.Proper p tokens stop ∧ x.table.Extends y.table)
    (Q := fun id y => ∀ k ∈ splits.get (p.states.completed id (p.rule id).rhs.length, i, j),
      y.table.HasFamily ⟨.symbol (.nonterminal A), i, j⟩
        (splitKey (p.states.completed id (p.rule id).rhs.length) (p.rule id).rhs i k j))
    hvisit (fun y y' id hy hgrows hfamily k hk => hgrows.table.hasFamily hy.1.faithful.consistent (hfamily k hk))
    ⟨hx, .refl _⟩
  rw [Array.foldl_toList, hx'] at hproper hgrows hfamilies
  exact ⟨hproper, hgrows, fun id hid => hfamilies id (Array.mem_toList_iff.mpr hid)⟩

/-- Expanding a node gives it a family for each recorded split. -/
theorem Proper.expand (hp : p.Regular) {splits : Splits} (hsplits : SoundSplits p tokens splits)
    (hx : x.Proper p tokens stop) {parent : Nat} (hlt : parent < x.table.size) :
    (x.expand p splits parent).Proper p tokens stop ∧ Grows x (x.expand p splits parent) ∧
      Expanded p splits (x.expand p splits parent).table (x.table.node parent).identity := by
  have hderived := hx.faithful.derived ⟨parent, hlt, rfl⟩
  unfold Extraction.expand
  generalize hparent : (x.table.node parent).identity = identity at hderived
  obtain ⟨label, left, right⟩ := identity
  match label with
  | .symbol (.terminal t) => exact ⟨hx, .refl x, expanded_of_terminal splits _ rfl⟩
  | .state slot =>
    obtain ⟨id, before, after, hdot, htwo, hne, -⟩ := hderived
    have hidentity : partIdentity p slot id before after left right = ⟨.state slot, left, right⟩ := by
      have hown : HasOwnNode before after := .inr htwo
      rcases hown.identity_cases p slot id left right with ⟨hnil, -⟩ | ⟨-, -, hidentity⟩
      · exact absurd hnil hne
      · exact hidentity
    obtain ⟨hproper, hgrows, hfamilies⟩ := hx.packAll hp hsplits hlt hdot (hparent.trans hidentity.symm)
    rw [hidentity] at hfamilies
    refine ⟨hproper, hgrows, ?_⟩
    intro slot' id' before' after' i k j hdot' _ hown heq hk
    rcases hown.identity_cases p slot' id' i j with ⟨-, hidentity'⟩ | ⟨-, -, hidentity'⟩
    · simp [hidentity'] at heq
    · rw [hidentity'] at heq
      cases heq
      obtain ⟨-, rfl, -⟩ := hdot.unique hp hdot'
      exact hfamilies k hk
  | .symbol (.nonterminal A) =>
    obtain ⟨hproper, hgrows, hfamilies⟩ := hx.packRules hp hsplits hlt hparent rfl
    refine ⟨hproper, hgrows, ?_⟩
    intro slot id before after i k j hdot hid hown heq hk
    rcases hown.identity_cases p slot id i j with ⟨rfl, hidentity⟩ | ⟨-, -, hidentity⟩
    · rw [hidentity] at heq
      cases heq
      have hrhs : (p.rule id).rhs = before := by rw [hdot.rhs_eq, List.append_nil]
      have hslot : slot = p.states.completed id (p.rule id).rhs.length := by rw [hrhs, hdot.slot_eq]; rfl
      rw [hslot] at hk ⊢
      rw [← hrhs]
      exact hfamilies id hid k hk
    · simp [hidentity] at heq

/-! ## Expanding all nodes -/

/-- Every node that is not pending has been expanded. -/
structure Extracting (p : Prepared α) (tokens : Array α) (splits : Splits) (stop : Nat) (x : Extraction) : Prop
    extends Proper p tokens stop x where
  expanded : ∀ id < x.table.size, id ∉ x.pending → Expanded p splits x.table (x.table.node id).identity

/-- One step expands one node, and the nodes that it creates are pending. -/
theorem Extracting.step (hp : p.Regular) {splits : Splits} (hsplits : SoundSplits p tokens splits)
    {pending : List NodeId} {parent : Nat} (h : x.Extracting p tokens splits stop)
    (hpending : x.pending = parent :: pending) :
    (expand p splits parent ⟨x.table, pending⟩).Extracting p tokens splits stop ∧
      Grows ⟨x.table, pending⟩ (expand p splits parent ⟨x.table, pending⟩) := by
  have hlt : parent < x.table.size := h.pending_lt parent (hpending ▸ List.mem_cons_self)
  have htaken : Proper p tokens stop ⟨x.table, pending⟩ :=
    ⟨h.faithful, h.right_le, fun id hid => h.pending_lt id (hpending ▸ List.mem_cons_of_mem parent hid)⟩
  obtain ⟨hproper, hgrows, hexpanded⟩ := htaken.expand hp hsplits hlt
  refine ⟨⟨hproper, fun id hid hnot => ?_⟩, hgrows⟩
  rcases Nat.lt_or_ge id x.table.size with hold | hnew
  · rw [hgrows.table.identity_eq hold]
    by_cases heq : id = parent
    · rw [heq]
      exact hexpanded
    · have hdone : id ∉ x.pending := by
        rw [hpending, List.mem_cons, not_or]
        exact ⟨heq, fun hin => hnot (hgrows.pending id hin)⟩
      exact (h.expanded id hold hdone).mono h.faithful.consistent hgrows.table
  · -- a node that is new and not pending is a terminal
    apply expanded_of_terminal splits _
    by_contra hinner
    have hmem : id ∈ inner (expand p splits parent ⟨x.table, pending⟩).table :=
      Finset.mem_filter.mpr ⟨Finset.mem_range.mpr hid, by simpa using hinner⟩
    rcases hgrows.queued id hmem with hlt | hin
    · exact absurd hlt (Nat.not_lt_of_le hnew)
    · exact hnot hin

/-! ## The number of nodes -/

/-- A state that stands for the label of an inner node: the first one of a rule for a nonterminal. -/
def labelState (p : Prepared α) : Label → StateId
  | .symbol (.nonterminal A) => p.states.initial ((p.rulesFor A).getD 0 0)
  | .symbol (.terminal _)    => 0
  | .state slot              => slot

/-- Where the state stands in its rule. -/
theorem atDot_labelState (hp : p.Regular) (h : Derived p tokens identity) (hinner : identity.label.isTerminal = false) :
    (∃ A id, identity.label = .symbol (.nonterminal A) ∧ id ∈ p.rulesFor A ∧
        p.AtDot (labelState p identity.label) id [] (p.rule id).rhs) ∨
      ∃ slot id before after, identity.label = .state slot ∧ 2 ≤ before.length ∧
        p.AtDot (labelState p identity.label) id before after := by
  obtain ⟨label, left, right⟩ := identity
  match label with
  | .symbol (.terminal t) => cases hinner
  | .state slot =>
    obtain ⟨id, before, after, hdot, htwo, -⟩ := h
    exact .inr ⟨slot, id, before, after, rfl, htwo, hdot⟩
  | .symbol (.nonterminal A) =>
    have hderives : p.DerivesSpan tokens [.nonterminal A] left right := h
    obtain ⟨id, hid, -⟩ := hderives.exists_rule hp
    have hpos : 0 < (p.rulesFor A).size := Array.size_pos_of_mem hid
    have hfirst : (p.rulesFor A).getD 0 0 ∈ p.rulesFor A := by
      rw [Array.getD_eq_getD_getElem?, Array.getElem?_eq_getElem hpos]
      exact Array.getElem_mem hpos
    exact .inl ⟨A, _, rfl, hfirst, Prepared.atDot_initial (hp.mem_rulesFor.mp hfirst).1⟩

theorem labelState_injective (hp : p.Regular) {identity' : Identity} (h : Derived p tokens identity)
    (h' : Derived p tokens identity') (hinner : identity.label.isTerminal = false)
    (hinner' : identity'.label.isTerminal = false)
    (heq : labelState p identity.label = labelState p identity'.label) : identity.label = identity'.label := by
  rcases atDot_labelState hp h hinner with ⟨A, id, hlabel, hid, hdot⟩ | ⟨slot, id, before, after, hlabel, htwo, hdot⟩
  · rcases atDot_labelState hp h' hinner' with ⟨A', id', hlabel', hid', hdot'⟩ | ⟨_, _, _, _, _, htwo', hdot'⟩
    · rw [heq] at hdot
      obtain ⟨rfl, -, -⟩ := hdot.unique hp hdot'
      obtain ⟨-, -, rfl⟩ := hp.mem_rulesFor.mp hid
      obtain ⟨-, -, rfl⟩ := hp.mem_rulesFor.mp hid'
      exact hlabel.trans hlabel'.symm
    · rw [heq] at hdot
      obtain ⟨-, rfl, -⟩ := hdot.unique hp hdot'
      cases htwo'
  · rcases atDot_labelState hp h' hinner' with ⟨_, _, _, _, hdot'⟩ | ⟨slot', _, _, _, hlabel', _, hdot'⟩
    · rw [heq] at hdot
      obtain ⟨-, rfl, -⟩ := hdot.unique hp hdot'
      cases htwo
    · rw [hlabel, hlabel'] at heq ⊢
      exact congrArg Label.state heq

/-- There are no more inner nodes than states with an extent. -/
theorem Proper.card_inner_le (hp : p.Regular) (hx : x.Proper p tokens stop) :
    (inner x.table).card ≤ expansionBound p stop := by
  have hinner : ∀ id ∈ inner x.table, id < x.table.size ∧ Derived p tokens (x.table.node id).identity ∧
      (x.table.node id).identity.label.isTerminal = false := by
    intro id hid
    obtain ⟨hrange, hlabel⟩ := Finset.mem_filter.mp hid
    have hlt := Finset.mem_range.mp hrange
    exact ⟨hlt, hx.faithful.derived ⟨id, hlt, rfl⟩, hlabel⟩
  let place (id : Nat) : StateId × Nat × Nat :=
    (labelState p (x.table.node id).identity.label, (x.table.node id).identity.left, (x.table.node id).identity.right)
  have hmaps : ∀ id ∈ inner x.table, place id ∈ Finset.range p.states.size ×ˢ extents stop := by
    intro id hid
    obtain ⟨hlt, hderived, hlabel⟩ := hinner id hid
    have hstate : labelState p (x.table.node id).identity.label < p.states.size := by
      rcases atDot_labelState hp hderived hlabel with ⟨_, _, _, _, hdot⟩ | ⟨_, _, _, _, _, _, hdot⟩
      · exact hdot.lt_size hp
      · exact hdot.lt_size hp
    exact Finset.mem_product.mpr ⟨Finset.mem_range.mpr hstate,
      mem_extents hderived.le (hx.right_le ⟨id, hlt, rfl⟩)⟩
  have hinjective : Set.InjOn place (inner x.table) := by
    intro id hid id' hid' heq
    obtain ⟨hlt, hderived, hlabel⟩ := hinner id hid
    obtain ⟨hlt', hderived', hlabel'⟩ := hinner id' hid'
    simp only [place, Prod.mk.injEq] at heq
    obtain ⟨hstate, hleft, hright⟩ := heq
    have hsame := labelState_injective hp hderived hderived' hlabel hlabel' hstate
    apply hx.faithful.consistent.identity_injective hlt hlt'
    cases hx : (x.table.node id).identity
    cases hy : (x.table.node id').identity
    simp_all
  calc (inner x.table).card
      ≤ (Finset.range p.states.size ×ˢ extents stop).card := Finset.card_le_card_of_injOn place hmaps hinjective
    _ = p.states.size * (extents stop).card := by rw [Finset.card_product, Finset.card_range]
    _ ≤ (p.grammar.names.size + p.states.size) * ((stop + 1) * (stop + 2) / 2) :=
      Nat.mul_le_mul (Nat.le_add_left _ _) (card_extents_le stop)

theorem Extracting.drain (hp : p.Regular) {splits : Splits} (hsplits : SoundSplits p tokens splits) (fuel : Nat)
    (h : x.Extracting p tokens splits stop)
    (hfuel : expansionBound p stop + x.pending.length ≤ fuel + (inner x.table).card) :
    (x.drain p splits fuel).Extracting p tokens splits stop ∧ x.table.Extends (x.drain p splits fuel).table ∧
      (x.drain p splits fuel).pending = [] := by
  induction fuel generalizing x with
  | zero =>
    have hle := h.card_inner_le hp
    have hnone : x.pending.length = 0 := by omega
    exact ⟨h, .refl _, List.length_eq_zero_iff.mp hnone⟩
  | succ fuel ih =>
    cases hpending : x.pending with
    | nil =>
      have hdone : x.drain p splits (fuel + 1) = x := by
        cases x
        cases hpending
        rfl
      rw [hdone]
      exact ⟨h, .refl _, hpending⟩
    | cons parent pending =>
      have hdrain : x.drain p splits (fuel + 1) = (expand p splits parent ⟨x.table, pending⟩).drain p splits fuel := by
        cases x
        cases hpending
        rfl
      obtain ⟨hstep, hgrows⟩ := h.step hp hsplits hpending
      have hbalance := hgrows.balance
      rw [hpending, List.length_cons] at hfuel
      dsimp only at hbalance
      obtain ⟨hlast, hextends, hnone⟩ := ih hstep (by omega)
      rw [hdrain]
      exact ⟨hlast, hgrows.table.trans hextends, hnone⟩

theorem extracting_root (splits : Splits) (hderives : p.DerivesSpan tokens [.nonterminal p.start] 0 stop) :
    ((child ⟨.symbol (.nonterminal p.start), 0, stop⟩ {}).2.Extracting p tokens splits stop) ∧
      (inner (child ⟨.symbol (.nonterminal p.start), 0, stop⟩ {}).2.table).card =
        (child ⟨.symbol (.nonterminal p.start), 0, stop⟩ {}).2.pending.length := by
  have hempty : ∀ {y}, ¬ ({} : NodeTable).Has y := fun ⟨id, hid, _⟩ => Nat.not_lt_zero id hid
  have hproper : Proper p tokens stop {} :=
    ⟨⟨NodeTable.consistent_empty, fun h => absurd h hempty, fun h => absurd h.has hempty⟩, fun h => absurd h hempty,
      by simp⟩
  have hderived : Derived p tokens ⟨.symbol (.nonterminal p.start), 0, stop⟩ := hderives
  have hroot := hproper.child hderived (Nat.le_refl stop)
  obtain ⟨-, hgrows, -⟩ := child_spec hproper.faithful.consistent ⟨.symbol (.nonterminal p.start), 0, stop⟩
  refine ⟨⟨hroot, fun id hid hnot => expanded_of_terminal splits _ ?_⟩, ?_⟩
  · by_contra hinner
    rcases hgrows.queued id (Finset.mem_filter.mpr ⟨Finset.mem_range.mpr hid, by simpa using hinner⟩) with hlt | hin
    · exact Nat.not_lt_zero id hlt
    · exact hnot hin
  · have hbalance := hgrows.balance
    simpa [inner, NodeTable.size] using hbalance

end ContextFree.Gll.Extraction

namespace ContextFree.Gll

open Extraction

variable {α : Type} [DecidableEq α] {job : Job α} {run : Run} {stop : Nat}

/-- The extracted table is exact. -/
theorem Run.Finished.extract_exact (hp : job.grammar.Regular) (h : run.Finished job)
    (hstop : job.config.prefixParsing = true ∨ stop = job.tokens.size)
    (hend : stop ∈ run.calls.ends.get (job.grammar.start, 0)) :
    (extract job.grammar run.splits stop).2.Exact job.grammar job.tokens stop (extract job.grammar run.splits stop).1 := by
  have hsplits : SoundSplits job.grammar job.tokens run.splits := fun _ _ _ _ hk => h.sound.splits hk
  obtain ⟨hroot, hcard⟩ := extracting_root run.splits (h.sound.ends hend).1
  obtain ⟨-, -, hlt, hidentity⟩ :=
    child_spec (x := {}) NodeTable.consistent_empty ⟨.symbol (.nonterminal job.grammar.start), 0, stop⟩
  obtain ⟨hlast, hextends, hnone⟩ := hroot.drain hp hsplits (expansionBound job.grammar stop) (by omega)
  refine ⟨hlast.faithful, ?_, ?_⟩
  · refine hlast.faithful.consistent.find_iff.mpr ⟨Nat.lt_of_lt_of_le hlt hextends.size_le, ?_⟩
    exact (hextends.identity_eq hlt).trans hidentity
  · rintro x key ⟨id, hid, rfl⟩ hrel hway
    obtain ⟨slot, rule, before, after, i, k, j, hsplit, heq, rfl⟩ := hway.exists_split hp hrel
    have hrecorded := (h.closedSearch hp).splits_of_relevant hp (relevance hp hstop) hsplit
    have hexpanded := hlast.expanded id hid (by rw [hnone]; exact List.not_mem_nil)
    exact hexpanded hsplit.atDot hsplit.useful hsplit.own heq (hrecorded.mem_splits hp hsplit.atDot hsplit.own)

/-- The accepted input is all of it, unless prefixes count, and the call of the start symbol ends with it. -/
theorem acceptedEnd?_spec {config : Config} {length : Nat} {ends : Array Nat}
    (h : acceptedEnd? config length ends = some stop) :
    stop ∈ ends ∧ (config.prefixParsing = true ∨ stop = length) := by
  unfold acceptedEnd? at h
  split at h
  · rename_i hcontains
    cases h
    exact ⟨Array.contains_iff_mem.mp hcontains, .inr rfl⟩
  · split at h
    · rename_i hprefix
      have hmem : stop ∈ ends.filter (· > 0) := Array.mem_toList_iff.mp (List.max?_mem h)
      exact ⟨(Array.mem_filter.mp hmem).1, .inl hprefix⟩
    · cases h

end ContextFree.Gll
