-- SUMMARY: Every tree that a walker produces is a parse tree of the consumed input.
import ContextFree.Tree.Basic
import ContextFree.Proofs.Walk.Choosing

/-!
# Walked trees

A list of trees shows a list of symbols over a stretch of input if there is one tree for each symbol, in order, over abutting
parts of the stretch; a symbol that derives nothing may be left without a tree. The children of an inner node show the
body of a useful rule. At a node that covers input, a walk always follows an admissible family, since it came there by
admissible families and the node has a positive count. At a node over no input it may take an escape, or stop, but
whatever it leaves out there derives nothing. So the events of a walk are those of a tree that shows the start symbol.
-/
namespace ContextFree

variable {α σ : Type}

/-! ## Tokens and their spans -/

/-- The atoms and the span of a token event. -/
def Event.taken? : Event α → Option (List α × Span)
  | token atoms _ span => some (atoms, span)
  | _                  => none

/-- Spans that abut and cover everything from `a` to `b`. -/
inductive Contiguous : List Span → Nat → Nat → Prop where
  | nil (a : Nat) : Contiguous [] a a
  | cons {s : Span} {rest : List Span} {b : Nat} :
      s.start < s.stop → Contiguous rest s.stop b → Contiguous (s :: rest) s.start b

theorem Contiguous.append {spans spans' : List Span} {a b c : Nat} (h : Contiguous spans a b)
    (h' : Contiguous spans' b c) : Contiguous (spans ++ spans') a c := by
  induction h with
  | nil a => exact h'
  | cons hlt _ ih => exact .cons hlt (ih h')

theorem Tree.eventsAll_append (trees trees' : List (Tree α)) :
    eventsAll (trees ++ trees') = eventsAll trees ++ eventsAll trees' := by
  induction trees with
  | nil => rfl
  | cons tree trees ih => simp only [List.cons_append, eventsAll, ih, List.append_assoc]

/-! ## Trees that show symbols -/

variable [DecidableEq α]

/-- `Shows p tokens offset trees symbols i j`: the trees show the symbols over `i` to `j`. Their spans are positions in the
input that the tokens are taken from, `offset` further on. -/
inductive Shows (p : Prepared α) (tokens : Array α) (offset : Nat) :
    List (Tree α) → List Symbol → Nat → Nat → Prop where
  | nil (i : Nat) : Shows p tokens offset [] [] i i
  | omitted {symbol : Symbol} {rest : List Symbol} {trees : List (Tree α)} {i j : Nat} :
      p.DerivesSpan tokens [symbol] i i → Shows p tokens offset trees rest i j →
      Shows p tokens offset trees (symbol :: rest) i j
  | leaf {t : TerminalId} {rest : List Symbol} {trees : List (Tree α)} {i k j : Nat} :
      i < k → k = i + p.matchLength t tokens i → Shows p tokens offset trees rest k j →
      Shows p tokens offset
        (.leaf (tokens.extract i k).toList (p.attributesOf (.terminal t)) ⟨offset + i, offset + k⟩ :: trees)
        (.terminal t :: rest) i j
  | node {A : Nonterminal} {rule : RuleId} {rest : List Symbol} {children trees : List (Tree α)} {i k j : Nat} :
      rule ∈ p.rulesFor A → Shows p tokens offset children (p.rule rule).rhs i k → Shows p tokens offset trees rest k j →
      Shows p tokens offset
        (.node (p.nameOf (.nonterminal A)) (p.attributesOf (.nonterminal A)) ⟨offset + i, offset + k⟩ children :: trees)
        (.nonterminal A :: rest) i j

namespace Shows

variable {p : Prepared α} {tokens : Array α} {offset i j k : Nat} {symbols symbols' : List Symbol}
  {trees trees' : List (Tree α)}

theorem append (h : Shows p tokens offset trees symbols i k) (h' : Shows p tokens offset trees' symbols' k j) :
    Shows p tokens offset (trees ++ trees') (symbols ++ symbols') i j := by
  induction h with
  | nil i => exact h'
  | omitted hderives _ ih => exact .omitted hderives (ih h')
  | leaf hlt hlength _ ih => exact .leaf hlt hlength (ih h')
  | node hrule hchildren _ _ ih => exact .node hrule hchildren (ih h')

/-- Symbols that derive nothing need no tree. -/
theorem of_derives (h : p.DerivesSpan tokens symbols i i) : Shows p tokens offset [] symbols i i := by
  induction symbols with
  | nil => exact .nil i
  | cons symbol rest ih =>
    have hsplit : p.DerivesSpan tokens ([symbol] ++ rest) i i := h
    obtain ⟨k, hfirst, hrest⟩ := Derives.of_append hsplit
    obtain rfl : k = i := Nat.le_antisymm hrest.le hfirst.le
    exact .omitted hfirst (ih hrest)

theorem le (h : Shows p tokens offset trees symbols i j) : i ≤ j := by
  induction h with
  | nil i => exact Nat.le_refl i
  | omitted _ _ ih => exact ih
  | leaf hlt _ _ ih => exact Nat.le_trans (Nat.le_of_lt hlt) ih
  | node _ _ _ ihChildren ih => exact Nat.le_trans ihChildren ih

/-- A tree that shows a nonterminal has its name and its span. -/
theorem root {tree : Tree α} {A : Nonterminal} (h : Shows p tokens offset [tree] [.nonterminal A] i j) :
    tree.name? = some (p.nameOf (.nonterminal A)) ∧ tree.span = ⟨offset + i, offset + j⟩ := by
  cases h with
  | omitted _ hrest => cases hrest
  | node _ _ hrest =>
    cases hrest
    exact ⟨rfl, rfl⟩

/-- The tokens of the trees are the input of their stretch, and the spans of the tokens abut. -/
theorem taken (h : Shows p tokens offset trees symbols i j) :
    (((Tree.eventsAll trees).filterMap Event.taken?).flatMap (·.1) = (tokens.extract i j).toList) ∧
      Contiguous (((Tree.eventsAll trees).filterMap Event.taken?).map (·.2)) (offset + i) (offset + j) := by
  have hjoin : ∀ {i k j}, i ≤ k → k ≤ j →
      (tokens.extract i k).toList ++ (tokens.extract k j).toList = (tokens.extract i j).toList := by
    intro i k j hik hkj
    rw [← Array.toList_append, Array.extract_append_extract, Nat.min_eq_left hik, Nat.max_eq_right hkj]
  induction h with
  | nil i => exact ⟨by simp [Tree.eventsAll], .nil _⟩
  | omitted _ _ ih => exact ih
  | leaf hlt _ hrest ih =>
    simp only [Tree.eventsAll, Tree.events, List.singleton_append, List.filterMap_cons, Event.taken?, List.flatMap_cons,
      List.map_cons, ih.1, hjoin (Nat.le_of_lt hlt) hrest.le, true_and]
    exact .cons (Nat.add_lt_add_left hlt offset) ih.2
  | node _ hchildren hrest ihChildren ih =>
    simp only [Tree.eventsAll, Tree.events, List.cons_append, List.append_assoc, List.filterMap_cons, Event.taken?,
      List.filterMap_append, List.nil_append, List.flatMap_append, List.map_append, ihChildren.1, ih.1,
      hjoin hchildren.le hrest.le, true_and]
    exact ihChildren.2.append ih.2

end Shows

/-! ## Walks that render a forest -/

namespace Forest.Exact

variable {f : Forest α} {tokens : Array α} {trimmed : Identity → Prop} {id : NodeId}

theorem right_le (h : f.Exact tokens trimmed) (hid : id < f.size) : (f.node id).right ≤ f.tokens.size := by
  obtain ⟨root, hroots, hroot, hidentity⟩ := h.root
  have hreach := h.reachable hid
  rw [hroots] at hreach
  have hinside := (h.inside_of_reachable hroot hreach).2
  rw [Node.right, Node.right, hidentity] at hinside
  exact hinside

/-- The leaf of a terminal shows it. -/
theorem shows_terminal (h : f.Exact tokens trimmed) (hid : id < f.size) {t : TerminalId}
    (hlabel : (f.node id).label = .symbol (.terminal t)) :
    Shows f.grammar tokens f.offset
      [.leaf (f.tokens.extract (f.node id).left (f.node id).right).toList (f.attributesOf id) (f.span id)]
      [.terminal t] (f.node id).left (f.node id).right := by
  have htokens : f.tokens.extract (f.node id).left (f.node id).right =
      tokens.extract (f.node id).left (f.node id).right := by
    rw [h.tokens_eq, Array.extract_extract, Nat.zero_add, Nat.zero_add, Nat.min_eq_left (h.right_le hid)]
  have hattributes : f.attributesOf id = f.grammar.attributesOf (.terminal t) := by
    rw [attributesOf, hlabel]
  have hderived := h.derived hid
  rw [Derived, show (f.node id).identity.label = .symbol (.terminal t) from hlabel] at hderived
  rw [htokens, hattributes]
  cases hderived with
  | terminal hpos hrest =>
    generalize hright : (f.node id).identity.right = k at hrest
    cases hrest
    have hright : (f.node id).right = (f.node id).left + f.grammar.matchLength t tokens (f.node id).left := hright
    rw [span, hright]
    exact .leaf (Nat.lt_add_of_pos_right hpos) rfl (.nil _)

end Forest.Exact

namespace Walk

/-- All choices of the plan and of the trace are of admissible families. -/
structure Lawful (f : Forest α) (w : Walk α σ) : Prop where
  plan : ∀ c ∈ w.plan, c.chosen ∈ f.admissible c.node
  trace : ∀ c ∈ w.trace, c.chosen ∈ f.admissible c.node

variable {f : Forest α} {tokens : Array α} {trimmed : Identity → Prop} {selector : Selector σ} {depth : Nat} {id child : NodeId}
  {symbols : List Symbol} {i j : Nat} {w w' : Walk α σ}

omit [DecidableEq α] in
theorem Lawful.enter (h : w.Lawful f) (id : NodeId) : (w.enter id).Lawful f :=
  ⟨h.plan, h.trace⟩

omit [DecidableEq α] in
theorem Lawful.emit (h : w.Lawful f) (event : Event α) : (w.emit event).Lawful f :=
  ⟨h.plan, h.trace⟩

omit [DecidableEq α] in
theorem Ready.emit (h : w.Ready f depth id) (event : Event α) : (w.emit event).Ready f depth id :=
  ⟨h.count_pos, h.rank_lt, h.path⟩

omit [DecidableEq α] in
/-- Choosing is lawful. -/
theorem Lawful.choose (h : w.Lawful f) (selector : Selector σ) (id : NodeId) : (w.choose f selector id).2.Lawful f := by
  obtain ⟨-, ⟨-, hplan, htrace⟩ | ⟨i, -, -, hplan, htrace⟩ | ⟨-, e, hnode, hmakes, -, hplan, htrace⟩⟩ :=
    w.choose_cases f selector id
  · exact ⟨hplan ▸ h.plan, htrace ▸ h.trace⟩
  · exact ⟨hplan ▸ h.plan, htrace ▸ h.trace⟩
  · rw [usableFamilies_eq] at hmakes
    have hchosen : e.chosen ∈ f.admissible e.node := by
      refine hmakes.admissible (fun family hmem => hnode ▸ List.mem_of_mem_filter hmem) fun c hc => ?_
      exact h.plan c (List.mem_of_mem_head? hc)
    exact ⟨fun c hc => h.plan c (List.mem_of_mem_tail (hplan ▸ hc)),
      htrace ▸ List.forall_mem_cons.mpr ⟨hchosen, h.trace⟩⟩

/-- A walk that is ready for a node with admissible families chooses one of them. -/
theorem Lawful.exists_admissible (hf : f.Exact tokens trimmed) (hid : id < f.size) (hne : f.admissible id ≠ [])
    (hlawful : w.Lawful f) (hready : w.Ready f depth id) (selector : Selector σ) :
    ∃ i ∈ f.admissible id, ((w.enter id).choose f selector id).1 = some i := by
  have husable := hready.usableFamilies_eq hf hid
  obtain ⟨-, ⟨hnone, -⟩ | ⟨i, hone, hchosen, -⟩ | ⟨-, e, hnode, hmakes, hchosen, -⟩⟩ :=
    (w.enter id).choose_cases f selector id
  · exact absurd (husable.symm.trans hnone) hne
  · exact ⟨i, husable ▸ hone ▸ List.mem_singleton.mpr rfl, hchosen⟩
  · rw [husable, ← hnode] at hmakes
    have hplanned := hmakes.admissible (fun _ hmem => hmem) fun c hc => hlawful.plan c (List.mem_of_mem_head? hc)
    exact ⟨e.chosen, hnode ▸ hplanned, hchosen⟩

/-- From `w` to `w'`, the walk has reported trees that show the symbols. -/
structure Renders (f : Forest α) (tokens : Array α) (symbols : List Symbol) (i j : Nat) (w w' : Walk α σ) : Prop where
  events : ∃ trees, w'.events.toList = w.events.toList ++ Tree.eventsAll trees ∧
    Shows f.grammar tokens f.offset trees symbols i j
  lawful : w'.Lawful f
  onPath : ∀ {a}, a ∈ w'.onPath → a ∈ w.onPath

open Classical in
/-- Visits of children that divide the symbols, those that were trimmed left aside, render the symbols. -/
theorem renders_children (hf : f.Exact tokens trimmed) {key : List Identity}
    (hdivides : f.grammar.Divides tokens key symbols i j) {children : List NodeId}
    (hchildren : (children.map fun c => (f.node c).identity) = key.filter fun y => !decide (trimmed y))
    {visit : NodeId → Walk α σ → Walk α σ}
    (hvisit : ∀ c ∈ children, ∀ w' : Walk α σ, w'.Lawful f → (∀ {a}, a ∈ w'.onPath → a ∈ w.onPath) →
      Renders f tokens (f.grammar.symbolsOf (f.node c).label) (f.node c).left (f.node c).right w' (visit c w'))
    (hlawful : w.Lawful f) :
    Renders f tokens symbols i j w (children.foldl (fun w child => visit child w) w) := by
  induction hdivides generalizing children w with
  | nil i =>
    obtain rfl := List.map_eq_nil_iff.mp hchildren
    exact ⟨⟨[], by simp [Tree.eventsAll], .nil i⟩, hlawful, fun ha => ha⟩
  | @cons y key rest j hderived _ ih =>
    by_cases htrimmed : trimmed y
    · rw [List.filter_cons_of_neg (by simp [htrimmed])] at hchildren
      have hempty := hderived.derivesSpan hf.regular
      rw [← hf.trimmed_empty htrimmed] at hempty ih
      obtain ⟨⟨trees, hevents, hshows⟩, hlawful', hpath⟩ := ih hchildren hvisit hlawful
      exact ⟨⟨trees, hevents, (Shows.of_derives hempty).append hshows⟩, hlawful', hpath⟩
    · rw [List.filter_cons_of_pos (by simp [htrimmed])] at hchildren
      obtain ⟨c, others, rfl, rfl, hothers⟩ := List.map_eq_cons_iff.mp hchildren
      obtain ⟨⟨trees, hevents, hshows⟩, hlawful', hpath⟩ := hvisit c List.mem_cons_self w hlawful fun ha => ha
      obtain ⟨⟨trees', hevents', hshows'⟩, hlawful'', hpath'⟩ := ih hothers
        (fun c' hc' w' hw' hsub => hvisit c' (List.mem_cons_of_mem c hc') w' hw' fun ha => hpath (hsub ha)) hlawful'
      refine ⟨⟨trees ++ trees', ?_, hshows.append hshows'⟩, hlawful'', fun ha => hpath (hpath' ha)⟩
      rw [List.foldl_cons, hevents', hevents, Tree.eventsAll_append, List.append_assoc]

omit [DecidableEq α] in
theorem Lawful.follow (h : w.Lawful f) (selector : Selector σ) (id : NodeId) (family? : Option Nat) :
    (((w.enter id).choose f selector id).2.follow id family?).Lawful f :=
  ⟨((h.enter id).choose selector id).plan, ((h.enter id).choose selector id).trace⟩

/-- What is rendered after a node was entered and before it is left is rendered from before to after. -/
theorem Renders.leave {family? : Option Nat}
    (h : Renders f tokens symbols i j (((w.enter id).choose f selector id).2.follow id family?) w') :
    Renders f tokens symbols i j w (w'.leave id family?) := by
  obtain ⟨⟨trees, hevents, hshows⟩, hlawful, hpath⟩ := h
  rw [follow, ((w.enter id).choose_cases f selector id).1.events] at hevents
  refine ⟨⟨trees, ?_, hshows⟩, ?_, fun ha => ?_⟩
  · cases family? <;> exact hevents
  · cases family? <;> exact ⟨hlawful.plan, hlawful.trace⟩
  · obtain ⟨hne, ha⟩ := mem_onPath_leave.mp ha
    exact (mem_onPath_follow.mp (hpath ha)).resolve_left hne

/-- At a node that is no terminal, a walk renders what the label is derived by. -/
theorem inside_renders (hf : f.Exact tokens trimmed) (hid : id < f.size) (hinner : (f.node id).families ≠ #[])
    (hvisit : ∀ {c : NodeId} {w : Walk α σ}, c < f.size → w.Lawful f → (f.HasInput c → w.Ready f depth c) →
      Renders f tokens (f.grammar.symbolsOf (f.node c).label) (f.node c).left (f.node c).right w
        (visit f selector depth c w))
    (hlawful : w.Lawful f) (hready : f.HasInput id → w.Ready f (depth + 1) id) :
    ∃ symbols, f.grammar.Expands (f.node id).label symbols ∧
      Renders f tokens symbols (f.node id).left (f.node id).right w (inside f selector depth id w) := by
  have hchoose : f.HasInput id → ∃ i ∈ f.admissible id, ((w.enter id).choose f selector id).1 = some i := by
    intro hinput
    refine hlawful.exists_admissible hf hid ?_ (hready hinput) selector
    refine hf.admissible_ne_nil hid hinner (fun hempty => ?_) (hready hinput).count_pos
    exact absurd (beq_iff_eq.mp hempty) (Nat.ne_of_lt hinput)
  by_cases hfollowed : ∃ i family, ((w.enter id).choose f selector id).1 = some i ∧ (f.node id).families[i]? = some family
  · obtain ⟨i, family, hchosen, hget⟩ := hfollowed
    have hfamily := Array.mem_of_getElem? hget
    obtain ⟨key, symbols, hexpands, hdivides, hkey⟩ := hf.exists_division hid hfamily
    rw [inside_of_choose hchosen hget]
    refine ⟨symbols, hexpands, Renders.leave (renders_children hf hdivides hkey (fun c hc w₁ hlawful₁ hsub => ?_) ?_)⟩
    · refine hvisit (hf.child_lt hid hfamily hc) hlawful₁ fun hinput => ?_
      have hinside := hf.inside_child hid hfamily hc
      have hcovers : f.HasInput id := Nat.lt_of_le_of_lt hinside.1 (Nat.lt_of_lt_of_le hinput hinside.2)
      obtain ⟨i', hadmissible, heq⟩ := hchoose hcovers
      obtain rfl := Option.some.inj (hchosen.symm.trans heq)
      refine (hready hcovers).toChild hf hid hadmissible ?_ fun ha => mem_onPath_follow.mp (hsub ha)
      rw [Array.getD_eq_getD_getElem?, hget]
      exact hc
    · exact hlawful.follow selector id (some i)
  · -- a node that covers input would have an admissible family to follow
    have hempty : (f.node id).left = (f.node id).right := by
      refine Nat.le_antisymm (hf.derived hid).le (Nat.not_lt.mp fun hinput => hfollowed ?_)
      obtain ⟨i, hadmissible, heq⟩ := hchoose hinput
      obtain ⟨family, hget, -⟩ := Forest.mem_admissible.mp hadmissible
      exact ⟨i, family, heq, hget⟩
    obtain ⟨family, hfamily⟩ := Array.exists_mem_of_ne_empty _ hinner
    obtain ⟨key, symbols, hexpands, hdivides, -⟩ := hf.exists_division hid hfamily
    have hderives := hdivides.derivesSpan hf.regular
    rw [← hempty] at hderives
    rw [← hempty, inside_of_no_family fun i hchosen =>
      Option.eq_none_iff_forall_ne_some.mpr fun family hget => hfollowed ⟨i, family, hchosen, hget⟩]
    refine ⟨symbols, hexpands, Renders.leave ⟨⟨[], ?_, .of_derives hderives⟩, hlawful.follow selector id _, fun ha => ha⟩⟩
    rw [Tree.eventsAll, List.append_nil]

/-- At a nonterminal, a walk reports one tree. -/
theorem nonterminal_renders (hf : f.Exact tokens trimmed) (hid : id < f.size) {A : Nonterminal}
    (hlabel : (f.node id).label = .symbol (.nonterminal A))
    (hvisit : ∀ {c : NodeId} {w : Walk α σ}, c < f.size → w.Lawful f → (f.HasInput c → w.Ready f depth c) →
      Renders f tokens (f.grammar.symbolsOf (f.node c).label) (f.node c).left (f.node c).right w
        (visit f selector depth c w))
    (hlawful : w.Lawful f) (hready : f.HasInput id → w.Ready f (depth + 1) id) :
    ∃ tree, (visit f selector (depth + 1) id w).events.toList = w.events.toList ++ tree.events ∧
      Shows f.grammar tokens f.offset [tree] [.nonterminal A] (f.node id).left (f.node id).right ∧
      (visit f selector (depth + 1) id w).Lawful f ∧ ∀ {a}, a ∈ (visit f selector (depth + 1) id w).onPath → a ∈ w.onPath := by
  have hinner : (f.node id).families ≠ #[] := hf.families_ne_empty hid (by rw [hlabel]; rfl)
  obtain ⟨symbols, hexpands, ⟨children, hevents, hshows⟩, hlawful', hpath⟩ := inside_renders hf hid hinner hvisit
    (hlawful.emit (.opening (f.grammar.grammar.nonterminalName A) (f.attributesOf id) (f.span id)))
    fun hinput => (hready hinput).emit _
  rw [hlabel] at hexpands
  obtain ⟨rule, hrule, rfl⟩ := hexpands
  have hattributes : f.attributesOf id = f.grammar.attributesOf (.nonterminal A) := by
    rw [Forest.attributesOf, hlabel]
  rw [visit_succ, hlabel]
  refine ⟨_, ?_, .node hrule hshows (.nil _), hlawful'.emit _, hpath⟩
  rw [hattributes] at hevents ⊢
  simp only [emit, Array.toList_push] at hevents ⊢
  simp only [hevents, Tree.events, List.append_assoc, List.cons_append, List.nil_append]
  rfl

/-- A visit renders what the label of the node stands for. -/
theorem visit_renders (hf : f.Exact tokens trimmed) (selector : Selector σ) (depth : Nat) (hid : id < f.size)
    (hlawful : w.Lawful f) (hready : f.HasInput id → w.Ready f depth id) :
    Renders f tokens (f.grammar.symbolsOf (f.node id).label) (f.node id).left (f.node id).right w
      (visit f selector depth id w) := by
  induction depth generalizing id w with
  | zero =>
    have hempty : (f.node id).left = (f.node id).right :=
      Nat.le_antisymm (hf.derived hid).le (Nat.not_lt.mp fun hinput => Nat.not_lt_zero _ (hready hinput).rank_lt)
    have hderives : f.grammar.DerivesSpan tokens (f.grammar.symbolsOf (f.node id).label) (f.node id).left
      (f.node id).right := (hf.derived hid).derivesSpan hf.regular
    rw [← hempty] at hderives ⊢
    exact ⟨⟨[], by simp [visit, Tree.eventsAll], .of_derives hderives⟩, hlawful, fun ha => ha⟩
  | succ depth ih =>
    match hlabel : (f.node id).label with
    | .symbol (.terminal t) =>
      rw [visit_succ, hlabel]
      refine ⟨⟨_, ?_, hf.shows_terminal hid hlabel⟩, hlawful.emit _, fun ha => ha⟩
      simp only [emit, Array.toList_push, Tree.eventsAll, Tree.events, List.append_nil]
    | .symbol (.nonterminal A) =>
      obtain ⟨tree, hevents, hshows, hlawful', hpath⟩ :=
        nonterminal_renders hf hid hlabel (fun hc hw hr => ih hc hw hr) hlawful hready
      refine ⟨⟨[tree], ?_, hshows⟩, hlawful', hpath⟩
      rw [hevents, Tree.eventsAll, Tree.eventsAll, List.append_nil]
    | .state slot =>
      have hinner : (f.node id).families ≠ #[] := hf.families_ne_empty hid (by rw [hlabel]; rfl)
      obtain ⟨symbols, hexpands, hrenders⟩ := inside_renders hf hid hinner (fun hc hw hr => ih hc hw hr) hlawful hready
      rw [hlabel] at hexpands
      rw [visit_succ, hlabel]
      exact hexpands ▸ hrenders

end Walk

/-! ## Walkers -/

namespace Walker

/-- The walkers that calls lead to, from a new one on. -/
inductive Reached (f : Forest α) (selector : Selector σ) : Walker α σ → Prop where
  | new : Reached f selector (new f selector)
  | next {w : Walker α σ} : Reached f selector w → Reached f selector w.next.walker
  | replay {w : Walker α σ} : Reached f selector w → Reached f selector w.replay.walker
  | reset {w : Walker α σ} : Reached f selector w → Reached f selector w.reset

/-- The walker stands at a root unless it is exhausted, and plans and remembers choices of admissible families only. -/
structure Lawful (f : Forest α) (w : Walker α σ) : Prop where
  forest_eq : w.forest = f
  root_lt : w.exhausted = false → w.root < f.roots.length
  plan : ∀ c ∈ w.plan, c.chosen ∈ f.admissible c.node
  last : ∀ {root plan}, w.last? = some (root, plan) →
    root < f.roots.length ∧ ∀ c ∈ plan, c.chosen ∈ f.admissible c.node

variable {f : Forest α} {tokens : Array α} {trimmed : Identity → Prop} {selector : Selector σ} {w : Walker α σ}

/-- The walk along a plan before its first visit. -/
def begun (w : Walker α σ) (plan : List Choice) : Walk α σ :=
  Walk.emit { memory := w.memory, selector := w.selectorMemory, plan } (.startTree w.forest.isAmbiguous w.forest.isInfinite)

/-- The walk along a plan after its last visit. -/
def visited (w : Walker α σ) (root : NodeId) (plan : List Choice) : Walk α σ :=
  Walk.visit w.forest w.selector (w.forest.size + 2 * plan.length + 1) root (w.begun plan)

omit [DecidableEq α] in
theorem walk_eq {root : NodeId} (hroots : w.forest.roots = [root]) (plan : List Choice) :
    w.walk 0 plan = (w.visited root plan).emit (.endTree (w.visited root plan).madeChoice) := by
  have hroot : w.forest.roots.getD 0 0 = root := by rw [hroots]; rfl
  rw [walk, hroot]
  rfl

omit [DecidableEq α] in
theorem lawful_begun (w : Walker α σ) {plan : List Choice} (hplan : ∀ c ∈ plan, c.chosen ∈ w.forest.admissible c.node) :
    (w.begun plan).Lawful w.forest :=
  ⟨hplan, fun _ hc => absurd hc List.not_mem_nil⟩

theorem ready_begun (hf : w.forest.Exact tokens trimmed) {root : NodeId} (hroots : w.forest.roots = [root])
    (hroot : root < w.forest.size) (plan : List Choice) :
    (w.begun plan).Ready w.forest (w.forest.size + 2 * plan.length + 1) root := by
  refine ⟨hf.count_root_pos hroots hroot, ?_, fun ha => absurd ha Std.TreeSet.not_mem_emptyc⟩
  exact Nat.lt_succ_of_le (Nat.le_trans (Nat.le_of_lt (hf.rank_lt_size hroot)) (Nat.le_add_right _ _))

/-- A walk from a root along a lawful plan reports a tree that shows the start symbol over all tokens. -/
theorem walk_renders (hf : f.Exact tokens trimmed) (hforest : w.forest = f) {root : Nat} (hroot : root < f.roots.length)
    {plan : List Choice} (hplan : ∀ c ∈ plan, c.chosen ∈ f.admissible c.node) :
    (∃ tree madeChoice, (w.walk root plan).events.toList =
        .startTree f.isAmbiguous f.isInfinite :: (tree.events ++ [.endTree madeChoice]) ∧
      Shows f.grammar tokens f.offset [tree] [.nonterminal f.grammar.start] 0 f.tokens.size) ∧
      ∀ c ∈ (w.walk root plan).trace, c.chosen ∈ f.admissible c.node := by
  subst hforest
  obtain ⟨id, hroots, hid, hidentity⟩ := hf.root
  obtain rfl : root = 0 := by
    rw [hroots] at hroot
    exact Nat.lt_one_iff.mp hroot
  obtain ⟨tree, hevents, hshows, hlawful, -⟩ := Walk.nonterminal_renders hf hid (congrArg Identity.label hidentity)
    (fun hc hw hr => Walk.visit_renders hf w.selector _ hc hw hr) (w.lawful_begun hplan)
    fun _ => ready_begun hf hroots hid plan
  rw [Node.left, Node.right, hidentity] at hshows
  rw [walk_eq hroots]
  refine ⟨⟨tree, (w.visited id plan).madeChoice, ?_, hshows⟩, hlawful.trace⟩
  rw [Walk.emit, Array.toList_push, visited, hevents]
  rfl

omit [DecidableEq α] in
theorem Lawful.planNext (h : w.Lawful f) {trace : List Choice} (htrace : ∀ c ∈ trace, c.chosen ∈ f.admissible c.node) :
    (w.planNext trace).Lawful f := by
  rcases w.planNext_cases trace with ⟨later, c, earlier, rfl, -, -, hnext⟩ | ⟨-, hnext⟩
  · obtain ⟨hc, hearlier⟩ := List.forall_mem_cons.mp (List.forall_mem_append.mp htrace).2
    rw [hnext]
    refine ⟨h.forest_eq, h.root_lt, List.forall_mem_append.mpr ⟨fun e he => ?_, List.forall_mem_singleton.mpr hc⟩, h.last⟩
    exact hearlier e (List.mem_reverse.mp he)
  · rw [hnext]
    refine ⟨h.forest_eq, fun hopen => ?_, by simp, h.last⟩
    have hlt : ¬ w.root + 1 ≥ w.forest.roots.length := of_decide_eq_false hopen
    rw [h.forest_eq] at hlt
    exact Nat.not_le.mp hlt

/-- Every walker that calls lead to is lawful. -/
theorem Reached.lawful (hf : f.Exact tokens trimmed) (h : Reached f selector w) : w.Lawful f := by
  have hnew : ∀ {w : Walker α σ}, w.forest = f → w.exhausted = f.roots.isEmpty → w.root = 0 → w.plan = [] → w.last? = none →
      w.Lawful f := by
    intro w hforest hexhausted hroot hplan hlast
    refine ⟨hforest, fun hopen => ?_, by simp [hplan], by simp [hlast]⟩
    rw [hroot, List.length_pos_iff_ne_nil]
    rw [hexhausted] at hopen
    simpa using hopen
  induction h with
  | new => exact hnew rfl rfl rfl rfl rfl
  | @next w _ ih =>
    unfold Walker.next
    split
    · exact ih
    · rename_i hopen
      have hroot := ih.root_lt (Bool.not_eq_true _ ▸ hopen)
      have htrace := (walk_renders hf ih.forest_eq hroot ih.plan).2
      apply Lawful.planNext _ htrace
      refine ⟨ih.forest_eq, ih.root_lt, ih.plan, fun hlast => ?_⟩
      cases hlast
      exact ⟨hroot, fun c hc => htrace c (List.mem_reverse.mp hc)⟩
  | @replay w _ ih =>
    unfold Walker.replay
    split
    · exact ih
    · exact ⟨ih.forest_eq, ih.root_lt, ih.plan, ih.last⟩
  | @reset w _ ih => exact hnew ih.forest_eq (by rw [← ih.forest_eq]; rfl) rfl rfl rfl

omit [DecidableEq α] in
/-- What a call produces comes from a walk along a lawful plan. -/
theorem Lawful.exists_walk (h : w.Lawful f) {produced : Produced α}
    (hproduced : w.next.result = .ok produced ∨ w.replay.result = .ok produced) :
    ∃ root plan, root < f.roots.length ∧ (∀ c ∈ plan, c.chosen ∈ f.admissible c.node) ∧
      produced.events = (w.walk root plan).events.toList := by
  rcases hproduced with hnext | hreplay
  · unfold Walker.next at hnext
    split at hnext
    · cases hnext
    · rename_i hopen
      cases hnext
      exact ⟨w.root, w.plan, h.root_lt (Bool.not_eq_true _ ▸ hopen), h.plan, rfl⟩
  · unfold Walker.replay at hreplay
    split at hreplay
    · cases hreplay
    · rename_i root plan hlast
      cases hreplay
      exact ⟨root, plan, (h.last hlast).1, (h.last hlast).2, rfl⟩

end Walker

namespace Recognizer

variable [Quote α]

/-- Whatever was called before and whatever the selector does, each tree that a walker produces, anew or again, is a parse tree
of the consumed input. Its events are one start, the events of one tree, and one end. The tree shows the start symbol over
all consumed tokens: its children show a useful rule of the start symbol, and so on, where only symbols that derive nothing
are left out. Its tokens are those consumed, over abutting spans. -/
theorem produced_shows (r : Recognizer α) (hp : r.grammar.Built) (input : Array α) (offset : Nat) {f : Forest α}
    (hf : (r.parseFrom input offset).outcome.forest = some f) (selector : Selector σ) {w : Walker α σ}
    (hw : Walker.Reached f selector w) {produced : Walker.Produced α}
    (hproduced : w.next.result = .ok produced ∨ w.replay.result = .ok produced) :
    ∃ tree madeChoice,
      produced.events = .startTree f.isAmbiguous f.isInfinite :: (tree.events ++ [.endTree madeChoice]) ∧
      Shows r.grammar (input.extract offset input.size) offset [tree] [.nonterminal r.grammar.start] 0 f.tokens.size ∧
      tree.name? = some (r.grammar.nameOf (.nonterminal r.grammar.start)) ∧
      tree.span = ⟨offset, offset + f.tokens.size⟩ ∧
      (produced.events.filterMap Event.taken?).flatMap (·.1) = f.tokens.toList ∧
      Contiguous ((produced.events.filterMap Event.taken?).map (·.2)) offset (offset + f.tokens.size) := by
  obtain ⟨hgrammar, hoffset, trimmed, hexact⟩ := r.exists_exact hp input offset hf
  have hlawful := hw.lawful hexact
  obtain ⟨root, plan, hroot, hplan, hevents⟩ := hlawful.exists_walk hproduced
  obtain ⟨⟨tree, madeChoice, hwalk, hshows⟩, -⟩ := Walker.walk_renders hexact hlawful.forest_eq hroot hplan
  have hall := hevents.trans hwalk
  have htaken : produced.events.filterMap Event.taken? = (Tree.eventsAll [tree]).filterMap Event.taken? := by
    rw [hall]
    simp only [List.filterMap_cons, List.filterMap_append, Event.taken?, List.filterMap_nil, List.append_nil, Tree.eventsAll]
  obtain ⟨hatoms, hspans⟩ := hshows.taken
  rw [← htaken, ← hexact.tokens_eq] at hatoms
  rw [← htaken, hoffset] at hspans
  rw [hgrammar, hoffset] at hshows
  obtain ⟨hname, hspan⟩ := hshows.root
  exact ⟨tree, madeChoice, hall, hshows, hname, hspan, hatoms, hspans⟩

/-- The second tree of a cyclic forest, produced again, shows the start symbol of the sample over all three letters. -/
theorem produced_shows_sample : ∃ (f : Forest Char) (w : Walker Char Unit) (produced : Walker.Produced Char) (tree : Tree Char),
    (parseFrom ⟨Sample.prepared, .earley {}, none⟩ #['b', 'a', 'a', 'a'] 1).outcome.forest = some f ∧ f.isInfinite = true ∧
    w.produced = 2 ∧ w.replay.result = .ok produced ∧
    Shows Sample.prepared #['a', 'a', 'a'] 1 [tree] [.nonterminal Sample.prepared.start] 0 3 ∧
    (produced.events.filterMap Event.taken?).flatMap (·.1) = ['a', 'a', 'a'] := by
  have hread : (parseFrom ⟨Sample.prepared, .earley {}, none⟩ #['b', 'a', 'a', 'a'] 1).outcome.forest.map (fun f =>
      let w := (Walker.new f .sequential).next.walker.next.walker
      (f.isInfinite, f.tokens, w.produced, w.replay.result.isOk)) = some (true, #['a', 'a', 'a'], 2, true) := by decide +kernel
  obtain ⟨f, hf, hfacts⟩ := Option.map_eq_some_iff.mp hread
  simp only [Prod.mk.injEq] at hfacts
  obtain ⟨hinfinite, htokens, hcount, hok⟩ := hfacts
  cases hresult : (Walker.new f .sequential).next.walker.next.walker.replay.result with
  | error e => simp [hresult, Except.isOk, Except.toBool] at hok
  | ok produced =>
    obtain ⟨tree, -, -, hshows, -, -, hatoms, -⟩ := produced_shows ⟨Sample.prepared, .earley {}, none⟩ Sample.prepared_built
      #['b', 'a', 'a', 'a'] 1 hf .sequential (.next (.next .new)) (.inr hresult)
    rw [htokens] at hshows hatoms
    exact ⟨f, _, produced, tree, hf, hinfinite, hcount, hresult, hshows, hatoms⟩

end Recognizer
end ContextFree
