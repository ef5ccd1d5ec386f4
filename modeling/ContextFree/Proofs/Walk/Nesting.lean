-- SUMMARY: When no tree that a walker produces has a nonterminal inside itself, and a forest where one has.
import ContextFree.Proofs.Walk.Replaying

/-!
# Nesting

A clear walk never enters a node that is still to be left: it follows no family that leads to an open node, and the tasks on the
stack keep to that. A nonterminal is told by its name and its extent, since a forest has one node for each identity and a
grammar one nonterminal for each name. So what the events of a clear walk open was not open before, and the tree that they
report has no nonterminal inside itself.

Every walk without a plan is clear, and over a steady forest every walk is. Elsewhere a planned choice may be left from a walk that
came to the node on another path.
-/
namespace ContextFree

variable {α σ : Type}

/-! ## Trees without nested nonterminals -/

/-- The nonterminals that are open after an event, the innermost first, each by its name and extent. There is no answer from the
first one on that is opened inside itself. -/
def Event.track : Option (List (String × Span)) → Event α → Option (List (String × Span))
  | some above, opening name _ span => if (name, span) ∈ above then none else some ((name, span) :: above)
  | some above, closing _ _ _       => some above.tail
  | above?, _                       => above?

theorem Event.foldl_track_none (events : List (Event α)) : events.foldl track none = none := by
  induction events with
  | nil => rfl
  | cons event events ih => cases event <;> exact ih

namespace Tree

mutual

/-- No nonterminal of the tree has the name and the extent of one above it, be it in the tree or in the list. -/
def Unnested (above : List (String × Span)) : Tree α → Prop
  | node name _ span children => (name, span) ∉ above ∧ UnnestedAll ((name, span) :: above) children
  | leaf _ _ _                => True

/-- No nonterminal of the trees has the name and the extent of one above it. -/
def UnnestedAll (above : List (String × Span)) : List (Tree α) → Prop
  | []            => True
  | tree :: trees => tree.Unnested above ∧ UnnestedAll above trees

end

open Classical in
mutual

/-- Tracking the events of a tree ends where it began, unless the tree has nested nonterminals. -/
theorem foldl_track_events (above : List (String × Span)) : ∀ tree : Tree α,
    tree.events.foldl Event.track (some above) = if tree.Unnested above then some above else none
  | node name attributes span children => by
    rw [events, List.foldl_cons, List.foldl_append, Event.track, Unnested]
    by_cases hnested : (name, span) ∈ above
    · rw [if_pos hnested, Event.foldl_track_none, Event.foldl_track_none, if_neg fun h => h.1 hnested]
    · rw [if_neg hnested, foldl_track_eventsAll]
      by_cases hchildren : UnnestedAll ((name, span) :: above) children
      · rw [if_pos hchildren, if_pos ⟨hnested, hchildren⟩]
        rfl
      · rw [if_neg hchildren, if_neg fun h => hchildren h.2]
        rfl
  | leaf tokens attributes span => by
    rw [events, Unnested, if_pos trivial]
    rfl

theorem foldl_track_eventsAll (above : List (String × Span)) : ∀ trees : List (Tree α),
    (eventsAll trees).foldl Event.track (some above) = if UnnestedAll above trees then some above else none
  | [] => by
    rw [eventsAll, UnnestedAll, if_pos trivial]
    rfl
  | tree :: trees => by
    rw [eventsAll, List.foldl_append, foldl_track_events, UnnestedAll]
    by_cases htree : tree.Unnested above
    · rw [if_pos htree, foldl_track_eventsAll]
      simp only [htree, true_and]
    · rw [if_neg htree, Event.foldl_track_none, if_neg fun h => htree h.1]

end

/-- The events of a whole tree tell whether it has nested nonterminals. -/
theorem unnested_iff_track (tree : Tree α) (ambiguous infinite madeChoice : Bool) :
    tree.Unnested [] ↔
      (Event.startTree ambiguous infinite :: (tree.events ++ [.endTree madeChoice])).foldl Event.track (some []) = some [] := by
  rw [List.foldl_cons, List.foldl_append, show Event.track (some []) (.startTree ambiguous infinite : Event α) = some [] from rfl,
    foldl_track_events]
  split
  · rename_i h
    exact iff_of_true h rfl
  · rename_i h
    exact iff_of_false h (by simp [Event.track])

end Tree

/-! ## Titles -/

namespace Forest

/-- The name and the extent of a nonterminal. -/
def title? (f : Forest α) (id : NodeId) : Option (String × Span) :=
  match (f.node id).label with
  | .symbol (.nonterminal A) => some (f.grammar.grammar.nonterminalName A, f.span id)
  | _                        => none

/-- Titles tell the nonterminals of a forest apart. -/
def Titled (f : Forest α) : Prop :=
  ∀ ⦃id id' title⦄, id < f.size → id' < f.size → f.title? id = some title → f.title? id' = some title → id = id'

theorem exists_nonterminal_of_title {f : Forest α} {id : NodeId} {title : String × Span} (h : f.title? id = some title) :
    ∃ A, (f.node id).label = .symbol (.nonterminal A) ∧ title = (f.grammar.grammar.nonterminalName A, f.span id) := by
  unfold title? at h
  split at h
  · rename_i A hlabel
    exact ⟨A, hlabel, (Option.some.inj h).symm⟩
  · cases h

variable [DecidableEq α] {f : Forest α} {tokens : Array α} {trimmed : Identity → Prop} {id : NodeId}

/-- A nonterminal of the forest is the left-hand side of a rule. -/
theorem Exact.exists_rule (h : f.Exact tokens trimmed) (hid : id < f.size) {A : Nonterminal}
    (hlabel : (f.node id).label = .symbol (.nonterminal A)) : ∃ rule ∈ f.grammar.grammar.rules, rule.lhs = A := by
  obtain ⟨family, hfamily⟩ := Array.exists_mem_of_ne_empty _ (h.families_ne_empty hid (by rw [hlabel]; rfl))
  obtain ⟨key, symbols, hexpands, -⟩ := h.exists_division hid hfamily
  rw [hlabel] at hexpands
  obtain ⟨rule, hrule, -⟩ := hexpands
  obtain ⟨hlt, -, hlhs⟩ := h.regular.mem_rulesFor.mp hrule
  exact ⟨_, Grammar.rule_mem hlt, hlhs⟩

theorem Exact.titled (h : f.Exact tokens trimmed)
    (hdistinct : ∀ {m n}, m < f.size → n < f.size → (f.node m).identity = (f.node n).identity → m = n)
    (hnodup : f.grammar.grammar.names.toList.Nodup)
    (hnamed : ∀ rule ∈ f.grammar.grammar.rules, rule.lhs < f.grammar.grammar.names.size) : f.Titled := by
  intro id id' title hid hid' htitle htitle'
  obtain ⟨A, hlabel, rfl⟩ := exists_nonterminal_of_title htitle
  obtain ⟨B, hlabel', heq⟩ := exists_nonterminal_of_title htitle'
  obtain ⟨hname, hspan⟩ := Prod.mk.inj heq
  obtain rfl : A = B := by
    obtain ⟨rule, hrule, rfl⟩ := h.exists_rule hid hlabel
    obtain ⟨rule', hrule', rfl⟩ := h.exists_rule hid' hlabel'
    have hlt := hnamed rule hrule
    have hlt' := hnamed rule' hrule'
    simp only [Grammar.nonterminalName, Array.getD_eq_getD_getElem?, Array.getElem?_eq_getElem hlt,
      Array.getElem?_eq_getElem hlt', Option.getD_some, ← Array.getElem_toList] at hname
    exact hnodup.getElem_inj_iff.mp hname
  obtain ⟨hleft, hright⟩ := Span.mk.inj hspan
  apply hdistinct hid hid'
  calc (f.node id).identity = ⟨(f.node id).label, (f.node id).left, (f.node id).right⟩ := rfl
    _ = ⟨(f.node id').label, (f.node id').left, (f.node id').right⟩ := by
      rw [hlabel, hlabel', Nat.add_left_cancel hleft, Nat.add_left_cancel hright]

end Forest

/-! ## Tasks that keep apart -/

/-- The node that a task is about. -/
def Task.node : Task → NodeId
  | enter id   => id
  | leave id _ => id

namespace Tour

/-- The next step enters a node that is still to be left. -/
def Reopens (s : Tour α σ) : Prop :=
  ∃ id family? tasks, s.tasks = .enter id :: tasks ∧ .leave id family? ∈ tasks

/-- What is to be left is open, and no task before that is about the same node. -/
structure Simple (s : Tour α σ) : Prop where
  opened : ∀ {a family?}, .leave a family? ∈ s.tasks → a ∈ s.walk.onPath
  apart : s.tasks.Pairwise fun task later => ∀ a family?, later = .leave a family? → task.node ≠ a

namespace Simple

variable {f : Forest α} {selector : Selector σ} {s : Tour α σ}

theorem not_reopens (h : s.Simple) : ¬ s.Reopens := by
  rintro ⟨id, family?, tasks, htasks, hleave⟩
  have hapart := h.apart
  rw [htasks] at hapart
  exact (List.pairwise_cons.mp hapart).1 _ hleave id family? rfl rfl

theorem step (h : s.Simple) (hclear : ¬ s.Retraces f selector) : (s.step f selector).Simple := by
  obtain ⟨hopened, hapart⟩ := h
  rcases step_cases f selector s with ⟨-, heq⟩ | ⟨id, tasks, htasks, -, heq⟩ | ⟨id, tasks, htasks, hterminal, heq⟩ |
    ⟨id, family?, tasks, htasks, heq⟩
  · rw [heq]
    exact ⟨hopened, hapart⟩
  · rw [heq]
    rw [htasks] at hopened hapart
    exact ⟨fun hleave => hopened (List.mem_cons_of_mem _ hleave), (List.pairwise_cons.mp hapart).2⟩
  · rw [htasks] at hopened hapart
    obtain ⟨hhead, htail⟩ := List.pairwise_cons.mp hapart
    -- the children are not open, so that they are neither the node nor one to be left later
    have hchild : ∀ child ∈ f.childrenBy id ((s.walk.arrive f id).choose f selector id).1,
        child ∉ (s.walk.arrive f id).onPath := by
      intro child hchild hopen
      obtain ⟨i, family, hchosen, hget, hmem⟩ := Forest.exists_family_of_childrenBy hchild
      refine hclear ⟨id, tasks, i, htasks, hterminal, hchosen, ?_⟩
      rw [Array.getD_eq_getD_getElem?, hget]
      exact List.any_eq_true.mpr ⟨child, hmem, hopen⟩
    have hafter : ∀ {a family?}, .leave a family? ∈
        Task.leave id ((s.walk.arrive f id).choose f selector id).1 :: tasks → a ∈ (s.walk.arrive f id).onPath := by
      intro a family? hleave
      refine Walk.mem_onPath_enter.mpr ?_
      rcases List.mem_cons.mp hleave with heq | hleave
      · cases heq
        exact .inl rfl
      · exact .inr (hopened (List.mem_cons_of_mem _ hleave))
    rw [heq]
    refine ⟨fun {a family?} hleave => ?_, List.pairwise_append.mpr ⟨?_, List.pairwise_cons.mpr ⟨?_, htail⟩, ?_⟩⟩
    · have hlater := (List.mem_append.mp hleave).resolve_left (by simp)
      rw [descend, Walk.follow, ((s.walk.arrive f id).choose_cases f selector id).1.onPath]
      exact hafter hlater
    · refine List.pairwise_map.mpr (List.pairwise_of_forall fun c c' a family? hleave => ?_)
      cases hleave
    · exact hhead
    · rintro task htask later hlater a family? rfl rfl
      obtain ⟨child, hmem, rfl⟩ := List.mem_map.mp htask
      exact hchild child hmem (hafter hlater)
  · rw [htasks] at hopened hapart
    obtain ⟨hhead, htail⟩ := List.pairwise_cons.mp hapart
    rw [heq]
    refine ⟨fun {a family?'} hleave => ?_, htail⟩
    refine Walk.mem_onPath_leave.mpr ⟨fun heq => ?_, hopened (List.mem_cons_of_mem _ hleave)⟩
    exact hhead _ hleave a family?' rfl heq.symm

/-- A tour that never retraces stays simple. -/
theorem after (h : s.Simple) (hclear : s.ClearFrom f selector 0) (n : Nat) : (s.after f selector n).Simple := by
  induction n with
  | zero => exact h
  | succ n ih => exact ih.step (hclear n (Nat.zero_le _))

end Simple
end Tour

/-! ## What a walk has opened -/

/-- The events of the walk leave these nonterminals open, and opened none inside itself. -/
def Walk.Opens (w : Walk α σ) (above : List (String × Span)) : Prop :=
  w.events.toList.foldl Event.track (some []) = some above

namespace Walk.Opens

variable {f : Forest α} {w : Walk α σ} {above : List (String × Span)} {id : NodeId}

theorem emit (h : w.Opens above) {event : Event α} {above' : List (String × Span)}
    (hevent : Event.track (some above) event = some above') : (w.emit event).Opens above' := by
  have hevents : w.events.toList.foldl Event.track (some []) = some above := h
  rw [Opens, Walk.emit, Array.toList_push, List.foldl_append, hevents]
  exact hevent

theorem opening (h : w.Opens above) (hnew : ∀ title ∈ f.title? id, title ∉ above) :
    (w.opening f id).Opens ((f.title? id).toList ++ above) := by
  rcases hlabel : (f.node id).label with (t | A) | slot <;> simp only [Walk.opening, Forest.title?, hlabel] at hnew ⊢
  · exact h
  · exact h.emit (if_neg (hnew _ rfl))
  · exact h

theorem closing (h : w.Opens ((f.title? id).toList ++ above)) : (w.closing f id).Opens above := by
  rcases hlabel : (f.node id).label with (t | A) | slot <;> simp only [Walk.closing, Forest.title?, hlabel] at h ⊢
  · exact h
  · exact h.emit rfl
  · exact h

theorem of_events {w' : Walk α σ} (h : w.Opens above) (hevents : w'.events = w.events) : w'.Opens above := by
  rwa [Opens, hevents]

end Walk.Opens

namespace Tour

variable {f : Forest α} {selector : Selector σ} {s : Tour α σ} {tasks : List Task}

/-- The titles of the nodes that are to be left. -/
def titles (f : Forest α) (tasks : List Task) : List (String × Span) :=
  tasks.flatMap fun
    | .enter _    => []
    | .leave id _ => (f.title? id).toList

theorem exists_leave_of_mem_titles {title : String × Span} (h : title ∈ titles f tasks) :
    ∃ id family?, .leave id family? ∈ tasks ∧ f.title? id = some title := by
  obtain ⟨task, htask, hmem⟩ := List.mem_flatMap.mp h
  match task, hmem with
  | .leave id family?, hmem => exact ⟨id, family?, htask, Option.mem_toList.mp hmem⟩

theorem titles_children (f : Forest α) (ids : List NodeId) (tasks : List Task) :
    titles f (ids.map .enter ++ tasks) = titles f tasks := by
  induction ids with
  | nil => rfl
  | cons id ids ih => exact ih

/-- What is open by the events is what is to be left. -/
theorem opens_step (h : s.walk.Opens (titles f s.tasks)) (hsimple : s.Simple) (hwithin : s.Within f) (htitled : f.Titled) :
    (s.step f selector).walk.Opens (titles f (s.step f selector).tasks) := by
  rcases step_cases f selector s with ⟨-, heq⟩ | ⟨id, tasks, htasks, -, heq⟩ | ⟨id, tasks, htasks, hterminal, heq⟩ |
    ⟨id, family?, tasks, htasks, heq⟩
  · rwa [heq]
  · rw [heq]
    rw [htasks] at h
    exact h.emit rfl
  · obtain ⟨hid, hrest⟩ := List.forall_mem_cons.mp (htasks ▸ hwithin.tasks)
    have hnew : ∀ title ∈ f.title? id, title ∉ titles f tasks := by
      intro title htitle hmem
      obtain ⟨a, family?, hleave, htitle'⟩ := exists_leave_of_mem_titles hmem
      obtain rfl := htitled hid (hrest _ hleave).1 htitle htitle'
      exact hsimple.not_reopens ⟨id, family?, tasks, htasks, hleave⟩
    rw [htasks] at h
    rw [heq, descend, titles_children]
    exact (Walk.Opens.opening h hnew).of_events ((s.walk.arrive f id).choose_cases f selector id).1.events
  · rw [heq]
    rw [htasks] at h
    have hleft : (s.walk.leave id family?).Opens ((f.title? id).toList ++ titles f tasks) := by
      refine Walk.Opens.of_events h ?_
      cases family? <;> rfl
    exact hleft.closing

theorem opens_after [DecidableEq α] {tokens : Array α} {trimmed : Identity → Prop} (hf : f.Exact tokens trimmed)
    (h : s.walk.Opens (titles f s.tasks)) (hsimple : s.Simple) (hwithin : s.Within f) (hclear : s.ClearFrom f selector 0)
    (htitled : f.Titled) (n : Nat) :
    (s.after f selector n).walk.Opens (titles f (s.after f selector n).tasks) := by
  induction n with
  | zero => exact h
  | succ n ih => exact opens_step ih (hsimple.after hclear n) (hwithin.reaches hf ⟨n, rfl⟩) htitled

end Tour

/-! ## Clear walks -/

namespace Walker

variable [DecidableEq α] {f : Forest α} {tokens : Array α} {trimmed : Identity → Prop} {selector : Selector σ}
  {v w : Walker α σ} {root : NodeId} {plan : List Choice}

omit [DecidableEq α] in
theorem simple_tour (v : Walker α σ) (root : NodeId) (plan : List Choice) : (v.tour root plan).Simple :=
  ⟨fun hleave => by simp [tour] at hleave, List.pairwise_singleton ..⟩

namespace Clear

omit [DecidableEq α] in
/-- A clear walk never enters a node that is still to be left. -/
theorem not_reopens (h : v.Clear f selector root plan) (n : Nat) :
    ¬ ((v.tour root plan).after f selector n).Reopens :=
  ((simple_tour v root plan).after h.clear n).not_reopens

/-- A clear walk reports a tree without nested nonterminals. -/
theorem exists_unnested (h : v.Clear f selector root plan) (hf : f.Exact tokens trimmed) (hroots : f.roots = [root])
    (hroot : root < f.size) (htitled : f.Titled) :
    ∃ (tree : Tree α) (madeChoice : Bool), (v.walk 0 plan).events.toList =
      .startTree f.isAmbiguous f.isInfinite :: (tree.events ++ [.endTree madeChoice]) ∧ tree.Unnested [] := by
  have hopens : (v.walk 0 plan).Opens [] := by
    obtain ⟨n, hn⟩ := h.reaches hf hroot
    have hopens := Tour.opens_after (s := v.tour root plan) hf rfl (simple_tour v root plan) (h.within hroot) h.clear htitled n
    rw [hn] at hopens
    rw [walk_eq (h.forest_eq.symm ▸ hroots)]
    exact hopens.emit rfl
  have hfirst : 0 < f.roots.length := by
    rw [hroots]
    exact Nat.one_pos
  obtain ⟨⟨tree, madeChoice, hevents, -⟩, -⟩ := walk_renders hf h.forest_eq hfirst h.lawful
  rw [Walk.Opens, hevents] at hopens
  exact ⟨tree, madeChoice, hevents, (Tree.unnested_iff_track tree _ _ _).mpr hopens⟩

end Clear

/-! ## Calls -/

namespace Reached

variable (h : Reached f selector w) (hf : f.Exact tokens trimmed) (hroots : f.roots = [root]) (hroot : root < f.size)

include h hf hroots hroot

/-- The walk for the next tree is clear if it has no plan or the forest is steady. -/
theorem clear_plan (hclear : w.plan = [] ∨ f.Steady) : w.Clear f selector root w.plan := by
  rcases hclear with hplan | hsteady
  · exact clear_of_plan root (h.lawful hf) (h.orderly hf) hplan
  · obtain ⟨safe, hshelter⟩ := hsteady.exists_shelter hf
    exact (h.recalls hf hshelter hroots hroot).clear hf hshelter hroots hroot (h.lawful hf) (h.orderly hf)

/-- Over a steady forest, the walk for the last tree is clear. -/
theorem clear_last (hsteady : f.Steady) {first : Nat} {choices : List Choice} (hlast : w.last? = some (first, choices)) :
    first = 0 ∧ w.Clear f selector root choices := by
  have hlawful := h.lawful hf
  have horderly := h.orderly hf
  obtain ⟨safe, hshelter⟩ := hsteady.exists_shelter hf
  obtain ⟨hfirst, v, plan, hclear, hchoices, hgrows⟩ := (h.recalls hf hshelter hroots hroot).last hlast
  refine ⟨hfirst, hlawful.forest_eq, horderly.selector_eq, horderly.memory, (hlawful.last hlast).2, ?_⟩
  exact hclear.replay_clear hf hshelter hroots hroot hlawful.forest_eq hgrows hchoices

/-- What is produced comes from a clear walk. -/
theorem exists_clear {produced : Produced α}
    (hproduced : (w.plan = [] ∨ f.Steady) ∧ w.next.result = .ok produced ∨ f.Steady ∧ w.replay.result = .ok produced) :
    ∃ plan, w.Clear f selector root plan ∧ produced = produce (w.walk 0 plan) := by
  rcases hproduced with ⟨hclear, hnext⟩ | ⟨hsteady, hreplay⟩
  · have hopen := exhausted_of_ok hnext
    rw [(next_of_open hopen).1, (h.lawful hf).root_eq hroots hopen] at hnext
    exact ⟨w.plan, h.clear_plan hf hroots hroot hclear, (Except.ok.inj hnext).symm⟩
  · unfold Walker.replay at hreplay
    split at hreplay
    · cases hreplay
    · rename_i first choices hlast
      obtain ⟨rfl, hclear⟩ := h.clear_last hf hroots hroot hsteady hlast
      exact ⟨choices, hclear, (Except.ok.inj hreplay).symm⟩

end Reached
end Walker

namespace Recognizer

variable [DecidableEq α] [Quote α]

/-- Let all rules be about nonterminals of the grammar. Whatever was called before and whatever the selector answers, a tree that is
produced by a walk without a plan has no nonterminal inside itself, by name and extent, and over a steady forest none of
the trees has, be it produced anew or again. Nor does the loop of the walk ever enter a node that is still to be left. -/
theorem trees_unnested (r : Recognizer α) (hp : r.grammar.Built)
    (hnamed : ∀ rule ∈ r.grammar.grammar.rules, rule.lhs < r.grammar.grammar.names.size) (input : Array α) (offset : Nat)
    {f : Forest α} (hf : (r.parseFrom input offset).outcome.forest = some f) (selector : Selector σ) {w : Walker α σ}
    (hw : Walker.Reached f selector w) {produced : Walker.Produced α}
    (hproduced : (w.plan = [] ∨ f.Steady) ∧ w.next.result = .ok produced ∨ f.Steady ∧ w.replay.result = .ok produced) :
    (∃ (tree : Tree α) (madeChoice : Bool), tree.Unnested [] ∧
      produced.events = .startTree f.isAmbiguous f.isInfinite :: (tree.events ++ [.endTree madeChoice])) ∧
    ∃ plan walked, Tour.Reaches f selector (w.tour (f.roots.getD 0 0) plan) ⟨[], walked⟩ ∧
      produced = Walker.produce (walked.emit (.endTree walked.madeChoice)) ∧
      ∀ n, ¬ ((w.tour (f.roots.getD 0 0) plan).after f selector n).Reopens := by
  obtain ⟨hgrammar, -, trimmed, hexact⟩ := r.exists_exact hp input offset hf
  obtain ⟨root, hroots, hroot, -⟩ := hexact.root
  have htitled : f.Titled := by
    refine hexact.titled (r.forest_distinct hp input offset hf) ?_ ?_
    · rw [hgrammar]
      exact hp.grammar_built.nodup_names
    · rwa [hgrammar]
  obtain ⟨plan, hclear, rfl⟩ := hw.exists_clear hexact hroots hroot hproduced
  obtain ⟨tree, madeChoice, hevents, hunnested⟩ := hclear.exists_unnested hexact hroots hroot htitled
  have hfirst : f.roots.getD 0 0 = root := by
    rw [hroots]
    rfl
  rw [hfirst]
  refine ⟨⟨tree, madeChoice, hunnested, hevents⟩, plan, w.visited root plan, hclear.reaches hexact hroot, ?_,
    hclear.not_reopens⟩
  rw [Walker.walk_eq (hclear.forest_eq.symm ▸ hroots)]

/-- The detour needs escapes and is steady: its third tree, produced again, has no nonterminal inside itself. -/
theorem trees_unnested_detour : ∃ (f : Forest Char) (w : Walker Char Unit) (produced : Walker.Produced Char) (tree : Tree Char)
    (madeChoice : Bool), (parseFrom ⟨Sample.detour, .earley {}, none⟩ #[] 0).outcome.forest = some f ∧ f.isInfinite = true ∧
    ¬ f.NeedsNoEscape ∧ w.produced = 3 ∧ w.replay.result = .ok produced ∧ tree.Unnested [] ∧
    produced.events = .startTree f.isAmbiguous f.isInfinite :: (tree.events ++ [.endTree madeChoice]) := by
  have hread : (parseFrom ⟨Sample.detour, .earley {}, none⟩ #[] 0).outcome.forest.map (fun f =>
      let w := (Walker.new f .sequential).after 3
      (f.isInfinite, decide f.NeedsNoEscape, decide f.Steady, w.produced, w.replay.result.isOk)) =
      some (true, false, true, 3, true) := by decide +kernel
  obtain ⟨f, hf, hfacts⟩ := Option.map_eq_some_iff.mp hread
  simp only [Prod.mk.injEq, decide_eq_true_eq, decide_eq_false_iff_not] at hfacts
  obtain ⟨hinfinite, hescape, hsteady, hcount, hok⟩ := hfacts
  cases hresult : ((Walker.new f .sequential).after 3).replay.result with
  | error e => simp [hresult, Except.isOk, Except.toBool] at hok
  | ok produced =>
    obtain ⟨⟨tree, madeChoice, hunnested, hevents⟩, -⟩ := trees_unnested ⟨Sample.detour, .earley {}, none⟩
      (Sample.built_prepareNamed _ _) (by decide +kernel) #[] 0 hf .sequential (.next (.next (.next .new)))
      (.inr ⟨hsteady, hresult⟩)
    exact ⟨f, _, produced, tree, madeChoice, hf, hinfinite, hescape, hcount, hresult, hunnested, hevents⟩

/-- The second tree over the roundabout has `Q` inside `Q`. Below `W` the first walk escapes from `X` by `R`, and chooses `R → Q`
there. The second one escapes from `X` by `Q`, which has been completed meanwhile. So this choice is next in the plan when
the walk comes to `R` below `Q`, and is taken though `Q` is open. -/
theorem trees_nested : Sample.roundabout.Built ∧
    (∀ rule ∈ Sample.roundabout.grammar.rules, rule.lhs < Sample.roundabout.grammar.names.size) ∧
    ∃ (f : Forest Char) (produced : Walker.Produced Char) (tree : Tree Char) (madeChoice : Bool),
    (parseFrom ⟨Sample.roundabout, .earley {}, none⟩ #[] 0).outcome.forest = some f ∧
    ((Walker.new f Sample.lastUntried).after 1).next.result = .ok produced ∧
    produced.events = .startTree f.isAmbiguous f.isInfinite :: (tree.events ++ [.endTree madeChoice]) ∧
    ¬ tree.Unnested [] := by
  have hbuilt : Sample.roundabout.Built := Sample.built_prepareNamed _ _
  have hread : (parseFrom ⟨Sample.roundabout, .earley {}, none⟩ #[] 0).outcome.forest.map (fun f =>
      ((Walker.new f Sample.lastUntried).after 1).next.result.toOption.map fun produced =>
        produced.events.foldl Event.track (some [])) = some (some none) := by decide +kernel
  obtain ⟨f, hf, hfacts⟩ := Option.map_eq_some_iff.mp hread
  obtain ⟨produced, hproduced, htrack⟩ := Option.map_eq_some_iff.mp hfacts
  have hresult : ((Walker.new f Sample.lastUntried).after 1).next.result = .ok produced := by
    cases hresult : ((Walker.new f Sample.lastUntried).after 1).next.result with
    | error e => simp [hresult, Except.toOption] at hproduced
    | ok produced' => simpa [hresult, Except.toOption] using hproduced
  obtain ⟨-, -, trimmed, hexact⟩ := exists_exact ⟨Sample.roundabout, .earley {}, none⟩ hbuilt #[] 0 hf
  have hreached : Walker.Reached f Sample.lastUntried ((Walker.new f Sample.lastUntried).after 1) := .next .new
  have hlawful := hreached.lawful hexact
  obtain ⟨root, plan, hroot, hplan, hevents⟩ := hlawful.exists_walk (.inl hresult)
  obtain ⟨⟨tree, madeChoice, hwalk, -⟩, -⟩ := Walker.walk_renders hexact hlawful.forest_eq hroot hplan
  have hall := hevents.trans hwalk
  refine ⟨hbuilt, by decide +kernel, f, produced, tree, madeChoice, hf, hresult, hall, fun hunnested => ?_⟩
  rw [hall, (Tree.unnested_iff_track tree _ _ _).mp hunnested] at htrack
  cases htrack

end Recognizer
end ContextFree
