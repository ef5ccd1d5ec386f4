-- SUMMARY: A builder that reads the events of trees appends these trees, whatever it has read before.
import ContextFree.Tree.Builder
import ContextFree.Proofs.Walk.ParseTrees

/-!
# Building trees from their events

The events of a tree do to any builder what attaching the tree at once does: the node that is opened collects the children, and
closing it leaves the nodes below it on the stack as they were. Whatever was open or collected when a tree starts is
dropped, so only the trees already built are left from earlier events, well formed or not.
-/
namespace ContextFree

variable {α : Type}

/-! ## Atoms of events -/

/-- The atoms of the token events, in order. -/
def Event.atoms (events : List (Event α)) : List α :=
  (events.filterMap taken?).flatMap (·.1)

theorem Event.atoms_append (events events' : List (Event α)) : atoms (events ++ events') = atoms events ++ atoms events' := by
  rw [atoms, List.filterMap_append, List.flatMap_append]
  rfl

namespace Tree

mutual

theorem atoms_events : ∀ tree : Tree α, Event.atoms tree.events = tree.yield
  | node name attributes span children => by
    rw [yield, ← atoms_eventsAll children, events, ← List.cons_append, Event.atoms_append]
    exact List.append_nil _
  | leaf tokens attributes span => by
    rw [yield, events]
    exact List.append_nil _

theorem atoms_eventsAll : ∀ trees : List (Tree α), Event.atoms (eventsAll trees) = yieldAll trees
  | [] => rfl
  | tree :: trees => by rw [eventsAll, yieldAll, Event.atoms_append, atoms_events, atoms_eventsAll]

end

end Tree

namespace TreeBuilder

/-! ## Reading the events of trees -/

theorem feed_cons (b : TreeBuilder α) (event : Event α) (events : List (Event α)) :
    b.feed (event :: events) = (b.step event).feed events :=
  rfl

theorem feed_append (b : TreeBuilder α) (events events' : List (Event α)) :
    b.feed (events ++ events') = (b.feed events).feed events' :=
  List.foldl_append

/-- Trees that are attached while a node is open become its children. -/
theorem foldl_attach_opened (trees : List (Tree α)) (b : TreeBuilder α) (parent : OpenNode α) (rest : List (OpenNode α)) :
    trees.foldl attach { b with opened := parent :: rest } =
      { b with opened := { parent with children := trees.reverse ++ parent.children } :: rest } := by
  induction trees generalizing parent with
  | nil => rfl
  | cons tree trees ih =>
    have hattach : { b with opened := parent :: rest }.attach tree =
        { b with opened := { parent with children := tree :: parent.children } :: rest } := rfl
    rw [List.foldl_cons, hattach, ih, List.reverse_cons, List.append_assoc, List.singleton_append]

/-- Trees that are attached while no node is open become roots. -/
theorem foldl_attach_roots (trees roots : List (Tree α)) (info : TreeInfo) (built : Array (Tree α × TreeInfo)) :
    trees.foldl attach ⟨[], roots, info, built⟩ = ⟨[], trees.reverse ++ roots, info, built⟩ := by
  induction trees generalizing roots with
  | nil => rfl
  | cons tree trees ih =>
    have hattach : attach ⟨[], roots, info, built⟩ tree = ⟨[], tree :: roots, info, built⟩ := rfl
    rw [List.foldl_cons, hattach, ih, List.reverse_cons, List.append_assoc, List.singleton_append]

mutual

/-- Reading the events of a tree is attaching it, whatever is open. -/
theorem feed_events (b : TreeBuilder α) : ∀ tree : Tree α, b.feed tree.events = b.attach tree
  | .node name attributes span children => by
    -- The node is open while its children are read, with what was open before below it.
    have hopened : b.step (.opening name attributes span) = { b with opened := { name, attributes, span } :: b.opened } := rfl
    have hclosed : OpenNode.close { name, attributes, span, children := children.reverse ++ [] } =
        .node name attributes span children := by
      rw [OpenNode.close, List.append_nil, List.reverse_reverse]
    rw [Tree.events, feed_cons, feed_append, feed_eventsAll, hopened, foldl_attach_opened]
    exact congrArg b.attach hclosed
  | .leaf tokens attributes span => rfl

theorem feed_eventsAll (b : TreeBuilder α) : ∀ trees : List (Tree α), b.feed (Tree.eventsAll trees) = trees.foldl attach b
  | [] => rfl
  | tree :: trees => by
    rw [Tree.eventsAll, feed_append, feed_events, feed_eventsAll, List.foldl_cons]

end

/-! ## Whole trees -/

/-- What a list of outermost trees becomes: nothing, the only tree, or a nameless node over all, from the start of the first
to the end of the last. -/
inductive Gathers : List (Tree α) → List (Tree α) → Prop where
  | nothing : Gathers [] []
  | single (tree : Tree α) : Gathers [tree] [tree]
  | several (first last : Tree α) (between : List (Tree α)) : Gathers (first :: (between ++ [last]))
      [.node "" .empty ⟨first.span.start, last.span.stop⟩ (first :: (between ++ [last]))]

theorem gathers_join : ∀ trees : List (Tree α), Gathers trees (join trees).toList
  | [] => .nothing
  | [tree] => .single tree
  | first :: second :: rest => by
    obtain ⟨between, last, heq⟩ : ∃ between last, second :: rest = between ++ [last] :=
      ⟨_, _, (List.dropLast_append_getLast (List.cons_ne_nil second rest)).symm⟩
    have hlast : (first :: second :: rest).getLast? = some last := by
      rw [heq, ← List.cons_append, List.getLast?_concat]
    rw [join, hlast, heq]
    · exact .several first last between
    · simp

/-- Gathering loses no atoms. -/
theorem Gathers.yield {trees built : List (Tree α)} (h : Gathers trees built) :
    built.flatMap Tree.yield = Tree.yieldAll trees := by
  cases h with
  | nothing => rfl
  | single tree => rfl
  | several first last between => exact List.append_nil _

theorem toList_trees_endTree (b : TreeBuilder α) (madeChoice : Bool) : (b.step (.endTree madeChoice)).trees.toList =
    b.trees.toList ++ (join b.roots.reverse).toList.map fun tree => (tree, { b.info with madeChoice }) := by
  cases hjoin : join b.roots.reverse with
  | none => simp [step, hjoin]
  | some tree => simp [step, hjoin]

/-- A builder that has read anything before reads the events of trees between the start and the end of a tree, and appends what
the trees are gathered to, with the flags of the start and the end. The trees built before stay, and the atoms of what
is appended are those of the token events. -/
theorem feed_gathers (b : TreeBuilder α) (trees : List (Tree α)) (ambiguous infinite madeChoice : Bool) :
    let events := .startTree ambiguous infinite :: (Tree.eventsAll trees ++ [.endTree madeChoice])
    ∃ built : List (Tree α), Gathers trees built ∧
      (b.feed events).trees.toList = b.trees.toList ++ built.map (·, ⟨ambiguous, infinite, madeChoice⟩) ∧
      built.flatMap Tree.yield = Event.atoms events := by
  intro events
  have hgathers := gathers_join trees
  refine ⟨(join trees).toList, hgathers, ?_, ?_⟩
  · have hstarted : b.step (.startTree ambiguous infinite) = ⟨[], [], { ambiguous, infinite }, b.trees⟩ := rfl
    have hroots : (b.step (.startTree ambiguous infinite)).feed (Tree.eventsAll trees) =
        ⟨[], trees.reverse, { ambiguous, infinite }, b.trees⟩ := by
      rw [feed_eventsAll, hstarted, foldl_attach_roots, List.append_nil]
    rw [feed_cons, feed_append, hroots]
    exact (toList_trees_endTree _ madeChoice).trans (by rw [List.reverse_reverse])
  · have hatoms : Event.atoms events = Event.atoms (Tree.eventsAll trees) := by
      rw [← List.append_nil (Event.atoms (Tree.eventsAll trees))]
      exact Event.atoms_append (.startTree ambiguous infinite :: Tree.eventsAll trees) _
    rw [hatoms, Tree.atoms_eventsAll, hgathers.yield]

-- A builder that was left with an open node and a root builds the next tree from its own events.
example :
    let leaf : Tree Char := .leaf ['a', 'a'] .empty ⟨1, 3⟩
    let node : Tree Char := .node "B" .empty ⟨3, 3⟩ []
    let left : TreeBuilder Char := { opened := [⟨"A", .empty, ⟨0, 9⟩, [node]⟩], roots := [leaf], trees := #[(node, {})] }
    (left.feed (.startTree true false :: (Tree.eventsAll [leaf, node] ++ [.endTree true]))).trees =
      #[(node, {}), (.node "" .empty ⟨1, 3⟩ [leaf, node], ⟨true, false, true⟩)] := rfl

end TreeBuilder
end ContextFree
