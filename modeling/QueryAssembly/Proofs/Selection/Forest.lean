import QueryAssembly.Selection.Operation

namespace QueryAssembly

/-! A selection tree grows by steps. However they are mixed, its nodes read
depth first are numbered without gaps in the order in which they were added,
and the open objects are the last ones on their levels. -/

inductive SelectionStep
  | addField (header : SelectionHeader)
  | openObject (header : SelectionHeader)
  | closeObject

namespace SelectionStep

def adds : SelectionStep → Bool
  | .addField _ => true
  | .openObject _ => true
  | .closeObject => false

end SelectionStep

namespace SelectionTree

def perform (tree : SelectionTree) : SelectionStep → SelectionTree
  | .addField header => (tree.addField header).1
  | .openObject header => (tree.openObject header).1
  | .closeObject =>
      match tree.closeObject with
      | .ok closed => closed
      | .error _ => tree

def performAll (tree : SelectionTree) (steps : List SelectionStep) :
    SelectionTree :=
  steps.foldl perform tree

/-- The given nodes and those below them, read depth first, are numbered from
`first` up to `last`, which is not among them. -/
inductive Covers (nodes : List SelectionNode) :
    List NodeId → Nat → Nat → Prop
  | nil {first : Nat} : Covers nodes [] first first
  | field {first last : Nat} {header : SelectionHeader} {rest : List NodeId}
      (found : nodes[first]? = some (.field header))
      (after : Covers nodes rest (first + 1) last) :
      Covers nodes (first :: rest) first last
  | object {first middle last : Nat} {header : SelectionHeader}
      {children rest : List NodeId}
      (found : nodes[first]? = some (.object header children))
      (below : Covers nodes children (first + 1) middle)
      (after : Covers nodes rest middle last) :
      Covers nodes (first :: rest) first last

/-- Like `Covers`, where each object of `path` is the last one on its level and
holds the next one. -/
inductive Opens (nodes : List SelectionNode) :
    List NodeId → List NodeId → Nat → Nat → Prop
  | here {ids : List NodeId} {first last : Nat}
      (covers : Covers nodes ids first last) : Opens nodes [] ids first last
  | inside {front path children : List NodeId} {first parent last : Nat}
      {header : SelectionHeader}
      (before : Covers nodes front first parent)
      (found : nodes[parent]? = some (.object header children))
      (inner : Opens nodes path children (parent + 1) last) :
      Opens nodes (parent :: path) (front ++ [parent]) first last

/-- The open scopes are the root and, inside it, the objects of `path`, which lead
through the nodes to the place where the next one is added. -/
structure OpenAlong (tree : SelectionTree) (path : List NodeId) : Prop where
  framed : tree.scopes = .root :: path.map .object
  opens : Opens tree.nodes path tree.root 0 tree.nodes.length

def InOrder (tree : SelectionTree) : Prop :=
  ∃ path, tree.OpenAlong path

namespace Covers

variable {nodes changed : List SelectionNode} {ids more : List NodeId}
  {first middle last : Nat}

theorem first_le_last (covers : Covers nodes ids first last) :
    first ≤ last := by
  induction covers with
  | nil => exact Nat.le_refl _
  | field _ _ induction => omega
  | object _ _ _ belowInduction afterInduction => omega

theorem append (left : Covers nodes ids first middle)
    (right : Covers nodes more middle last) :
    Covers nodes (ids ++ more) first last := by
  induction left with
  | nil => exact right
  | field found _ induction => exact .field found (induction right)
  | object found below _ _ induction =>
      exact .object found below (induction right)

theorem congr (covers : Covers nodes ids first last)
    (same : ∀ id, first ≤ id → id < last → changed[id]? = nodes[id]?) :
    Covers changed ids first last := by
  induction covers with
  | nil => exact .nil
  | field found after induction =>
      have bound := after.first_le_last
      refine .field ((same _ (Nat.le_refl _) (by omega)).trans found) ?_
      exact induction fun id lower upper => same id (by omega) upper
  | object found below after belowInduction afterInduction =>
      have bound := below.first_le_last
      have bound' := after.first_le_last
      refine .object ((same _ (Nat.le_refl _) (by omega)).trans found)
        (belowInduction fun id lower upper => ?_)
        (afterInduction fun id lower upper => ?_)
      · exact same id (by omega) (by omega)
      · exact same id (by omega) upper

theorem leaf {node : SelectionNode} (found : nodes[first]? = some node)
    (childless : node.children?.getD [] = []) :
    Covers nodes [first] first (first + 1) := by
  cases node with
  | field header => exact .field found .nil
  | object header children =>
      simp only [SelectionNode.children?, Option.getD_some] at childless
      subst childless
      exact .object found .nil .nil

end Covers

namespace Opens

variable {nodes changed : List SelectionNode} {path ids : List NodeId}
  {first last : Nat}

theorem first_le_last (opens : Opens nodes path ids first last) :
    first ≤ last := by
  induction opens with
  | here covers => exact covers.first_le_last
  | inside before _ _ induction =>
      have bound := before.first_le_last
      omega

theorem first_le_of_mem (opens : Opens nodes path ids first last)
    {id : NodeId} (member : id ∈ path) : first ≤ id := by
  induction opens with
  | here _ => cases member
  | inside before _ _ induction =>
      have bound := before.first_le_last
      rcases List.mem_cons.mp member with equal | member
      · subst equal
        exact bound
      · have inner := induction member
        omega

theorem lt_of_mem (opens : Opens nodes path ids first last) {id : NodeId}
    (member : id ∈ path) : id < last := by
  induction opens with
  | here _ => cases member
  | inside _ _ inner induction =>
      rcases List.mem_cons.mp member with equal | member
      · subst equal
        exact inner.first_le_last
      · exact induction member

theorem covers (opens : Opens nodes path ids first last) :
    Covers nodes ids first last := by
  induction opens with
  | here covers => exact covers
  | inside before found _ induction =>
      exact before.append (.object found induction .nil)

theorem dropLast (opens : Opens nodes path ids first last) :
    Opens nodes path.dropLast ids first last := by
  induction opens with
  | here covers => exact .here covers
  | @inside front path children first parent last header before found inner
      induction =>
      cases path with
      | nil => exact .here (before.append (.object found inner.covers .nil))
      | cons next path => exact .inside before found induction

end Opens

/-! A node is added below the objects of a path. -/

/-- How the numbered nodes change when `node` is added below `path`: it takes
the number `last`, and the innermost object of the path adopts it. -/
structure Grows (nodes changed : List SelectionNode) (path : List NodeId)
    (node : SelectionNode) (first last : Nat) : Prop where
  added : changed[last]? = some node
  adopted : ∀ parent, path.getLast? = some parent →
    changed[parent]? = nodes[parent]?.map (SelectionNode.adopt last)
  kept : ∀ id, first ≤ id → id < last → path.getLast? ≠ some id →
    changed[id]? = nodes[id]?

def levelAfter (path ids : List NodeId) (added : NodeId) : List NodeId :=
  if path.isEmpty then ids ++ [added] else ids

namespace Grows

variable {nodes changed : List SelectionNode} {path : List NodeId}
  {node : SelectionNode} {first parent last : Nat} {header : SelectionHeader}
  {children : List NodeId}

theorem outermost
    (grows : Grows nodes changed (parent :: path) node first last)
    (found : nodes[parent]? = some (.object header children))
    (inner : Opens nodes path children (parent + 1) last)
    (above : first ≤ parent) :
    changed[parent]? = some (.object header (levelAfter path children last)) := by
  have bound := inner.first_le_last
  cases path with
  | nil =>
      rw [grows.adopted parent rfl, found]
      rfl
  | cons next path =>
      have different : (parent :: next :: path).getLast? ≠ some parent := by
        rw [List.getLast?_cons_cons]
        intro same
        have below := inner.first_le_of_mem (List.mem_of_getLast? same)
        omega
      rw [grows.kept parent above (by omega) different, found]
      rfl

theorem inside
    (grows : Grows nodes changed (parent :: path) node first last)
    (above : first ≤ parent) :
    Grows nodes changed path node (parent + 1) last where
  added := grows.added
  adopted := by
    intro id innermost
    refine grows.adopted id ?_
    cases path with
    | nil => cases innermost
    | cons next path => simpa using innermost
  kept := by
    intro id lower upper different
    refine grows.kept id (by omega) upper ?_
    cases path with
    | nil =>
        intro same
        simp only [List.getLast?_singleton, Option.some.injEq] at same
        subst same
        exact Nat.not_succ_le_self _ lower
    | cons next path => simpa using different

theorem kept_before
    (grows : Grows nodes changed (parent :: path) node first last)
    (found : nodes[parent]? = some (.object header children))
    (inner : Opens nodes path children (parent + 1) last) (id : Nat)
    (above : first ≤ id) (below : id < parent) : changed[id]? = nodes[id]? := by
  have bound := inner.first_le_last
  refine grows.kept id above (by omega) fun innermost => ?_
  have reached : parent ≤ id :=
    (Opens.inside .nil found inner).first_le_of_mem
      (List.mem_of_getLast? innermost)
  omega

end Grows

namespace Opens

variable {nodes changed : List SelectionNode} {path ids : List NodeId}
  {node : SelectionNode} {first last : Nat}

theorem grow (opens : Opens nodes path ids first last)
    (grows : Grows nodes changed path node first last)
    (childless : node.children?.getD [] = []) :
    Opens changed path (levelAfter path ids last) first (last + 1) := by
  induction opens with
  | here covers =>
      have kept : Covers changed _ _ _ :=
        covers.congr fun id above below => grows.kept id above below (by simp)
      exact .here (kept.append (.leaf grows.added childless))
  | @inside front path children first parent last header before found inner
      induction =>
      -- What stands before the outermost open object is left alone; its own
      -- children grow.
      have above := before.first_le_last
      have kept := before.congr (grows.kept_before found inner)
      exact .inside kept (grows.outermost found inner above)
        (induction (grows.inside above))

theorem grow_open {header : SelectionHeader}
    (opens : Opens nodes path ids first last)
    (grows : Grows nodes changed path (.object header []) first last) :
    Opens changed (path ++ [last]) (levelAfter path ids last) first
      (last + 1) := by
  induction opens with
  | here covers =>
      have kept : Covers changed _ _ _ :=
        covers.congr fun id above below => grows.kept id above below (by simp)
      exact .inside kept grows.added (.here .nil)
  | @inside front path children first parent last header before found inner
      induction =>
      have above := before.first_le_last
      have kept := before.congr (grows.kept_before found inner)
      exact .inside kept (grows.outermost found inner above)
        (induction (grows.inside above))

end Opens

/-! What the operations of a tree do to its scopes and to its nodes. -/

section Push

variable (tree : SelectionTree) (node : SelectionNode)

@[simp] theorem push_snd : (tree.push node).2 = tree.nodes.length := by
  unfold push
  split <;> rfl

@[simp] theorem scopes_push : (tree.push node).1.scopes = tree.scopes := by
  unfold push
  split <;> rfl

@[simp] theorem length_nodes_push :
    (tree.push node).1.nodes.length = tree.nodes.length + 1 := by
  unfold push
  split <;> simp

theorem scopes_openObject (header : SelectionHeader) :
    (tree.openObject header).1.scopes =
      tree.scopes ++ [.object tree.nodes.length] := by
  simp [openObject]

theorem closeObject_eq :
    tree.closeObject =
      if tree.openDepth = 0 then .error .unbalancedScope
      else .ok { tree with scopes := tree.scopes.dropLast } := by
  simp only [closeObject, openDepth, Nat.sub_eq_zero_iff_le]

theorem perform_closeObject :
    tree.perform .closeObject =
      if tree.openDepth = 0 then tree
      else { tree with scopes := tree.scopes.dropLast } := by
  rw [perform, closeObject_eq]
  by_cases none_open : tree.openDepth = 0 <;> simp only [none_open, if_true, if_false]

end Push

namespace OpenAlong

variable {tree closed : SelectionTree} {path : List NodeId}

theorem empty : OpenAlong ∅ [] := ⟨rfl, .here .nil⟩

theorem innermost_eq (along : tree.OpenAlong path) :
    tree.innermost = (path.getLast?.map Scope.object).getD .root := by
  rw [innermost, along.framed, List.getLast?_cons, List.getLast?_map]
  rfl

theorem openDepth_eq (along : tree.OpenAlong path) :
    tree.openDepth = path.length := by
  rw [openDepth, along.framed, List.length_cons, List.length_map,
    Nat.add_sub_cancel]

theorem push_grows (along : tree.OpenAlong path) (node : SelectionNode) :
    Grows tree.nodes (tree.push node).1.nodes path node 0
      tree.nodes.length := by
  have scope := along.innermost_eq
  cases last : path.getLast? with
  | none =>
      rw [last] at scope
      refine ⟨?_, by simp [last], fun id _ upper _ => ?_⟩
      · simp [push, scope]
      · simp [push, scope, List.getElem?_append_left upper]
  | some parent =>
      rw [last] at scope
      have bound : parent < tree.nodes.length :=
        along.opens.lt_of_mem (List.mem_of_getLast? last)
      refine ⟨?_, fun id innermost => ?_, fun id _ upper different => ?_⟩
      · have other : parent ≠ tree.nodes.length := Nat.ne_of_lt bound
        simp [push, scope, other]
      · rw [last] at innermost
        cases innermost
        simp [push, scope, List.getElem?_append_left bound]
      · have other : parent ≠ id := fun same => different (same ▸ last)
        simp [push, scope, other, List.getElem?_append_left upper]

theorem push_root (along : tree.OpenAlong path) (node : SelectionNode) :
    (tree.push node).1.root =
      levelAfter path tree.root tree.nodes.length := by
  have scope := along.innermost_eq
  cases last : path.getLast? with
  | none =>
      rw [last] at scope
      cases List.getLast?_eq_none_iff.mp last
      simp [push, scope, levelAfter]
  | some parent =>
      rw [last] at scope
      have inside : path.isEmpty = false := by
        cases path with
        | nil => cases last
        | cons _ _ => rfl
      simp [push, scope, levelAfter, inside]

protected theorem push (along : tree.OpenAlong path) {node : SelectionNode}
    (childless : node.children?.getD [] = []) :
    (tree.push node).1.OpenAlong path where
  framed := (scopes_push tree node).trans along.framed
  opens := by
    rw [along.push_root, length_nodes_push]
    exact along.opens.grow (along.push_grows node) childless

protected theorem openObject (along : tree.OpenAlong path)
    (header : SelectionHeader) :
    (tree.openObject header).1.OpenAlong (path ++ [tree.nodes.length]) where
  framed := by
    rw [scopes_openObject, along.framed, List.map_append, List.map_singleton,
      List.cons_append]
  opens := by
    simp only [openObject, along.push_root, length_nodes_push]
    exact along.opens.grow_open (along.push_grows _)

protected theorem closeObject (along : tree.OpenAlong path)
    (done : tree.closeObject = .ok closed) :
    closed.OpenAlong path.dropLast := by
  rw [closeObject, along.framed] at done
  split at done
  · cases done
  · next inside =>
    cases done
    have objects : path.map Scope.object ≠ [] := by
      intro none_open
      exact inside (by simp [none_open])
    refine ⟨?_, along.opens.dropLast⟩
    change (Scope.root :: path.map Scope.object).dropLast = _
    rw [List.dropLast_cons_of_ne_nil objects, List.map_dropLast]

end OpenAlong

/-! Trees stay in order. -/

theorem inOrder_empty : (∅ : SelectionTree).InOrder := ⟨[], .empty⟩

theorem inOrder_push {tree : SelectionTree} (ordered : tree.InOrder)
    {node : SelectionNode} (childless : node.children?.getD [] = []) :
    (tree.push node).1.InOrder :=
  ordered.imp fun _ along => along.push childless

theorem inOrder_openObject {tree : SelectionTree} (ordered : tree.InOrder)
    (header : SelectionHeader) : (tree.openObject header).1.InOrder := by
  rcases ordered with ⟨path, along⟩
  exact ⟨_, along.openObject header⟩

theorem inOrder_closeObject {tree closed : SelectionTree}
    (ordered : tree.InOrder) (done : tree.closeObject = .ok closed) :
    closed.InOrder := by
  rcases ordered with ⟨path, along⟩
  exact ⟨_, along.closeObject done⟩

theorem InOrder.covers {tree : SelectionTree} (ordered : tree.InOrder) :
    Covers tree.nodes tree.root 0 tree.nodes.length := by
  rcases ordered with ⟨path, along⟩
  exact along.opens.covers

theorem inOrder_perform {tree : SelectionTree} (ordered : tree.InOrder)
    (step : SelectionStep) : (tree.perform step).InOrder := by
  cases step with
  | addField header => exact inOrder_push ordered rfl
  | openObject header => exact inOrder_openObject ordered header
  | closeObject =>
      simp only [perform]
      split
      · next closed done => exact inOrder_closeObject ordered done
      · exact ordered

theorem inOrder_performAll {tree : SelectionTree} (ordered : tree.InOrder)
    (steps : List SelectionStep) : (tree.performAll steps).InOrder := by
  induction steps generalizing tree with
  | nil => exact ordered
  | cons step steps induction => exact induction (inOrder_perform ordered step)

end SelectionTree

end QueryAssembly
