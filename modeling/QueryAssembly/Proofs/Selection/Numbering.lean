import QueryAssembly.Proofs.Selection.Scope
import QueryAssembly.Proofs.Selection.Stream

namespace QueryAssembly

/-! The nodes of a selection tree as a forest. However steps are mixed, the numbers
they give out are counted up from zero, every number stands in just one list of
selections, below a smaller one, and reading the tree depth first counts them up
again. -/

namespace SelectionStep

def opens : SelectionStep → Bool
  | .openObject _ => true
  | .addField _ => false
  | .closeObject => false

end SelectionStep

namespace SelectionTree

def walk (tree : SelectionTree) : Nat → List NodeId → List NodeId
  | 0, _ => []
  | height + 1, ids =>
      ids.flatMap fun id => id :: tree.walk height (tree.selections (.object id))

structure IsForest (tree : SelectionTree) : Prop where
  /-- Every number stands once among the selections of the root and of all objects. -/
  once : (tree.root ++ (List.range tree.nodes.length).flatMap fun id =>
    tree.selections (.object id)).Perm (List.range tree.nodes.length)
  below : ∀ parent, ∀ child ∈ tree.selections (.object parent), parent < child
  /-- No bound on the height that leaves room for all nodes cuts the walk short. -/
  preorder : ∀ height, tree.nodes.length ≤ height →
    tree.walk height tree.root = List.range tree.nodes.length
  /-- The open scopes are objects, each directly in the one before. -/
  chain : tree.scopes.IsChain tree.Encloses

def issued? (tree : SelectionTree) : SelectionStep → Option NodeId
  | .addField header => some (tree.addField header).2
  | .openObject header => some (tree.openObject header).2
  | .closeObject => none

def issued (tree : SelectionTree) : List SelectionStep → List NodeId
  | [] => []
  | step :: steps =>
      (tree.issued? step).toList ++ (tree.perform step).issued steps

/-- What a step adds goes by a number that nothing went by before. -/
inductive Issues (tree : SelectionTree) : SelectionStep → NodeId → Prop
  | field {header : SelectionHeader} {id : NodeId}
      (unused : tree.node? id = none)
      (found : (tree.addField header).1.node? id = some (.field header)) :
      Issues tree (.addField header) id
  | object {header : SelectionHeader} {id : NodeId}
      (unused : tree.node? id = none)
      (found : (tree.openObject header).1.node? id = some (.object header [])) :
      Issues tree (.openObject header) id

def closes (tree : SelectionTree) : SelectionStep → Bool
  | .addField _ => false
  | .openObject _ => false
  | .closeObject => tree.closeObject.isOk

def closed (tree : SelectionTree) : List SelectionStep → Nat
  | [] => 0
  | step :: steps =>
      (tree.perform step).closed steps + if tree.closes step then 1 else 0

/-! Nodes that cover a range. -/

section Covering

variable {tree : SelectionTree} {ids : List NodeId} {first last height : Nat}

theorem selections_field {header : SelectionHeader}
    (found : tree.nodes[first]? = some (.field header)) :
    tree.selections (.object first) = [] := by
  simp [selections, node?, found, SelectionNode.children?]

theorem selections_eq_nil (beyond : tree.nodes.length ≤ first) :
    tree.selections (.object first) = [] := by
  simp [selections, node?, List.getElem?_eq_none beyond]

theorem range'_split {middle : Nat} (lower : first ≤ middle) (upper : middle ≤ last) :
    List.range' first (last - first) =
      List.range' first (middle - first) ++ List.range' middle (last - middle) := by
  have shift := @List.range'_append first (middle - first) (last - middle) 1
  simp only [Nat.one_mul] at shift
  rw [Nat.add_sub_of_le lower] at shift
  rw [shift]
  congr 1
  omega

theorem range'_cons (bound : first < last) :
    List.range' first (last - first) =
      first :: List.range' (first + 1) (last - (first + 1)) := by
  have single : first + 1 - first = 1 := by omega
  rw [range'_split (Nat.le_add_right first 1) bound, single]
  rfl

theorem walk_nil (tree : SelectionTree) (height : Nat) : tree.walk height [] = [] := by
  cases height <;> rfl

theorem Covers.walk_eq (covers : Covers tree.nodes ids first last)
    (room : last - first ≤ height) :
    tree.walk height ids = List.range' first (last - first) := by
  induction covers generalizing height with
  | nil => simp [walk_nil]
  | @field first last header rest found after induction =>
      have bound := after.first_le_last
      rcases Nat.exists_eq_add_one_of_ne_zero (by omega : height ≠ 0) with
        ⟨height, rfl⟩
      have onward := @induction (height + 1) (by omega)
      rw [walk] at onward
      rw [walk, List.flatMap_cons, onward, selections_field found, walk_nil,
        range'_cons bound]
      rfl
  | @object first middle last header children rest found below after belowInduction
      afterInduction =>
      have bound := below.first_le_last
      have bound' := after.first_le_last
      rcases Nat.exists_eq_add_one_of_ne_zero (by omega : height ≠ 0) with
        ⟨height, rfl⟩
      have inside := @belowInduction height (by omega)
      have onward := @afterInduction (height + 1) (by omega)
      have split : List.range' first (last - first) = _ := range'_cons (by omega)
      rw [walk] at onward
      rw [walk, List.flatMap_cons, onward, selections_object found, inside, split,
        range'_split bound bound']
      rfl

theorem Covers.perm (covers : Covers tree.nodes ids first last) :
    (ids ++ (List.range' first (last - first)).flatMap fun id =>
      tree.selections (.object id)).Perm (List.range' first (last - first)) := by
  induction covers with
  | nil => simp
  | @field first last header rest found after induction =>
      have bound := after.first_le_last
      rw [range'_cons bound, List.flatMap_cons, selections_field found]
      exact induction.cons first
  | @object first middle last header children rest found below after belowInduction
      afterInduction =>
      have bound := below.first_le_last
      have bound' := after.first_le_last
      have split : List.range' first (last - first) = _ := range'_cons (by omega)
      rw [split, range'_split bound bound', List.flatMap_cons,
        selections_object found, List.flatMap_append, List.cons_append]
      refine List.Perm.cons first (.trans ?_ (belowInduction.append afterInduction))
      -- The children come before the selections of the nodes below them.
      generalize (List.range' (first + 1) (middle - (first + 1))).flatMap _ = inside
      generalize (List.range' middle (last - middle)).flatMap _ = behind
      simp only [← List.append_assoc]
      refine List.Perm.append_right behind ?_
      rw [List.append_assoc]
      exact List.perm_append_comm

theorem Covers.le_of_mem (covers : Covers tree.nodes ids first last) {id : NodeId}
    (member : id ∈ ids) : first ≤ id := by
  induction covers with
  | nil => cases member
  | field _ _ induction =>
      rcases List.mem_cons.mp member with rfl | member
      · exact Nat.le_refl _
      · exact Nat.le_of_succ_le (induction member)
  | object _ below _ _ induction =>
      rcases List.mem_cons.mp member with rfl | member
      · exact Nat.le_refl _
      · exact Nat.le_trans (Nat.le_of_succ_le below.first_le_last) (induction member)

theorem Covers.lt_of_mem_selections (covers : Covers tree.nodes ids first last)
    {parent child : NodeId} (lower : first ≤ parent) (upper : parent < last)
    (member : child ∈ tree.selections (.object parent)) : parent < child := by
  induction covers with
  | nil => exact absurd (Nat.lt_of_le_of_lt lower upper) (Nat.lt_irrefl _)
  | field found _ induction =>
      rcases Nat.eq_or_lt_of_le lower with equal | lower
      · subst equal
        rw [selections_field found] at member
        cases member
      · exact induction lower upper
  | @object first middle last header children rest found below after belowInduction
      afterInduction =>
      rcases Nat.eq_or_lt_of_le lower with equal | lower
      · subst equal
        rw [selections_object found] at member
        exact below.le_of_mem member
      · rcases Nat.lt_or_ge parent middle with inside | behind
        · exact belowInduction lower inside
        · exact afterInduction behind upper

end Covering

theorem InOrder.isForest {tree : SelectionTree} (ordered : tree.InOrder) :
    tree.IsForest where
  once := by
    simpa [List.range_eq_range'] using ordered.covers.perm
  below := by
    intro parent child member
    rcases Nat.lt_or_ge parent tree.nodes.length with inside | beyond
    · exact ordered.covers.lt_of_mem_selections (Nat.zero_le _) inside member
    · rw [selections_eq_nil beyond] at member
      cases member
  preorder := by
    intro height room
    have walked := ordered.covers.walk_eq (Nat.sub_le_of_le_add room)
    simpa [List.range_eq_range'] using walked
  chain := ordered.isChain_scopes

/-! The numbers that nodes are given. -/

theorem node?_push_iff {tree : SelectionTree} (ordered : tree.InOrder)
    (node : SelectionNode) (id : NodeId) :
    (tree.node? id = none ∧ (tree.push node).1.node? id = some node) ↔
      id = tree.nodes.length := by
  constructor
  · rintro ⟨unused, found⟩
    have lower : tree.nodes.length ≤ id := List.getElem?_eq_none_iff.mp unused
    have upper := (List.getElem?_eq_some_iff.mp found).1
    rw [length_nodes_push] at upper
    exact Nat.le_antisymm (Nat.le_of_lt_succ upper) lower
  · rintro rfl
    rcases ordered with ⟨path, along⟩
    exact ⟨List.getElem?_eq_none (Nat.le_refl _), (along.push_grows node).added⟩

theorem issues_iff {tree : SelectionTree} (ordered : tree.InOrder)
    {step : SelectionStep} (adding : step.adds) (id : NodeId) :
    tree.Issues step id ↔ id = tree.nodes.length := by
  cases step with
  | addField header =>
      rw [← node?_push_iff ordered (.field header)]
      constructor
      · intro issued
        cases issued with
        | field unused found => exact ⟨unused, found⟩
      · rintro ⟨unused, found⟩
        exact .field unused found
  | openObject header =>
      rw [← node?_push_iff ordered (.object header [])]
      constructor
      · intro issued
        cases issued with
        | object unused found => exact ⟨unused, found⟩
      · rintro ⟨unused, found⟩
        exact .object unused found
  | closeObject => cases adding

theorem issued?_eq (tree : SelectionTree) (step : SelectionStep) :
    tree.issued? step = if step.adds then some tree.nodes.length else none := by
  cases step with
  | addField header => exact congrArg some (push_snd tree _)
  | openObject header => exact congrArg some (push_snd tree _)
  | closeObject => rfl

theorem issued_eq_range' (tree : SelectionTree) (steps : List SelectionStep) :
    tree.issued steps =
      List.range' tree.nodes.length (steps.countP SelectionStep.adds) := by
  induction steps generalizing tree with
  | nil => rfl
  | cons step steps induction =>
      have onward := induction (tree.perform step)
      rw [length_nodes_perform] at onward
      rw [issued, onward, issued?_eq, List.countP_cons]
      cases step.adds with
      | false => rfl
      | true => exact List.range'_succ.symm

/-! Objects that are opened and closed. -/

theorem closeObject_error_iff (tree : SelectionTree) :
    (∃ cause, tree.closeObject = .error cause) ↔ tree.openDepth = 0 := by
  rw [closeObject_eq]
  by_cases none_open : tree.openDepth = 0 <;> simp [none_open]

theorem closeObject_eq_error {tree : SelectionTree} (none_open : tree.openDepth = 0) :
    tree.closeObject = .error .unbalancedScope := by
  rw [closeObject_eq, if_pos none_open]

theorem openDepth_perform_closes {tree : SelectionTree} (ordered : tree.InOrder)
    (step : SelectionStep) :
    ((tree.perform step).openDepth + if tree.closes step then 1 else 0) =
      tree.openDepth + if step.opens then 1 else 0 := by
  rw [openDepth_perform ordered]
  cases step with
  | addField header => rfl
  | openObject header => rfl
  | closeObject =>
      rw [closes, closeObject_eq]
      cases tree.openDepth <;> rfl

theorem openDepth_add_closed {tree : SelectionTree} (ordered : tree.InOrder)
    (steps : List SelectionStep) :
    (tree.performAll steps).openDepth + tree.closed steps =
      tree.openDepth + steps.countP SelectionStep.opens := by
  induction steps generalizing tree with
  | nil => rfl
  | cons step steps induction =>
      have onward := induction (inOrder_perform ordered step)
      have next := openDepth_perform_closes ordered step
      simp only [performAll, List.foldl_cons, List.countP_cons, closed] at onward ⊢
      omega

/-- However a tree is built, its nodes are a forest, numbered from zero as they are
added, and a close fails only where nothing is open. -/
theorem performAll_isForest (steps : List SelectionStep) :
    (performAll ∅ steps).IsForest ∧
      (performAll ∅ steps).nodes.length = steps.countP SelectionStep.adds ∧
      issued ∅ steps = List.range (steps.countP SelectionStep.adds) ∧
      (∀ step : SelectionStep, step.adds →
        (performAll ∅ steps).issued? step = some (steps.countP SelectionStep.adds) ∧
        ∀ id, (performAll ∅ steps).Issues step id ↔
          id = steps.countP SelectionStep.adds) ∧
      (performAll ∅ steps).openDepth + closed ∅ steps =
        steps.countP SelectionStep.opens ∧
      ((∃ cause, (performAll ∅ steps).closeObject = .error cause) ↔
        (performAll ∅ steps).openDepth = 0) ∧
      ((performAll ∅ steps).openDepth = 0 →
        (performAll ∅ steps).closeObject = .error .unbalancedScope ∧
          (performAll ∅ steps).perform .closeObject = performAll ∅ steps) := by
  have ordered : (performAll ∅ steps).InOrder := inOrder_performAll inOrder_empty steps
  have count : (performAll ∅ steps).nodes.length = steps.countP SelectionStep.adds := by
    rw [length_nodes_performAll]
    exact Nat.zero_add _
  have numbers : issued ∅ steps = List.range (steps.countP SelectionStep.adds) := by
    rw [issued_eq_range', List.range_eq_range']
    rfl
  have depth : (performAll ∅ steps).openDepth + closed ∅ steps =
      steps.countP SelectionStep.opens := by
    rw [openDepth_add_closed inOrder_empty]
    exact Nat.zero_add _
  refine ⟨ordered.isForest, count, numbers, fun step adding => ⟨?_, fun id => ?_⟩,
    depth, closeObject_error_iff _, fun none_open => ?_⟩
  · rw [issued?_eq, if_pos adding, count]
  · rw [issues_iff ordered adding, count]
  · have refused := closeObject_eq_error none_open
    exact ⟨refused, by rw [perform, refused]⟩

def bareHeader (name : Text) : SelectionHeader := ⟨name, ∅, none⟩

def closedTwice : List SelectionStep :=
  [.openObject (bareHeader "user".toList), .addField (bareHeader "id".toList),
    .closeObject, .addField (bareHeader "total".toList), .closeObject]

theorem performAll_isForest_closedTwice :
    (performAll ∅ closedTwice).root = [0, 2] ∧
      (performAll ∅ closedTwice).walk 3 [0, 2] = [0, 1, 2] ∧
      issued ∅ closedTwice = [0, 1, 2] ∧
      (performAll ∅ closedTwice).Issues (.addField (bareHeader "next".toList)) 3 ∧
      (performAll ∅ closedTwice).closeObject = .error .unbalancedScope := by
  obtain ⟨forest, -, numbers, issues, -, -, refused⟩ := performAll_isForest closedTwice
  exact ⟨rfl, forest.preorder 3 (Nat.le_refl _), numbers,
    ((issues _ rfl).2 3).mpr rfl, (refused rfl).1⟩

end SelectionTree

end QueryAssembly
