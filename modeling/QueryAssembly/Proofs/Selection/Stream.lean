import QueryAssembly.Proofs.Selection.Forest

namespace QueryAssembly

/-! The text of an operation can be written while the steps are read: each step
writes its lines at the depth reached before it, and nothing written earlier
changes. Objects that are open at the end are closed by further steps. -/

namespace SelectionStep

def depthAfter (depth : Nat) : SelectionStep → Nat
  | .addField _ => depth
  | .openObject _ => depth + 1
  | .closeObject => depth - 1

def text (depth : Nat) : SelectionStep → Text
  | .addField header =>
      List.replicate (2 * (depth + 1)) ' ' ++ header.render ++ ['\n']
  | .openObject header =>
      List.replicate (2 * (depth + 1)) ' ' ++ header.render ++
        [' ', '\x7b', '\n']
  | .closeObject =>
      if depth = 0 then [] else List.replicate (2 * depth) ' ' ++ ['\x7d', '\n']

/-- The steps followed by those that close what they leave open. -/
def completed (steps : List SelectionStep) : List SelectionStep :=
  steps ++ List.replicate (steps.foldl depthAfter 0) .closeObject

def streamed : Nat → List SelectionStep → Text
  | _, [] => []
  | depth, step :: rest =>
      step.text depth ++ streamed (step.depthAfter depth) rest

end SelectionStep

namespace SelectionTree

/-- The lines that close `count` objects, the outermost at `depth`. -/
def closings (depth : Nat) : Nat → Text
  | 0 => []
  | count + 1 => indentation (depth + count) ++ ['\x7d', '\n'] ++
      closings depth count

theorem closings_succ (depth count : Nat) :
    closings depth (count + 1) =
      closings (depth + 1) count ++ (indentation depth ++ ['\x7d', '\n']) := by
  induction count with
  | zero => simp [closings]
  | succ count induction =>
      rw [closings, induction, closings]
      simp [Nat.add_assoc, Nat.add_comm 1]

/-! The text of a tree before and after a node is added to it. -/

section Rendering

variable {tree changed : SelectionTree} {ids front path children : List NodeId}
  {first parent last height height' depth : Nat} {header : SelectionHeader}

theorem renderNodes_append (height depth : Nat) (ids more : List NodeId) :
    tree.renderNodes height depth (ids ++ more) =
      tree.renderNodes height depth ids ++
        tree.renderNodes height depth more := by
  cases height with
  | zero => rfl
  | succ height => simp [renderNodes]

theorem renderNodes_field
    (found : tree.nodes[first]? = some (.field header)) :
    tree.renderNodes (height + 1) depth [first] =
      indentation depth ++ header.render ++ ['\n'] := by
  simp [renderNodes, node?, found]

theorem renderNodes_object
    (found : tree.nodes[first]? = some (.object header children)) :
    tree.renderNodes (height + 1) depth [first] =
      indentation depth ++ header.render ++ [' ', '\x7b', '\n'] ++
        tree.renderNodes height (depth + 1) children ++
        (indentation depth ++ ['\x7d', '\n']) := by
  simp [renderNodes, node?, found]

theorem Covers.renderNodes_congr (depth : Nat)
    (covers : Covers tree.nodes ids first last)
    (same : ∀ id, first ≤ id → id < last →
      changed.nodes[id]? = tree.nodes[id]?)
    (room : last - first ≤ height) (room' : last - first ≤ height') :
    changed.renderNodes height' depth ids =
      tree.renderNodes height depth ids := by
  induction covers generalizing height height' depth with
  | nil => cases height <;> cases height' <;> simp [renderNodes]
  | @field first last header rest found after induction =>
      have bound := after.first_le_last
      rcases Nat.exists_eq_add_one_of_ne_zero (by omega : height ≠ 0) with
        ⟨height, rfl⟩
      rcases Nat.exists_eq_add_one_of_ne_zero (by omega : height' ≠ 0) with
        ⟨height', rfl⟩
      have found' := (same first (Nat.le_refl _) bound).trans found
      have rest_eq := @induction (height + 1) (height' + 1) depth
        (fun id lower upper => same id (by omega) upper) (by omega) (by omega)
      rw [← List.singleton_append, renderNodes_append, renderNodes_append,
        renderNodes_field found, renderNodes_field found', rest_eq]
  | @object first middle last header children rest found below after
      belowInduction afterInduction =>
      have bound := below.first_le_last
      have bound' := after.first_le_last
      rcases Nat.exists_eq_add_one_of_ne_zero (by omega : height ≠ 0) with
        ⟨height, rfl⟩
      rcases Nat.exists_eq_add_one_of_ne_zero (by omega : height' ≠ 0) with
        ⟨height', rfl⟩
      have found' := (same first (Nat.le_refl _) (by omega)).trans found
      have below_eq := @belowInduction height height' (depth + 1)
        (fun id lower upper => same id (by omega) (by omega)) (by omega)
        (by omega)
      have rest_eq := @afterInduction (height + 1) (height' + 1) depth
        (fun id lower upper => same id (by omega) upper) (by omega) (by omega)
      rw [← List.singleton_append, renderNodes_append, renderNodes_append,
        renderNodes_object found, renderNodes_object found', below_eq, rest_eq]

def leafText (depth : Nat) : SelectionNode → Text
  | .field header => indentation depth ++ header.render ++ ['\n']
  | .object header _ =>
      indentation depth ++ header.render ++ [' ', '\x7b', '\n'] ++
        (indentation depth ++ ['\x7d', '\n'])

theorem renderNodes_leaf {node : SelectionNode}
    (found : tree.nodes[first]? = some node)
    (childless : node.children?.getD [] = []) :
    tree.renderNodes (height + 1) depth [first] = leafText depth node := by
  cases node with
  | field header => exact renderNodes_field found
  | object header children =>
      simp only [SelectionNode.children?, Option.getD_some] at childless
      subst childless
      rw [renderNodes_object found]
      cases height <;> simp [renderNodes, leafText]

theorem Opens.render_grow {node : SelectionNode} (depth : Nat)
    (opens : Opens tree.nodes path ids first last)
    (grows : Grows tree.nodes changed.nodes path node first last)
    (childless : node.children?.getD [] = [])
    (room : last - first ≤ height) (room' : last - first < height') :
    ∃ written,
      tree.renderNodes height depth ids =
        written ++ closings depth path.length ∧
      changed.renderNodes height' depth (levelAfter path ids last) =
        written ++ leafText (depth + path.length) node ++
          closings depth path.length := by
  induction opens generalizing height height' depth with
  | @here ids first last covers =>
      rcases Nat.exists_eq_add_one_of_ne_zero (by omega : height' ≠ 0) with
        ⟨height', rfl⟩
      refine ⟨tree.renderNodes height depth ids, by simp [closings], ?_⟩
      have same : ∀ id, first ≤ id → id < last →
          changed.nodes[id]? = tree.nodes[id]? :=
        fun id lower upper => grows.kept id lower upper (by simp)
      simp only [levelAfter, List.isEmpty_nil, if_true]
      rw [renderNodes_append, covers.renderNodes_congr depth same room (by omega),
        renderNodes_leaf grows.added childless]
      simp [closings]
  | @inside front path children first parent last header before found inner
      induction =>
      have above := before.first_le_last
      have bound := inner.first_le_last
      rcases Nat.exists_eq_add_one_of_ne_zero (by omega : height ≠ 0) with
        ⟨height, rfl⟩
      rcases Nat.exists_eq_add_one_of_ne_zero (by omega : height' ≠ 0) with
        ⟨height', rfl⟩
      rcases @induction height height' (depth + 1)
          (grows.inside above) (by omega) (by omega) with
        ⟨written, old, new⟩
      refine ⟨tree.renderNodes (height + 1) depth front ++
        (indentation depth ++ header.render ++ [' ', '\x7b', '\n']) ++ written,
        ?_, ?_⟩
      · rw [renderNodes_append, renderNodes_object found, old,
          List.length_cons, closings_succ]
        simp only [List.append_assoc]
      · have found' := grows.outermost found inner above
        have front_eq : changed.renderNodes (height' + 1) depth front =
            tree.renderNodes (height + 1) depth front :=
          before.renderNodes_congr depth (grows.kept_before found inner)
            (by omega) (by omega)
        simp only [levelAfter, List.isEmpty_cons, Bool.false_eq_true, if_false]
        rw [renderNodes_append, front_eq, renderNodes_object found', new,
          List.length_cons, closings_succ]
        simp only [List.append_assoc, Nat.add_assoc, Nat.add_comm 1]

end Rendering

variable {tree : SelectionTree} {written : Text}

/-! The text of a tree up to the lines that close its open objects. -/

theorem render_push (ordered : tree.InOrder) (node : SelectionNode)
    (childless : node.children?.getD [] = [])
    (so_far : tree.render 1 = written ++ closings 1 tree.openDepth) :
    (tree.push node).1.render 1 =
      written ++ leafText (tree.openDepth + 1) node ++
        closings 1 tree.openDepth := by
  rcases ordered with ⟨path, along⟩
  rcases along.opens.render_grow 1 (along.push_grows node) childless
      (Nat.sub_le _ _) (Nat.lt_succ_of_le (Nat.sub_le _ _)) with
    ⟨front, old, new⟩
  rw [← along.openDepth_eq] at old new
  have front_eq : front = written :=
    List.append_cancel_right (old.symm.trans so_far)
  unfold render
  rw [length_nodes_push, along.push_root, new, front_eq, Nat.add_comm 1]

theorem render_with_scopes (ordered : tree.InOrder) (scopes : List Scope)
    (depth : Nat) :
    SelectionTree.render { tree with scopes := scopes } depth =
      tree.render depth :=
  ordered.covers.renderNodes_congr depth (fun _ _ _ => rfl) (Nat.sub_le _ _)
    (Nat.sub_le _ _)

theorem render_perform (ordered : tree.InOrder) (step : SelectionStep)
    (so_far : tree.render 1 = written ++ closings 1 tree.openDepth) :
    (tree.perform step).render 1 =
      written ++ step.text tree.openDepth ++
        closings 1 (step.depthAfter tree.openDepth) := by
  cases step with
  | addField header => exact render_push ordered (.field header) rfl so_far
  | openObject header =>
      have pushed := render_push ordered (.object header []) rfl so_far
      have ordered' : (tree.push (.object header [])).1.InOrder :=
        inOrder_push ordered rfl
      have opened : (tree.openObject header).1.render 1 =
          (tree.push (.object header [])).1.render 1 :=
        render_with_scopes ordered' _ 1
      simp only [perform, opened, pushed, leafText, SelectionStep.text,
        SelectionStep.depthAfter, closings, indentation, List.append_assoc,
        Nat.add_comm 1]
  | closeObject =>
      rw [perform_closeObject]
      cases depth : tree.openDepth with
      | zero =>
          rw [depth] at so_far
          simpa [SelectionStep.text, SelectionStep.depthAfter] using so_far
      | succ outer =>
          rw [depth] at so_far
          have closed := render_with_scopes ordered tree.scopes.dropLast 1
          simp only [Nat.add_one_ne_zero, if_false, closed, so_far,
            SelectionStep.text, SelectionStep.depthAfter, closings,
            indentation, List.append_assoc, Nat.add_comm 1,
            Nat.add_sub_cancel]

theorem openDepth_perform (ordered : tree.InOrder) (step : SelectionStep) :
    (tree.perform step).openDepth = step.depthAfter tree.openDepth := by
  cases step with
  | addField header =>
      simp [perform, addField, openDepth, SelectionStep.depthAfter]
  | openObject header =>
      rcases ordered with ⟨path, along⟩
      rw [perform, (along.openObject header).openDepth_eq,
        SelectionStep.depthAfter, along.openDepth_eq, List.length_append,
        List.length_singleton]
  | closeObject =>
      rw [perform_closeObject, SelectionStep.depthAfter]
      split
      · next none_open => rw [none_open]
      · rw [openDepth, openDepth, List.length_dropLast]

theorem streamed_replicate_closeObject (depth : Nat) :
    SelectionStep.streamed depth (List.replicate depth .closeObject) =
      closings 1 depth := by
  induction depth with
  | zero => rfl
  | succ depth induction =>
      simp only [List.replicate_succ, SelectionStep.streamed,
        SelectionStep.text, SelectionStep.depthAfter, Nat.add_sub_cancel,
        Nat.add_one_ne_zero, if_false, induction, closings, indentation,
        Nat.add_comm 1]

theorem render_performAll (ordered : tree.InOrder)
    (steps : List SelectionStep)
    (so_far : tree.render 1 = written ++ closings 1 tree.openDepth) :
    (tree.performAll steps).render 1 =
      written ++ SelectionStep.streamed tree.openDepth
        (steps ++ List.replicate
          (steps.foldl SelectionStep.depthAfter tree.openDepth)
          .closeObject) := by
  induction steps generalizing tree written with
  | nil =>
      rw [List.nil_append, List.foldl_nil, streamed_replicate_closeObject]
      exact so_far
  | cons step steps induction =>
      have next := render_perform ordered step so_far
      rw [← openDepth_perform ordered] at next
      have rest := induction (inOrder_perform ordered step) next
      rw [openDepth_perform ordered] at rest
      simpa [performAll, SelectionStep.streamed] using rest

theorem length_nodes_perform (tree : SelectionTree) (step : SelectionStep) :
    (tree.perform step).nodes.length =
      tree.nodes.length + if step.adds then 1 else 0 := by
  cases step with
  | addField header => simp [perform, addField, SelectionStep.adds]
  | openObject header => simp [perform, openObject, SelectionStep.adds]
  | closeObject =>
      rw [perform_closeObject]
      split <;> rfl

theorem length_nodes_performAll (tree : SelectionTree)
    (steps : List SelectionStep) :
    (tree.performAll steps).nodes.length =
      tree.nodes.length + steps.countP SelectionStep.adds := by
  induction steps generalizing tree with
  | nil => rfl
  | cons step steps induction =>
      have rest := induction (tree.perform step)
      rw [length_nodes_perform] at rest
      simp only [performAll, List.foldl_cons, List.countP_cons] at rest ⊢
      omega

theorem isEmpty_eq_of_inOrder (ordered : tree.InOrder) :
    tree.isEmpty = tree.nodes.isEmpty := by
  rcases tree with ⟨nodes, root, scopes⟩
  have covers : Covers nodes root 0 nodes.length := ordered.covers
  cases nodes with
  | nil =>
      have bound := covers.first_le_last
      cases covers with
      | nil => rfl
      | field found _ => cases found
      | object found _ _ => cases found
  | cons node nodes =>
      cases root with
      | nil => cases covers
      | cons id rest => rfl

theorem isEmpty_performAll (steps : List SelectionStep) :
    (performAll ∅ steps).isEmpty = !steps.any SelectionStep.adds := by
  have count := length_nodes_performAll ∅ steps
  rw [isEmpty_eq_of_inOrder (inOrder_performAll inOrder_empty steps)]
  cases added : steps.any SelectionStep.adds with
  | false =>
      have none_add : steps.countP SelectionStep.adds = 0 := by
        rw [List.countP_eq_zero]
        simpa using added
      rw [none_add] at count
      exact List.isEmpty_iff_length_eq_zero.mpr count
  | true =>
      rcases List.any_eq_true.mp added with ⟨step, member, adds⟩
      have some_add := List.countP_pos_iff.mpr ⟨step, member, adds⟩
      refine List.isEmpty_eq_false_iff.mpr fun no_nodes => ?_
      rw [no_nodes] at count
      simp only [List.length_nil] at count
      omega

end SelectionTree

namespace Operation

/-- Rendering an operation built by steps gives what a single pass over the
steps writes, and fails exactly when no step adds a node. -/
theorem render_start_performAll (kind : OperationKind) (name : Option Text)
    (definitions : VariableDefinitions) (steps : List SelectionStep) :
    Operation.render
        { start kind name with
          tree := (start kind name).tree.performAll steps } definitions =
      if steps.any SelectionStep.adds then
        .ok (kind.keyword ++ name.elim [] (' ' :: ·) ++ definitions.render ++
          [' ', '\x7b', '\n'] ++
          SelectionStep.streamed 0 (SelectionStep.completed steps) ++ ['\x7d'])
      else .error .emptySelection := by
  have text : (SelectionTree.performAll ∅ steps).render 1 =
      [] ++ SelectionStep.streamed 0 (SelectionStep.completed steps) :=
    SelectionTree.render_performAll SelectionTree.inOrder_empty steps rfl
  rw [List.nil_append] at text
  simp only [Operation.render, start, SelectionTree.isEmpty_performAll, text]
  cases steps.any SelectionStep.adds <;> cases name <;> rfl

end Operation

end QueryAssembly
