import Mathlib.Data.Bool.AllAny
import QueryAssembly.Proofs.Selection.Stream
import QueryAssembly.Proofs.Value.Balanced
import QueryAssembly.Proofs.Variable.Header

namespace QueryAssembly

/-! The text of an operation is closed and nested as it was built: the braces in
code open and close with the objects of its selection tree, whatever its values
hold, and the line of a node stands at the depth at which the node was added. -/

structure SelectionHeader.Spelled (header : SelectionHeader) : Prop where
  name : header.name.IsName
  arguments : Arguments.Spelled header.arguments
  aliasName : ∀ given ∈ header.aliasName, given.IsName

theorem SelectionHeader.Spelled.balanced_render {header : SelectionHeader}
    (spelled : header.Spelled) : Balanced header.render := by
  have named := (Balanced.of_isName spelled.name).append
    spelled.arguments.balanced_render
  rw [SelectionHeader.render]
  cases given_eq : header.aliasName with
  | none => exact named
  | some given =>
      exact Value.balanced_labelled (spelled.aliasName given given_eq) named

theorem balanced_spaces (count : Nat) :
    Balanced (List.replicate count ' ') := by
  have spaces : ∀ char ∈ List.replicate count ' ', char = ' ' :=
    fun char member => List.eq_of_mem_replicate member
  apply Balanced.of_plain
  · intro char member
    rw [spaces char member]
    rfl
  · intro char member
    rw [spaces char member]
    decide

theorem balanced_newLine : Balanced ['\n'] := .sign (by decide)

namespace SelectionStep

def header? : SelectionStep → Option SelectionHeader
  | .addField header => some header
  | .openObject header => some header
  | .closeObject => none

def Spelled (step : SelectionStep) : Prop :=
  ∀ header ∈ step.header?, header.Spelled

theorem Spelled.nested_text {step : SelectionStep} (spelled : step.Spelled)
    (depth : Nat) :
    Nested (depth + 1) (step.depthAfter depth + 1) (step.text depth) := by
  have line : ∀ header ∈ step.header?,
      Balanced (List.replicate (2 * (depth + 1)) ' ' ++ header.render) :=
    fun header member => (balanced_spaces _).append
      (spelled header member).balanced_render
  cases step with
  | addField header =>
      exact ((line header rfl).append balanced_newLine) (depth + 1)
  | openObject header =>
      have brace := (Nested.opening (depth + 1)).append (balanced_newLine _)
      have text_eq : (openObject header).text depth =
          List.replicate (2 * (depth + 1)) ' ' ++ header.render ++
            ([' '] ++ (['\x7b'] ++ ['\n'])) := rfl
      rw [text_eq]
      exact (line header rfl _).append ((Value.balanced_space _).append brace)
  | closeObject =>
      cases depth with
      | zero => exact Balanced.nil 1
      | succ depth =>
          have brace := (Nested.closing (depth + 1)).append (balanced_newLine _)
          exact (balanced_spaces _ _).append brace

theorem streamed_append (depth : Nat) (earlier later : List SelectionStep) :
    streamed depth (earlier ++ later) =
      streamed depth earlier ++
        streamed (earlier.foldl depthAfter depth) later := by
  induction earlier generalizing depth with
  | nil => rfl
  | cons step rest induction =>
      rw [List.cons_append, streamed, streamed, induction, List.foldl_cons,
        List.append_assoc]

theorem nested_streamed {steps : List SelectionStep}
    (spelled : ∀ step ∈ steps, step.Spelled) (depth : Nat) :
    Nested (depth + 1) (steps.foldl depthAfter depth + 1)
      (streamed depth steps) := by
  induction steps generalizing depth with
  | nil => exact Balanced.nil (depth + 1)
  | cons step rest induction =>
      rw [List.forall_mem_cons] at spelled
      exact (spelled.1.nested_text depth).append
        (induction spelled.2 (step.depthAfter depth))

theorem getLast?_streamed {front : Text} (ends : front.getLast? = some '\n')
    (depth : Nat) (steps : List SelectionStep) :
    (front ++ streamed depth steps).getLast? = some '\n' := by
  induction steps generalizing front depth with
  | nil => rwa [streamed, List.append_nil]
  | cons step rest induction =>
      rw [streamed, ← List.append_assoc]
      apply induction
      cases step with
      | addField header => simp [text]
      | openObject header => simp [text]
      | closeObject =>
          rw [text]
          split
          · rwa [List.append_nil]
          · simp

theorem foldl_depthAfter_completed (steps : List SelectionStep) :
    (completed steps).foldl depthAfter 0 = 0 := by
  have closes : ∀ depth,
      (List.replicate depth closeObject).foldl depthAfter depth = 0 := by
    intro depth
    induction depth with
    | zero => rfl
    | succ depth induction => exact induction
  rw [completed, List.foldl_append, closes]

theorem Spelled.of_mem_completed {steps : List SelectionStep}
    (spelled : ∀ step ∈ steps, step.Spelled) :
    ∀ step ∈ completed steps, step.Spelled := by
  intro step member
  rcases List.mem_append.mp member with given | added
  · exact spelled step given
  · rw [List.eq_of_mem_replicate added]
    exact nofun

end SelectionStep

/-! The operation that steps build up, and its text up to one of them. -/

theorem SelectionTree.openDepth_performAll {tree : SelectionTree}
    (ordered : tree.InOrder) (steps : List SelectionStep) :
    (tree.performAll steps).openDepth =
      steps.foldl SelectionStep.depthAfter tree.openDepth := by
  induction steps generalizing tree with
  | nil => rfl
  | cons step rest induction =>
      rw [List.foldl_cons, ← openDepth_perform ordered]
      exact induction (inOrder_perform ordered step)

namespace Operation

def built (kind : OperationKind) (name : Option Text)
    (steps : List SelectionStep) : Operation :=
  { start kind name with tree := (start kind name).tree.performAll steps }

def opening (operation : Operation) (definitions : VariableDefinitions) : Text :=
  operation.header ++ definitions.render ++ [' ', '\x7b', '\n']

/-- The text up to the node that is added right after the given steps. -/
def upTo (operation : Operation) (definitions : VariableDefinitions)
    (earlier : List SelectionStep) : Text :=
  operation.opening definitions ++ SelectionStep.streamed 0 earlier

section Steps

variable {kind : OperationKind} {name : Option Text}
  {definitions : VariableDefinitions} {steps : List SelectionStep}

theorem openDepth_built (kind : OperationKind) (name : Option Text)
    (steps : List SelectionStep) :
    (built kind name steps).tree.openDepth =
      steps.foldl SelectionStep.depthAfter 0 :=
  SelectionTree.openDepth_performAll SelectionTree.inOrder_empty steps

theorem render_built (kind : OperationKind) (name : Option Text)
    (definitions : VariableDefinitions) (selects : steps.any SelectionStep.adds) :
    (built kind name steps).render definitions =
      .ok ((start kind name).upTo definitions (SelectionStep.completed steps) ++
        ['\x7d']) := by
  have text : (built kind name steps).tree.render 1 =
      [] ++ SelectionStep.streamed 0 (SelectionStep.completed steps) :=
    SelectionTree.render_performAll SelectionTree.inOrder_empty steps rfl
  have selected : (built kind name steps).tree.isEmpty = false := by
    have isEmpty := SelectionTree.isEmpty_performAll steps
    rwa [selects, Bool.not_true] at isEmpty
  have header_eq : (built kind name steps).header = (start kind name).header :=
    rfl
  rw [render_eq selected, body, text, header_eq]
  simp [upTo, opening]

theorem nested_opening (named : (start kind name).IsNamed)
    (declared : definitions.Spelled) :
    Nested 0 1 ((start kind name).opening definitions) := by
  have space := Value.balanced_space
  have keyword := Balanced.of_isName (keyword_isName kind)
  have header : Balanced (start kind name).header := by
    cases name with
    | none => exact keyword.append .nil
    | some given =>
        exact keyword.append (space.append (.of_isName (named given rfl)))
  have brace := (Nested.opening 0).append (balanced_newLine 1)
  exact (header.append declared.balanced_render 0).append
    ((space 0).append brace)

theorem nested_upTo (named : (start kind name).IsNamed)
    (declared : definitions.Spelled) (spelled : ∀ step ∈ steps, step.Spelled) :
    Nested 0 (1 + (built kind name steps).tree.openDepth)
      ((start kind name).upTo definitions steps) := by
  have within := SelectionStep.nested_streamed spelled 0
  rw [openDepth_built, Nat.add_comm]
  exact (nested_opening named declared).append within

theorem upTo_append_cons (operation : Operation)
    (definitions : VariableDefinitions) (earlier later : List SelectionStep)
    (step : SelectionStep) :
    operation.upTo definitions (earlier ++ step :: later) =
      operation.upTo definitions earlier ++
        (step.text (earlier.foldl SelectionStep.depthAfter 0) ++
          SelectionStep.streamed
            (step.depthAfter (earlier.foldl SelectionStep.depthAfter 0)) later) := by
  rw [upTo, upTo, SelectionStep.streamed_append, List.append_assoc]
  rfl

/-- What is written of an operation that was built by steps is closed and nested
as the steps say. The line that a step adds, such as that of a node, begins at a
depth of one more than the number of objects that are open before the step. -/
theorem render_nested (selects : steps.any SelectionStep.adds)
    (named : (start kind name).IsNamed) (declared : definitions.Spelled)
    (spelled : ∀ step ∈ steps, step.Spelled) :
    ∃ text, (built kind name steps).render definitions = .ok text ∧
      endState text = .code ∧ braceLevel text = 0 ∧
      (∀ before, before <+: text → 0 ≤ braceLevel before) ∧
      ∀ earlier step later, steps = earlier ++ step :: later →
        let opened := (built kind name earlier).tree.openDepth
        let before := (start kind name).upTo definitions earlier
        before ++ step.text opened <+: text ∧ before.getLast? = some '\n' ∧
          FieldOccurrence.braceDepthInCode text before.bytes =
            some (1 + opened) := by
  have inside := nested_upTo named declared
    (SelectionStep.Spelled.of_mem_completed spelled)
  rw [openDepth_built, SelectionStep.foldl_depthAfter_completed] at inside
  have whole := inside.append (Nested.closing 0)
  refine ⟨_, render_built kind name definitions selects, whole.closed, ?_, ?_, ?_⟩
  · have level := whole.level
    omega
  · intro before isFront
    have passed := whole.passing before isFront
    omega
  · intro earlier step later steps_eq opened before
    rw [steps_eq, List.forall_mem_append] at spelled
    have completed_eq : ∃ closing,
        SelectionStep.completed steps = earlier ++ step :: (later ++ closing) := by
      rw [SelectionStep.completed, steps_eq]
      exact ⟨_, List.append_assoc earlier (step :: later) _⟩
    rcases completed_eq with ⟨closing, completed_eq⟩
    rw [completed_eq, upTo_append_cons, ← openDepth_built kind name earlier,
      List.append_assoc, List.append_assoc]
    refine ⟨?_, ?_, ?_⟩
    · rw [← List.append_assoc]
      exact List.prefix_append _ _
    · apply SelectionStep.getLast?_streamed
      simp [opening]
    · exact (nested_upTo named declared spelled.1).braceDepthInCode _

end Steps

def bracedArguments : Arguments :=
  .ofList [("note".toList, .string "\x7b # \"".toList),
    ("filter".toList, .object [("ids".toList, .list [.string "$id".toList])])]

theorem spelled_bracedArguments : Arguments.Spelled bracedArguments := by
  have entries_eq : bracedArguments.entries =
      [("note".toList, .string "\x7b # \"".toList),
        ("filter".toList,
          .object [("ids".toList, .list [.string "$id".toList])])] :=
    Registry.entries_ofList (by decide)
  have note : Value.Spelled .argument (.string "\x7b # \"".toList) :=
    .string (by decide) (by decide)
  have reference : Value.Spelled .argument (.string "$id".toList) :=
    .string (by decide) (by decide)
  rw [Arguments.Spelled, entries_eq, List.forall_mem_cons,
    List.forall_mem_singleton]
  exact ⟨⟨by decide, note⟩, by decide,
    .object (List.forall_mem_singleton.mpr (by decide))
      (List.forall_mem_singleton.mpr
        (.list (List.forall_mem_singleton.mpr reference)))⟩

def bracedDefinitions : VariableDefinitions :=
  .add ∅ (.declare "id".toList "ID!".toList (some (.string "\x7d".toList)))

theorem spelled_bracedDefinitions : bracedDefinitions.Spelled := by
  intro definition member
  rw [List.mem_singleton.mp member]
  exact ⟨by decide, List.all_iff_forall_prop.mp rfl, List.all_iff_forall_prop.mp rfl,
    fun value given => Option.some.inj given ▸ .string (by decide) (by decide)⟩

def bracedSteps : List SelectionStep :=
  [.openObject ⟨"user".toList, bracedArguments, none⟩,
    .addField ⟨"name".toList, ∅, some "shown".toList⟩, .closeObject]

theorem render_nested_braced :
    bracedSteps.any SelectionStep.adds ∧
      (start .query (some "Braced".toList)).IsNamed ∧
      bracedDefinitions.Spelled ∧ (∀ step ∈ bracedSteps, step.Spelled) ∧
      ∃ text, (built .query (some "Braced".toList) bracedSteps).render
          bracedDefinitions = .ok text ∧
        endState text = .code ∧ braceLevel text = 0 ∧
        FieldOccurrence.braceDepthInCode text
            (Text.bytes ((start .query (some "Braced".toList)).upTo
              bracedDefinitions (bracedSteps.take 1))) = some 2 := by
  have named : (start .query (some "Braced".toList)).IsNamed :=
    fun name given => Option.some.inj given ▸ by decide
  have user : SelectionHeader.Spelled ⟨"user".toList, bracedArguments, none⟩ :=
    ⟨by decide, spelled_bracedArguments, nofun⟩
  have shown : SelectionHeader.Spelled ⟨"name".toList, ∅, some "shown".toList⟩ :=
    ⟨by decide, nofun, fun name given => Option.some.inj given ▸ by decide⟩
  have spelled : ∀ step ∈ bracedSteps, step.Spelled := by
    simpa [bracedSteps, SelectionStep.Spelled, SelectionStep.header?] using
      And.intro user shown
  refine ⟨rfl, named, spelled_bracedDefinitions, spelled, ?_⟩
  rcases render_nested rfl named spelled_bracedDefinitions spelled with
    ⟨text, rendered, closed, level, -, lines⟩
  exact ⟨text, rendered, closed, level, (lines _ _ _ rfl).2.2⟩

end Operation

end QueryAssembly
