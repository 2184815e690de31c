import QueryAssembly.Proofs.Registry.Given
import QueryAssembly.Proofs.Session.Parts

namespace QueryAssembly

/-! Steps of different parts may be taken in any order. What counts is the order
of the steps of each part, and from those each registry can be read off. -/

namespace DirectiveRegistry

def givenTo (field : Text) (given : List (Text × Directive)) : List Directive :=
  (given.filter fun entry => entry.1 = field).map Prod.snd

structure Gathers (registry : DirectiveRegistry)
    (given : List (Text × Directive)) : Prop where
  keys : registry.keys = (given.map Prod.fst).eraseDups
  values : ∀ field, registry.get? field =
    if givenTo field given = [] then none
    else some ⟨field, givenTo field given⟩

theorem givenTo_concat (field : Text) (given : List (Text × Directive))
    (entry : Text × Directive) :
    givenTo field (given ++ [entry]) =
      if entry.1 = field then givenTo field given ++ [entry.2]
      else givenTo field given := by
  by_cases same : entry.1 = field <;> simp [givenTo, same]

theorem gathers_foldl (given : List (Text × Directive)) :
    Gathers (given.foldl (fun held entry =>
      add held entry.1 entry.2) ∅) given := by
  induction given using List.reverseRecOn with
  | nil => exact ⟨rfl, fun _ => rfl⟩
  | append_singleton given entry induction =>
      rw [List.foldl_append, List.foldl_cons, List.foldl_nil]
      generalize given.foldl _ (∅ : DirectiveRegistry) = held at induction ⊢
      refine ⟨?_, fun field => ?_⟩
      · rw [add, Registry.keys_insert, induction.keys, List.map_append,
          List.map_singleton, Registry.eraseDups_concat]
      · rw [add, Registry.get?_insert, induction.values, induction.values,
          givenTo_concat]
        by_cases same : field = entry.1
        · subst same
          by_cases none : givenTo entry.1 given = [] <;> simp [none]
        · rw [if_neg same, if_neg (Ne.symm same)]

end DirectiveRegistry

/-! What a step registers. -/

namespace SessionStep

def fragmentsGiven (disk : Disk) : SessionStep → List (Text × Text)
  | .addFragment name body => [(name, body)]
  | .addFragmentFile name path =>
      match disk.read path with
      | .ok text => [(name, text.trim)]
      | .error _ => []
  | _ => []

def aliasesGiven : SessionStep → List (Text × FieldAlias)
  | .addAlias added => [(added.field, added)]
  | _ => []

def directivesGiven : SessionStep → List (Text × Directive)
  | .addDirective field directive => [(field, directive)]
  | _ => []

def definitionsGiven : SessionStep → List (Text × VariableDefinition)
  | .define definition => [(definition.name, definition)]
  | _ => []

def valuesGiven : SessionStep → List (Text × Json)
  | .setVariables values => values
  | _ => []

end SessionStep

namespace Session

/-- What the registries of a session hold after steps that began with an empty
one. -/
structure Registered (disk : Disk) (steps : List SessionStep)
    (session : Session) : Prop where
  fragments : Registry.Holds session.fragments
    (steps.flatMap (SessionStep.fragmentsGiven disk))
  aliases : Registry.Holds session.aliases
    (steps.flatMap SessionStep.aliasesGiven)
  directives : DirectiveRegistry.Gathers session.directives
    (steps.flatMap SessionStep.directivesGiven)
  definitions : Registry.Holds session.definitions
    (steps.flatMap SessionStep.definitionsGiven)
  variableValues : Registry.Holds session.variableValues
    (steps.flatMap SessionStep.valuesGiven)

section Steps

variable {disk : Disk} {session : Session} {step : SessionStep}
  (unreset : step ≠ .reset)

include unreset

theorem fragments_perform :
    (session.perform disk step).1.fragments =
      session.fragments.insertAll (step.fragmentsGiven disk) := by
  have kept (other : step.part? ≠ some .fragments) :
      (session.perform disk step).1.fragments = session.fragments :=
    by simpa using congrArg Session.fragments (restrict_perform other unreset)
  cases step with
  | addFragment name body => rfl
  | addFragmentFile name path =>
      rw [perform, addFragmentFile, SessionStep.fragmentsGiven]
      cases disk.read path <;> rfl
  | reset => exact absurd rfl unreset
  | _ => exact kept (by simp [SessionStep.part?])

theorem aliases_perform :
    (session.perform disk step).1.aliases =
      session.aliases.insertAll step.aliasesGiven := by
  have kept (other : step.part? ≠ some .aliases) :
      (session.perform disk step).1.aliases = session.aliases :=
    by simpa using congrArg Session.aliases (restrict_perform other unreset)
  cases step with
  | addAlias added => rfl
  | reset => exact absurd rfl unreset
  | _ => exact kept (by simp [SessionStep.part?])

theorem directives_perform :
    (session.perform disk step).1.directives =
      step.directivesGiven.foldl (fun held entry =>
        DirectiveRegistry.add held entry.1 entry.2)
        session.directives := by
  have kept (other : step.part? ≠ some .directives) :
      (session.perform disk step).1.directives = session.directives :=
    by simpa using congrArg Session.directives (restrict_perform other unreset)
  cases step with
  | addDirective field directive => rfl
  | reset => exact absurd rfl unreset
  | _ => exact kept (by simp [SessionStep.part?])

theorem definitions_perform :
    (session.perform disk step).1.definitions =
      session.definitions.insertAll step.definitionsGiven := by
  have kept (other : step.part? ≠ some .definitions) :
      (session.perform disk step).1.definitions = session.definitions :=
    by simpa using congrArg Session.definitions (restrict_perform other unreset)
  cases step with
  | define definition => rfl
  | reset => exact absurd rfl unreset
  | _ => exact kept (by simp [SessionStep.part?])

theorem variableValues_perform :
    (session.perform disk step).1.variableValues =
      session.variableValues.insertAll step.valuesGiven := by
  have kept (other : step.part? ≠ some .variableValues) :
      (session.perform disk step).1.variableValues = session.variableValues :=
    by simpa using congrArg Session.variableValues (restrict_perform other unreset)
  cases step with
  | setVariables values => rfl
  | reset => exact absurd rfl unreset
  | _ => exact kept (by simp [SessionStep.part?])

end Steps

section Runs

variable {disk : Disk} {steps : List SessionStep}

theorem performAll_foldl {σ ε : Type} {view : Session → σ} {put : σ → ε → σ}
    {given : SessionStep → List ε}
    (each : ∀ session step, step ≠ .reset →
      view (session.perform disk step).1 = (given step).foldl put (view session))
    (unreset : .reset ∉ steps) (session : Session) :
    view (session.performAll disk steps).1 =
      (steps.flatMap given).foldl put (view session) := by
  induction steps generalizing session with
  | nil => rfl
  | cons step steps induction =>
      rw [List.mem_cons, not_or] at unreset
      rw [List.flatMap_cons, List.foldl_append,
        ← each session step (Ne.symm unreset.1)]
      exact induction unreset.2 _

theorem registered_performAll (unreset : .reset ∉ steps) :
    Registered disk steps ((∅ : Session).performAll disk steps).1 where
  fragments := by
    rw [performAll_foldl (fun _ _ => fragments_perform) unreset]
    exact Registry.holds_ofList _
  aliases := by
    rw [performAll_foldl (fun _ _ => aliases_perform) unreset]
    exact Registry.holds_ofList _
  directives := by
    rw [performAll_foldl (fun _ _ => directives_perform) unreset]
    exact DirectiveRegistry.gathers_foldl _
  definitions := by
    rw [performAll_foldl (fun _ _ => definitions_perform) unreset]
    exact Registry.holds_ofList _
  variableValues := by
    rw [performAll_foldl (fun _ _ => variableValues_perform) unreset]
    exact Registry.holds_ofList _

end Runs

/-- Whether two runs interleave the same steps of each part in ways of their own.
Builds may stand anywhere, and nothing is reset. -/
structure Interleaved (left right : List SessionStep) : Prop where
  leftUnreset : .reset ∉ left
  rightUnreset : .reset ∉ right
  same : ∀ part, stepsOf part left = stepsOf part right

/-- However the steps of different parts are interleaved, each gets the same
answer, and the sessions that they lead to are equal and build the same query.
What a registry holds can be told from its own steps. -/
theorem performAll_interleaved (disk : Disk) {left right : List SessionStep}
    (interleaved : Interleaved left right) :
    ((∅ : Session).performAll disk left).1 =
        ((∅ : Session).performAll disk right).1 ∧
      (∀ part, (∅ : Session).answersOf disk part left =
        (∅ : Session).answersOf disk part right) ∧
      ((∅ : Session).performAll disk left).1.build =
        ((∅ : Session).performAll disk right).1.build ∧
      Registered disk left ((∅ : Session).performAll disk left).1 ∧
      ∀ given typeText default,
        (VariableDefinition.declare given typeText default).name =
          if given.head? = some '$' then given.tail else given := by
  rcases interleaved with ⟨leftUnreset, rightUnreset, same⟩
  have parts : ∀ part,
      (((∅ : Session).performAll disk left).1.restrict part,
          (∅ : Session).answersOf disk part left) =
        (((∅ : Session).performAll disk right).1.restrict part,
          (∅ : Session).answersOf disk part right) := by
    intro part
    rw [← performAll_restrict leftUnreset ∅ part,
      ← performAll_restrict rightUnreset ∅ part, same part]
  have equal : ((∅ : Session).performAll disk left).1 =
      ((∅ : Session).performAll disk right).1 :=
    eq_of_restrict fun part => congrArg Prod.fst (parts part)
  exact ⟨equal, fun part => congrArg Prod.snd (parts part),
    congrArg Session.build equal, registered_performAll leftUnreset,
    VariableDefinition.name_declare⟩

/-! Two steps fail, one definition replaces another, and a field has two
directives. -/

def conditional (condition : Text) : Directive :=
  ⟨"include".toList, .ofList [("if".toList, .string condition)]⟩

def registrationsFirst : List SessionStep :=
  [.addFragment "F".toList "id".toList,
    .addFragmentFile "G".toList "missing".toList,
    .define (.declare "$id".toList "ID!".toList none),
    .addDirective "user".toList (conditional "$a".toList), .build,
    .define (.declare "id".toList "Int".toList none),
    .addDirective "user".toList (conditional "$b".toList),
    .setVariables [("id".toList, .integer 1)],
    .addAlias ⟨"user".toList, "owner".toList, ∅⟩, .closeObject,
    .load "\x7b a \x7d".toList,
    .addField ⟨"...F".toList, ∅, none⟩]

def documentFirst : List SessionStep :=
  [.closeObject, .addDirective "user".toList (conditional "$a".toList),
    .addDirective "user".toList (conditional "$b".toList),
    .load "\x7b a \x7d".toList, .build, .build,
    .addField ⟨"...F".toList, ∅, none⟩,
    .addAlias ⟨"user".toList, "owner".toList, ∅⟩,
    .setVariables [("id".toList, .integer 1)],
    .define (.declare "$id".toList "ID!".toList none),
    .addFragment "F".toList "id".toList,
    .define (.declare "id".toList "Int".toList none),
    .addFragmentFile "G".toList "missing".toList, .build]

theorem performAll_interleaved_documentFirst :
    Interleaved registrationsFirst documentFirst ∧
      ((∅ : Session).performAll (.blank []) registrationsFirst).1 =
        ((∅ : Session).performAll (.blank []) documentFirst).1 ∧
      (∀ part, (∅ : Session).answersOf (.blank []) part registrationsFirst =
        (∅ : Session).answersOf (.blank []) part documentFirst) ∧
      Registered (.blank []) registrationsFirst
        ((∅ : Session).performAll (.blank []) registrationsFirst).1 := by
  have interleaved : Interleaved registrationsFirst documentFirst := by
    refine ⟨?_, ?_, fun part => ?_⟩
    · simp [registrationsFirst]
    · simp [documentFirst]
    · cases part <;> rfl
  rcases performAll_interleaved (.blank []) interleaved with
    ⟨equal, answers, _, registered, _⟩
  exact ⟨interleaved, equal, answers, registered⟩

end Session

end QueryAssembly
