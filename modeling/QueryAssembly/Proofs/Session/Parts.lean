import QueryAssembly.Session.Step

namespace QueryAssembly

/-! A session has six parts that steps work on apart from each other. A step does
to its own part what it would do in a session that has nothing else, and it
leaves the other parts alone; so a part is what its own steps have made it. -/

inductive SessionPart
  | query
  | fragments
  | aliases
  | directives
  | definitions
  | variableValues
  deriving DecidableEq, Repr

namespace SessionStep

/-- The part that a step works on. Building works on none, and a reset on all. -/
def part? : SessionStep → Option SessionPart
  | .load _ => some .query
  | .loadFile _ => some .query
  | .setVariables _ => some .variableValues
  | .define _ => some .definitions
  | .addFragment _ _ => some .fragments
  | .addFragmentFile _ _ => some .fragments
  | .addAlias _ => some .aliases
  | .addDirective _ _ => some .directives
  | .start _ _ => some .query
  | .addField _ => some .query
  | .openObject _ => some .query
  | .closeObject => some .query
  | .reset => none
  | .build => none

end SessionStep

namespace Session

def stepsOf (part : SessionPart) (steps : List SessionStep) :
    List SessionStep :=
  steps.filter fun step => step.part? = some part

def answersOf (disk : Disk) (session : Session) (part : SessionPart)
    (steps : List SessionStep) : List StepResult :=
  ((steps.zip (session.performAll disk steps).2).filter fun answered =>
    answered.1.part? = some part).map Prod.snd

/-- One part of a session in a session that has nothing else. -/
def restrict (session : Session) : SessionPart → Session
  | .query =>
      { (∅ : Session) with
        document := session.document
        operation := session.operation }
  | .fragments => { (∅ : Session) with fragments := session.fragments }
  | .aliases => { (∅ : Session) with aliases := session.aliases }
  | .directives => { (∅ : Session) with directives := session.directives }
  | .definitions => { (∅ : Session) with definitions := session.definitions }
  | .variableValues =>
      { (∅ : Session) with variableValues := session.variableValues }

@[simp] theorem fragments_restrict (session : Session) :
    (session.restrict .fragments).fragments = session.fragments := rfl

@[simp] theorem aliases_restrict (session : Session) :
    (session.restrict .aliases).aliases = session.aliases := rfl

@[simp] theorem directives_restrict (session : Session) :
    (session.restrict .directives).directives = session.directives := rfl

@[simp] theorem definitions_restrict (session : Session) :
    (session.restrict .definitions).definitions = session.definitions := rfl

@[simp] theorem variableValues_restrict (session : Session) :
    (session.restrict .variableValues).variableValues =
      session.variableValues := rfl

/-! A step changes its own part and reads no other one. -/

section Steps

variable {disk : Disk} {session : Session} {part : SessionPart}

theorem eq_of_restrict {left right : Session}
    (same : ∀ part, left.restrict part = right.restrict part) : left = right := by
  rcases left with ⟨document, operation, fragments, aliases, directives,
    definitions, values⟩
  have sameDocument : document = _ := congrArg Session.document (same .query)
  have sameOperation : operation = _ := congrArg Session.operation (same .query)
  have sameFragments : fragments = _ :=
    congrArg Session.fragments (same .fragments)
  have sameAliases : aliases = _ := congrArg Session.aliases (same .aliases)
  have sameDirectives : directives = _ :=
    congrArg Session.directives (same .directives)
  have sameDefinitions : definitions = _ :=
    congrArg Session.definitions (same .definitions)
  have sameValues : values = _ :=
    congrArg Session.variableValues (same .variableValues)
  rw [sameDocument, sameOperation, sameFragments, sameAliases, sameDirectives,
    sameDefinitions, sameValues]
  rfl

theorem restrict_settle {outcome : Except ComposeError Session}
    (kept : ∀ changed, outcome = .ok changed →
      changed.restrict part = session.restrict part) :
    (session.settle outcome).1.restrict part = session.restrict part := by
  cases outcome with
  | ok changed => exact kept changed rfl
  | error cause => rfl

theorem restrict_withQuery (other : part ≠ .query) (document : Text)
    (operation : Option Operation) :
    { session with document, operation }.restrict part =
      session.restrict part := by
  cases part with
  | query => exact absurd rfl other
  | _ => rfl

theorem restrict_withFragments (other : part ≠ .fragments)
    (fragments : FragmentRegistry) :
    { session with fragments }.restrict part = session.restrict part := by
  cases part with
  | fragments => exact absurd rfl other
  | _ => rfl

theorem restrict_alterTree (other : part ≠ .query)
    (change : SelectionTree → SelectionTree) :
    (session.alterTree change).restrict part = session.restrict part := by
  rw [alterTree]
  split <;> exact restrict_withQuery other _ _

theorem restrict_closeObject (other : part ≠ .query) {changed : Session}
    (closed : session.closeObject = .ok changed) :
    changed.restrict part = session.restrict part := by
  rw [closeObject] at closed
  split at closed
  · cases closed
  · split at closed <;> cases closed
    exact restrict_withQuery other _ _

theorem restrict_perform {step : SessionStep}
    (other : step.part? ≠ some part) (unreset : step ≠ .reset) :
    (session.perform disk step).1.restrict part = session.restrict part := by
  have apart : ∀ own, step.part? = some own → part ≠ own := by
    rintro own isOwn rfl
    exact other isOwn
  cases step with
  | load text => exact restrict_withQuery (apart _ rfl) _ _
  | loadFile path =>
      refine restrict_settle fun changed loaded => ?_
      rw [loadFile] at loaded
      split at loaded <;> cases loaded
      exact restrict_withQuery (apart _ rfl) _ _
  | setVariables values =>
      cases part with
      | variableValues => exact absurd rfl other
      | _ => rfl
  | define definition =>
      cases part with
      | definitions => exact absurd rfl other
      | _ => rfl
  | addFragment name body => exact restrict_withFragments (apart _ rfl) _
  | addFragmentFile name path =>
      refine restrict_settle fun changed added => ?_
      rw [addFragmentFile] at added
      split at added <;> cases added
      exact restrict_withFragments (apart _ rfl) _
  | addAlias added =>
      cases part with
      | aliases => exact absurd rfl other
      | _ => rfl
  | addDirective field directive =>
      cases part with
      | directives => exact absurd rfl other
      | _ => rfl
  | start kind name => exact restrict_withQuery (apart _ rfl) _ _
  | addField header => exact restrict_alterTree (apart _ rfl) _
  | openObject header => exact restrict_alterTree (apart _ rfl) _
  | closeObject =>
      exact restrict_settle fun _ closed =>
        restrict_closeObject (apart _ rfl) closed
  | reset => exact absurd rfl unreset
  | build =>
      rw [perform]
      split <;> rfl

theorem settle_restrict {outcome alone : Except ComposeError Session}
    (same : alone = outcome.map fun changed => changed.restrict part) :
    (session.restrict part).settle alone =
      ((session.settle outcome).1.restrict part,
        (session.settle outcome).2) := by
  rw [same]
  cases outcome <;> rfl

theorem alterTree_restrict (change : SelectionTree → SelectionTree) :
    (session.restrict .query).alterTree change =
      (session.alterTree change).restrict .query := by
  rw [alterTree, alterTree]
  cases given : session.operation <;> simp [restrict, given]

theorem perform_restrict {step : SessionStep} (own : step.part? = some part) :
    (session.restrict part).perform disk step =
      ((session.perform disk step).1.restrict part,
        (session.perform disk step).2) := by
  cases step with
  | load | setVariables | define | addFragment | addAlias | addDirective
  | start =>
      cases own
      rfl
  | loadFile path =>
      cases own
      refine settle_restrict ?_
      rw [loadFile, loadFile]
      split <;> rfl
  | addFragmentFile name path =>
      cases own
      refine settle_restrict ?_
      rw [addFragmentFile, addFragmentFile]
      split <;> rfl
  | addField | openObject =>
      cases own
      exact congrArg (·, StepResult.done) (alterTree_restrict _)
  | closeObject =>
      cases own
      refine settle_restrict ?_
      rw [closeObject, closeObject]
      cases given : session.operation with
      | none =>
          simp only [restrict, given]
          rfl
      | some operation =>
          simp only [restrict, given]
          cases operation.tree.closeObject <;> rfl
  | reset | build => cases own

end Steps

section Runs

variable {disk : Disk} {steps : List SessionStep}

theorem performAll_restrict (unreset : .reset ∉ steps) (session : Session)
    (part : SessionPart) :
    (session.restrict part).performAll disk (stepsOf part steps) =
      ((session.performAll disk steps).1.restrict part,
        session.answersOf disk part steps) := by
  induction steps generalizing session with
  | nil => rfl
  | cons step steps induction =>
      rw [List.mem_cons, not_or] at unreset
      have later := induction unreset.2 (session.perform disk step).1
      by_cases own : step.part? = some part
      · have here : (session.restrict part).perform disk step = _ :=
          perform_restrict own
        simp only [stepsOf, answersOf, performAll, List.zip_cons_cons,
          List.filter_cons, own, decide_true, if_true, List.map_cons, here]
        simp only [stepsOf, answersOf] at later
        simp only [later]
      · have here : (session.perform disk step).1.restrict part =
            session.restrict part := restrict_perform own (Ne.symm unreset.1)
        simp only [stepsOf, answersOf, performAll, List.zip_cons_cons,
          List.filter_cons, own, decide_false, Bool.false_eq_true, if_false]
        simp only [stepsOf, answersOf, here] at later
        exact later

end Runs

end Session

end QueryAssembly
