import QueryAssembly.Session.Build

namespace QueryAssembly

/-! What can be done to a session. A step that fails leaves the session as it
was, and building leaves it as it was in any case. -/

inductive SessionStep
  | load (text : Text)
  | loadFile (path : Path)
  | setVariables (values : List (Text × Json))
  | define (definition : VariableDefinition)
  | addFragment (name body : Text)
  | addFragmentFile (name : Text) (path : Path)
  | addAlias (added : FieldAlias)
  | addDirective (field : Text) (directive : Directive)
  | start (kind : OperationKind) (name : Option Text)
  | addField (header : SelectionHeader)
  | openObject (header : SelectionHeader)
  | closeObject
  | reset
  | build

inductive StepResult
  | done
  | built (composed : ComposedQuery)
  | failed (cause : ComposeError)

namespace Session

def settle (session : Session) :
    Except ComposeError Session → Session × StepResult
  | .ok changed => (changed, .done)
  | .error cause => (session, .failed cause)

def perform (disk : Disk) (session : Session) :
    SessionStep → Session × StepResult
  | .load text => (session.load text, .done)
  | .loadFile path => session.settle (session.loadFile disk path)
  | .setVariables values => (session.setVariables values, .done)
  | .define definition => (session.define definition, .done)
  | .addFragment name body => (session.addFragment name body, .done)
  | .addFragmentFile name path =>
      session.settle (session.addFragmentFile disk name path)
  | .addAlias added => (session.addAlias added, .done)
  | .addDirective field directive =>
      (session.addDirective field directive, .done)
  | .start kind name => (session.start kind name, .done)
  | .addField header => (session.addField header, .done)
  | .openObject header => (session.openObject header, .done)
  | .closeObject => session.settle session.closeObject
  | .reset => (∅, .done)
  | .build =>
      match session.build with
      | .ok composed => (session, .built composed)
      | .error cause => (session, .failed cause)

/-- Perform steps one after another, whether or not they succeed. -/
def performAll (disk : Disk) (session : Session) :
    List SessionStep → Session × List StepResult
  | [] => (session, [])
  | step :: steps =>
      let (next, result) := session.perform disk step
      let (last, results) := next.performAll disk steps
      (last, result :: results)

end Session

end QueryAssembly
