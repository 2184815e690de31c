import QueryAssembly.Json.Writer
import QueryAssembly.Session.Basic

namespace QueryAssembly

/-! Composing the query of a session. Fragments are resolved first, then aliases
and directives are attached, then variable definitions are inserted. The
variables are passed on untouched. -/

structure ComposedQuery where
  query : Text
  variableValues : VariableValues

namespace ComposedQuery

def toJson (composed : ComposedQuery) : Json :=
  .object [("query".toList, .string composed.query),
    ("variables".toList, .object composed.variableValues.entries)]

end ComposedQuery

namespace Session

def baseDocument (session : Session) : Except ComposeError Text :=
  match session.operation with
  | some operation => operation.render session.definitions
  | none => .ok session.document

def finishQuery (session : Session) (resolved : Text) : Except Fault Text := do
  let attached ←
    FieldAttachment.apply resolved session.aliases session.directives
  VariableDefinitions.inject attached session.definitions

def build (session : Session) : Except ComposeError ComposedQuery := do
  let base ← session.baseDocument
  let resolved ← Fragment.resolve base session.fragments
  match session.finishQuery resolved with
  | .ok query => return ⟨query, session.variableValues⟩
  | .error reason => throw (.fault reason)

end Session

end QueryAssembly
