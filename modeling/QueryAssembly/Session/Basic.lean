import QueryAssembly.Field.Attachment
import QueryAssembly.Fragment.Resolve
import QueryAssembly.Variable.Inject

namespace QueryAssembly

/-! A session gathers what one query is composed from: a document or an
operation under construction, fragments, aliases, directives, variable
definitions, and values for the variables. -/

abbrev VariableValues := Registry Json

structure Session where
  document : Text
  operation : Option Operation
  fragments : FragmentRegistry
  aliases : AliasRegistry
  directives : DirectiveRegistry
  definitions : VariableDefinitions
  variableValues : VariableValues

namespace Session

def empty : Session := ⟨[], none, ∅, ∅, ∅, ∅, ∅⟩

instance : EmptyCollection Session := ⟨empty⟩

instance : Inhabited Session := ⟨empty⟩

def isPristine (session : Session) : Bool :=
  session.document.isEmpty && session.operation.isNone &&
    session.fragments.isEmpty && session.aliases.isEmpty &&
    session.directives.isEmpty && session.definitions.isEmpty &&
    session.variableValues.isEmpty

/-- Use a text without its outer blanks as the document, in place of any
document or operation before it. -/
def load (session : Session) (text : Text) : Session :=
  { session with document := text.trim, operation := none }

def loadFile (session : Session) (disk : Disk) (path : Path) :
    Except ComposeError Session :=
  match disk.read path with
  | .ok text => .ok (session.load text)
  | .error cause => .error (.ofReadError .query cause)

def setVariables (session : Session) (values : List (Text × Json)) : Session :=
  { session with
    variableValues := Registry.insertAll session.variableValues values }

def define (session : Session) (definition : VariableDefinition) : Session :=
  { session with
    definitions := VariableDefinitions.add session.definitions definition }

def addFragment (session : Session) (name body : Text) : Session :=
  { session with fragments := Registry.insert session.fragments name body }

def addFragmentFile (session : Session) (disk : Disk) (name : Text)
    (path : Path) : Except ComposeError Session :=
  match disk.read path with
  | .ok text => .ok (session.addFragment name text.trim)
  | .error cause => .error (.ofReadError (.fragment name) cause)

def addAlias (session : Session) (added : FieldAlias) : Session :=
  { session with aliases := AliasRegistry.add session.aliases added }

def addDirective (session : Session) (field : Text) (directive : Directive) :
    Session :=
  { session with
    directives := DirectiveRegistry.add session.directives field directive }

/-- Start an operation, in place of any document or operation before it. -/
def start (session : Session) (kind : OperationKind) (name : Option Text) :
    Session :=
  { session with document := [], operation := some (.start kind name) }

/-- Change the selection tree of the operation. When there is none, a query
without a name is started first. -/
def alterTree (session : Session) (change : SelectionTree → SelectionTree) :
    Session :=
  match session.operation with
  | some operation =>
      { session with
        operation := some { operation with tree := change operation.tree } }
  | none =>
      let operation := Operation.start .query none
      { session with
        document := []
        operation := some { operation with tree := change operation.tree } }

/-- The number of the new node is not passed on. -/
def addField (session : Session) (header : SelectionHeader) : Session :=
  session.alterTree fun tree => (tree.addField header).1

def openObject (session : Session) (header : SelectionHeader) : Session :=
  session.alterTree fun tree => (tree.openObject header).1

def closeObject (session : Session) : Except ComposeError Session :=
  match session.operation with
  | none => .error .unbalancedScope
  | some operation =>
      match operation.tree.closeObject with
      | .error cause => .error cause
      | .ok tree =>
          .ok { session with operation := some { operation with tree := tree } }

end Session

end QueryAssembly
