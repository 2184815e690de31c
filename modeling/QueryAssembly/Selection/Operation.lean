import QueryAssembly.Selection.Tree
import QueryAssembly.Variable.Definition

namespace QueryAssembly

/-! An operation is a kind, an optional name and a selection tree. -/

inductive OperationKind
  | query
  | mutation
  | subscription
  deriving DecidableEq, Repr

namespace OperationKind

def keyword : OperationKind → Text
  | .query => "query".toList
  | .mutation => "mutation".toList
  | .subscription => "subscription".toList

def all : List OperationKind := [.query, .mutation, .subscription]

end OperationKind

def isOperationKeyword (word : Text) : Bool :=
  OperationKind.all.any fun kind => kind.keyword == word

structure Operation where
  kind : OperationKind
  name : Option Text
  tree : SelectionTree

namespace Operation

def start (kind : OperationKind) (name : Option Text) : Operation :=
  ⟨kind, name, ∅⟩

/-- The text of the operation. Objects still open are closed at its end. -/
def render (operation : Operation) (definitions : VariableDefinitions) :
    Except ComposeError Text :=
  if operation.tree.isEmpty then
    .error .emptySelection
  else
    let name := match operation.name with
      | some name => ' ' :: name
      | none => []
    .ok (operation.kind.keyword ++ name ++ definitions.render ++
      [' ', '\x7b', '\n'] ++ operation.tree.render 1 ++ ['\x7d'])

end Operation

end QueryAssembly
