import QueryAssembly.Value.Render

namespace QueryAssembly

/-! Declarations of operation variables. -/

structure VariableDefinition where
  /-- The name without its dollar sign. -/
  name : Text
  typeText : Text
  /-- An explicit null is a default of its own, unlike no default. -/
  default : Option Value

/-! Definitions are kept under their names, in the order of first declaration. -/

abbrev VariableDefinitions := Registry VariableDefinition

namespace VariableDefinition

/-- A definition whose name may be given with its dollar sign. -/
def declare (name typeText : Text) (default : Option Value) :
    VariableDefinition where
  name := match name with
    | [] => []
    | char :: rest => if char = '$' then rest else char :: rest
  typeText := typeText
  default := default

theorem name_declare (given typeText : Text) (default : Option Value) :
    (declare given typeText default).name =
      if given.head? = some '$' then given.tail else given := by
  cases given with
  | nil => rfl
  | cons char rest => by_cases dollar : char = '$' <;> simp [declare, dollar]

def render (definition : VariableDefinition) : Text :=
  let declaration := '$' :: definition.name ++ ':' :: ' ' :: definition.typeText
  match definition.default with
  | some value => declaration ++ ' ' :: '=' :: ' ' :: value.toDefault
  | none => declaration

end VariableDefinition

namespace VariableDefinitions

def add (definitions : VariableDefinitions) (definition : VariableDefinition) :
    VariableDefinitions :=
  Registry.insert definitions definition.name definition

def render (definitions : VariableDefinitions) : Text :=
  if definitions.isEmpty then
    []
  else
    '(' :: (Text.joined [',', ' ']
      (definitions.values.map VariableDefinition.render) ++ [')'])

end VariableDefinitions

end QueryAssembly
