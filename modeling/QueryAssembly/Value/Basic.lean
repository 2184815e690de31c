import QueryAssembly.Json.Basic

namespace QueryAssembly

/-! Input values: what stands as an argument of a field or directive, or as the
default of a variable. -/

inductive Value
  | null
  | bool (value : Bool)
  | int (value : Int64)
  | float (value : Double)
  | enum (name : Text)
  | string (value : Text)
  | list (values : List Value)
  | object (entries : List (Text × Value))

instance : Inhabited Value := ⟨.null⟩

/-! Arguments are written in the order in which their names first came up. -/

abbrev Arguments := Registry Value

namespace Value

def string? : Value → Option Text
  | .string value => some value
  | _ => none

/-- An integer that fits sixty-four signed bits stays one; a larger one becomes
the double nearest to it. -/
def ofInteger (value : Int) : Value :=
  if Int64.minValue.toInt ≤ value ∧ value ≤ Int64.maxValue.toInt then
    .int (Int64.ofInt value)
  else .float (Double.nearest (value < 0) value.natAbs 0)

mutual
def ofJson : Json → Value
  | .null => .null
  | .bool value => .bool value
  | .integer value => ofInteger value
  | .number value => .float value
  | .string value => .string value
  | .array items => .list (ofItems items)
  | .object members => .object (ofMembers members)

def ofItems : List Json → List Value
  | [] => []
  | item :: rest => ofJson item :: ofItems rest

def ofMembers : List (Text × Json) → List (Text × Value)
  | [] => []
  | (key, value) :: rest => (key, ofJson value) :: ofMembers rest
end

end Value

end QueryAssembly
