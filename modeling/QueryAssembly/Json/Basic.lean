import QueryAssembly.Number.Scaled
import QueryAssembly.Registry

namespace QueryAssembly

/-! JSON values whose objects keep the order of their members. A number is an
integer when it is written as one and fits sixty-four bits, signed or unsigned;
every other number is a finite double. -/

inductive Json
  | null
  | bool (value : Bool)
  | integer (value : Int)
  | number (value : Double)
  | string (value : Text)
  | array (items : List Json)
  | object (members : List (Text × Json))

instance : Inhabited Json := ⟨.null⟩

namespace Json

/-- Digits before the point are required, and a zero among them stands first
only when it stands alone. -/
def isWholePart : Text → Bool
  | [] => false
  | [_] => true
  | first :: _ => first != '0'

def ofNumeral? (numeral : Numeral) : Option Json :=
  if numeral.sign == some '+' || !isWholePart numeral.whole ||
      numeral.fraction == some [] || numeral.power == some [] then
    none
  else
    let inexact := numeral.scaled?.map .number
    if numeral.fraction.isSome || numeral.power.isSome then
      inexact
    else
      let size := Numeral.digitsValue numeral.whole
      if numeral.negative then
        if 0 < size ∧ size ≤ twoTo 63 then some (.integer (-size)) else inexact
      else
        if size < twoTo 64 then some (.integer size) else inexact

end Json

end QueryAssembly
