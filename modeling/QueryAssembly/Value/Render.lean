import QueryAssembly.Value.Basic
import QueryAssembly.Number.Layout
import QueryAssembly.Text.Blank

namespace QueryAssembly

/-! The text of a value. Where arguments are written, a string that starts with
a dollar sign refers to a variable and is written as it is; in a default every
string is quoted. -/

inductive ValueContext
  | argument
  | defaultValue
  deriving DecidableEq, Repr

namespace Value

/-- Doubles from 10 ^ -4 up to 10 ^ 16 have their point among the digits. -/
def numberLayout : NumberLayout where
  leastPoint := -3
  greatestPoint := 16
  plusSign := false
  tie := .awayFromZero

def hexDigit (value : Nat) : Char :=
  if value < 10 then Char.ofNat ('0'.toNat + value)
  else Char.ofNat ('A'.toNat + (value - 10))

def quoteChar (char : Char) : Text :=
  if char = '"' then ['\\', '"']
  else if char = '\\' then ['\\', '\\']
  else if char = '\n' then ['\\', 'n']
  else if char = '\r' then ['\\', 'r']
  else if char = '\t' then ['\\', 't']
  else if char = '\x08' then ['\\', 'b']
  else if char = '\x0c' then ['\\', 'f']
  else if Text.isControl char then
    ['\\', 'u', '0', '0', hexDigit (char.toNat / 16), hexDigit (char.toNat % 16)]
  else [char]

def quoted (value : Text) : Text :=
  '"' :: (value.flatMap quoteChar ++ ['"'])

def separator : Text := [',', ' ']

mutual
def render (context : ValueContext) : Value → Text
  | .null => "null".toList
  | .bool true => "true".toList
  | .bool false => "false".toList
  | .int value => Text.ofInt value.toInt
  | .float value =>
      if value.isFinite then value.write numberLayout else "null".toList
  | .enum name => name
  | .string value =>
      if context = .argument ∧ value.head? = some '$' then value
      else quoted value
  | .list values =>
      '[' :: (Text.joined separator (renderItems context values) ++ [']'])
  | .object entries =>
      '\x7b' :: (Text.joined separator (renderEntries context entries) ++
        ['\x7d'])

def renderItems (context : ValueContext) : List Value → List Text
  | [] => []
  | value :: rest => value.render context :: renderItems context rest

def renderEntries (context : ValueContext) :
    List (Text × Value) → List Text
  | [] => []
  | (key, value) :: rest =>
      (key ++ ':' :: ' ' :: value.render context) ::
        renderEntries context rest
end

def toArgument (value : Value) : Text := value.render .argument

def toDefault (value : Value) : Text := value.render .defaultValue

end Value

namespace Arguments

def render (arguments : Arguments) : Text :=
  if arguments.isEmpty then
    []
  else
    '(' :: (Text.joined Value.separator
      (arguments.entries.map fun (name, value) =>
        name ++ ':' :: ' ' :: value.toArgument) ++ [')'])

end Arguments

end QueryAssembly
