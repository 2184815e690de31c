import Mathlib.Algebra.Ring.Int.Defs
import QueryAssembly.Json.Token
import QueryAssembly.Text.Name
import QueryAssembly.Value.Render

namespace QueryAssembly

/-! Values as GraphQL documents spell them, read from the left. Decimals and
block strings are not read, and an integer has to fit sixty-four signed bits.
What is a reference to a variable among arguments is the string that stands for
it, with its dollar sign; no quoted string there stands for itself when it begins
with one. -/

namespace ValueReader

def isIgnored (char : Char) : Bool :=
  char == ' ' || char == '\t' || char == '\n' || char == '\r' || char == ',' ||
    char == '\uFEFF'

/-- Drop what stands before the next token, from within a comment or not. -/
def skip (inside : Bool) : Text → Text
  | [] => []
  | char :: rest =>
      if inside then skip (!(char == '\n' || char == '\r')) rest
      else if isIgnored char then skip false rest
      else if char = '#' then skip true rest
      else char :: rest

inductive Place
  | plain
  | afterBackslash
  /-- Before the last digits of an escape, after some that come to `value`. -/
  | inEscape (missing value : Nat)

def letters : Place → Text → Option (Text × Text)
  | _, [] => none
  | .plain, char :: rest =>
      if char = '"' then some ([], rest)
      else if char = '\\' then letters .afterBackslash rest
      else if char.toNat < 0x20 ∧ char ≠ '\t' then none
      else (letters .plain rest).map (Prod.map (char :: ·) id)
  | .afterBackslash, char :: rest =>
      if char = 'u' then letters (.inEscape 3 0) rest
      else do
        let meant ← JsonToken.simpleEscape? char
        (letters .plain rest).map (Prod.map (meant :: ·) id)
  | .inEscape missing value, char :: rest => do
      let digit ← JsonToken.hexDigit? char
      let unit := 16 * value + digit
      match missing with
      | missing + 1 => letters (.inEscape missing unit) rest
      | 0 =>
          if unit.isValidChar then
            (letters .plain rest).map (Prod.map (Char.ofNat unit :: ·) id)
          else
            none

def string? (context : ValueContext) (rest : Text) : Option (Value × Text) :=
  if ['"', '"'] <+: rest then none
  else do
    let (text, onward) ← letters .plain rest
    if context = .argument ∧ text.head? = some '$' then none
    else some (.string text, onward)

def name? (text : Text) : Option (Text × Text) :=
  let name := text.leadingName
  if name.isEmpty then none else some (name, text.drop name.length)

def word? (text : Text) : Option (Value × Text) := do
  let (name, onward) ← name? text
  let value :=
    if name = "null".toList then .null
    else if name = "true".toList then .bool true
    else if name = "false".toList then .bool false
    else .enum name
  return (value, onward)

def reference? (context : ValueContext) (rest : Text) : Option (Value × Text) :=
  match context with
  | .argument => do
      let (name, onward) ← name? rest
      return (.string ('$' :: name), onward)
  | .defaultValue => none

def digits? (text : Text) : Option (Nat × Text) :=
  let digits := text.takeWhile Char.isDigit
  let onward := text.dropWhile Char.isDigit
  if digits.isEmpty ∨ (digits.head? = some '0' ∧ digits ≠ ['0']) then none
  else if onward.head?.any fun char => Text.isNameStart char || char == '.' then
    none
  else some (Numeral.digitsValue digits, onward)

def ofInt? (value : Int) : Option Value :=
  if -2 ^ 63 ≤ value ∧ value < 2 ^ 63 then some (.int (Int64.ofInt value))
  else none

def signed? (sign : Nat → Int) (text : Text) : Option (Value × Text) := do
  let (size, onward) ← digits? text
  let value ← ofInt? (sign size)
  return (value, onward)

def integer? (text : Text) : Option (Value × Text) :=
  if text.head? = some '-' then signed? (fun size => -size) text.tail
  else signed? (fun size => size) text

def parts? {α : Type} (close : Char) (part? : Text → Option (α × Text)) :
    Nat → Text → Option (List α × Text)
  | 0, _ => none
  | bound + 1, text =>
      match skip false text with
      | [] => none
      | char :: rest =>
          if char = close then some ([], rest)
          else do
            let (part, onward) ← part? (char :: rest)
            (parts? close part? bound onward).map (Prod.map (part :: ·) id)

def pair? (value? : Text → Option (Value × Text)) (text : Text) :
    Option ((Text × Value) × Text) := do
  let (key, afterKey) ← name? text
  match skip false afterKey with
  | [] => none
  | char :: rest =>
      if char = ':' then (value? rest).map (Prod.map (key, ·) id) else none

/-- A value with at most `height` levels of values below one another. -/
def value? (context : ValueContext) : (height : Nat) → Text → Option (Value × Text)
  | 0, _ => none
  | height + 1, text =>
      match skip false text with
      | [] => none
      | char :: rest =>
          if char = '"' then string? context rest
          else if char = '[' then
            (parts? ']' (value? context height) rest.length rest).map
              (Prod.map .list id)
          else if char = '\x7b' then
            (parts? '\x7d' (pair? (value? context height)) rest.length rest).map
              (Prod.map .object id)
          else if char = '$' then reference? context rest
          else if char = '-' ∨ char.isDigit then integer? (char :: rest)
          else word? (char :: rest)

end ValueReader

/-- The value that a text begins with, and the text after it. Values are nested
no deeper than their text is long. -/
def readValue? (context : ValueContext) (text : Text) : Option (Value × Text) :=
  ValueReader.value? context text.length text

end QueryAssembly
