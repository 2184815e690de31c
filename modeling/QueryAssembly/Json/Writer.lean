import QueryAssembly.Json.Basic
import QueryAssembly.Number.Layout

namespace QueryAssembly

/-! Writing JSON on one line without blanks, or with one item to a line and two
blanks to a level. Strings escape the quote, the backslash and the characters
below the blank, and nothing else. -/

namespace Json

/-- Doubles from 10 ^ -5 up to 10 ^ 16 have their point among the digits. -/
def numberLayout : NumberLayout where
  leastPoint := -4
  greatestPoint := 16
  plusSign := true
  tie := .toEven

def hexDigit (value : Nat) : Char :=
  if value < 10 then Char.ofNat ('0'.toNat + value)
  else Char.ofNat ('a'.toNat + (value - 10))

def writeChar (char : Char) : Text :=
  if char = '"' then ['\\', '"']
  else if char = '\\' then ['\\', '\\']
  else if char = '\x08' then ['\\', 'b']
  else if char = '\x0c' then ['\\', 'f']
  else if char = '\n' then ['\\', 'n']
  else if char = '\r' then ['\\', 'r']
  else if char = '\t' then ['\\', 't']
  else if char.toNat < 0x20 then
    ['\\', 'u', '0', '0', hexDigit (char.toNat / 16), hexDigit (char.toNat % 16)]
  else [char]

def writeString (value : Text) : Text :=
  '"' :: (value.flatMap writeChar ++ ['"'])

mutual
def compact : Json → Text
  | .null => "null".toList
  | .bool true => "true".toList
  | .bool false => "false".toList
  | .integer value => Text.ofInt value
  | .number value => value.write numberLayout
  | .string value => writeString value
  | .array items => '[' :: (Text.joined [','] (compactItems items) ++ [']'])
  | .object members =>
      '\x7b' :: (Text.joined [','] (compactMembers members) ++ ['\x7d'])

def compactItems : List Json → List Text
  | [] => []
  | item :: rest => item.compact :: compactItems rest

def compactMembers : List (Text × Json) → List Text
  | [] => []
  | (key, value) :: rest =>
      (writeString key ++ ':' :: value.compact) :: compactMembers rest
end

def indentation (depth : Nat) : Text :=
  List.replicate (2 * depth) ' '

def bracketed (opening closing : Char) (depth : Nat) : List Text → Text
  | [] => [opening, closing]
  | lines =>
      let newLine := '\n' :: indentation (depth + 1)
      opening :: (newLine ++ Text.joined (',' :: newLine) lines ++
        '\n' :: indentation depth ++ [closing])

mutual
def pretty (depth : Nat) : Json → Text
  | .array items => bracketed '[' ']' depth (prettyItems (depth + 1) items)
  | .object members =>
      bracketed '\x7b' '\x7d' depth (prettyMembers (depth + 1) members)
  | .null => compact .null
  | .bool value => compact (.bool value)
  | .integer value => compact (.integer value)
  | .number value => compact (.number value)
  | .string value => compact (.string value)

def prettyItems (depth : Nat) : List Json → List Text
  | [] => []
  | item :: rest => item.pretty depth :: prettyItems depth rest

def prettyMembers (depth : Nat) : List (Text × Json) → List Text
  | [] => []
  | (key, value) :: rest =>
      (writeString key ++ ':' :: ' ' :: value.pretty depth) ::
        prettyMembers depth rest
end

end Json

end QueryAssembly
