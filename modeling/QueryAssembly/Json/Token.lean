import QueryAssembly.Json.Basic

namespace QueryAssembly

/-! The tokens of a JSON text: punctuation, strings with their escapes undone,
and words. A word is a run of characters up to the next blank, quote or
punctuation; it has to be a number or one of the three names. -/

inductive JsonToken
  | openBrace
  | closeBrace
  | openBracket
  | closeBracket
  | colon
  | comma
  | string (value : Text)
  | word (value : Json)

namespace JsonToken

/-- Where a reader stands between two characters. Characters of the token
under way are kept newest first. -/
inductive Progress
  | between
  | inWord (letters : Text)
  | inString (letters : Text)
  | afterBackslash (letters : Text)
  /-- Within a `\u` escape, after some of its digits. The leading surrogate of
  the escape before it is kept while its partner is awaited. -/
  | inEscape (letters : Text) (leading : Option Nat) (count value : Nat)
  /-- After a leading surrogate, with or without the next backslash. -/
  | awaitingPartner (letters : Text) (leading : Nat) (backslash : Bool)

def punctuation? (char : Char) : Option JsonToken :=
  if char = '\x7b' then some .openBrace
  else if char = '\x7d' then some .closeBrace
  else if char = '[' then some .openBracket
  else if char = ']' then some .closeBracket
  else if char = ':' then some .colon
  else if char = ',' then some .comma
  else none

def isSpace (char : Char) : Bool :=
  char == ' ' || char == '\t' || char == '\n' || char == '\r'

def ofWord? (text : Text) : Option JsonToken :=
  if text = "null".toList then some (.word .null)
  else if text = "true".toList then some (.word (.bool true))
  else if text = "false".toList then some (.word (.bool false))
  else (Numeral.ofText? text).bind Json.ofNumeral? |>.map .word

def hexDigit? (char : Char) : Option Nat :=
  if char.isDigit then some (char.toNat - '0'.toNat)
  else if 'a' ≤ char ∧ char ≤ 'f' then some (char.toNat - 'a'.toNat + 10)
  else if 'A' ≤ char ∧ char ≤ 'F' then some (char.toNat - 'A'.toNat + 10)
  else none

def simpleEscape? (char : Char) : Option Char :=
  if char = '"' ∨ char = '\\' ∨ char = '/' then some char
  else if char = 'b' then some '\x08'
  else if char = 'f' then some '\x0c'
  else if char = 'n' then some '\n'
  else if char = 'r' then some '\r'
  else if char = 't' then some '\t'
  else none

def isLeadingSurrogate (unit : Nat) : Bool := 0xD800 ≤ unit && unit < 0xDC00

def isTrailingSurrogate (unit : Nat) : Bool := 0xDC00 ≤ unit && unit < 0xE000

def finishEscape (letters : Text) : Option Nat → Nat → Option Progress
  | none, unit =>
      if isLeadingSurrogate unit then some (.awaitingPartner letters unit false)
      else if isTrailingSurrogate unit then none
      else some (.inString (Char.ofNat unit :: letters))
  | some leading, unit =>
      if isTrailingSurrogate unit then
        let code := 0x10000 + (leading - 0xD800) * 0x400 + (unit - 0xDC00)
        some (.inString (Char.ofNat code :: letters))
      else
        none

def readBetween (tokens : List JsonToken) (char : Char) :
    Progress × List JsonToken :=
  match punctuation? char with
  | some token => (.between, token :: tokens)
  | none =>
      if isSpace char then (.between, tokens)
      else if char = '"' then (.inString [], tokens)
      else (.inWord [char], tokens)

def step (char : Char) (tokens : List JsonToken) :
    Progress → Option (Progress × List JsonToken)
  | .between => some (readBetween tokens char)
  | .inWord letters =>
      if isSpace char ∨ char = '"' ∨ (punctuation? char).isSome then do
        let token ← ofWord? letters.reverse
        return readBetween (token :: tokens) char
      else
        some (.inWord (char :: letters), tokens)
  | .inString letters =>
      if char = '"' then some (.between, .string letters.reverse :: tokens)
      else if char = '\\' then some (.afterBackslash letters, tokens)
      else if char.toNat < 0x20 then none
      else some (.inString (char :: letters), tokens)
  | .afterBackslash letters =>
      if char = 'u' then some (.inEscape letters none 0 0, tokens)
      else (simpleEscape? char).map fun meant =>
        (.inString (meant :: letters), tokens)
  | .inEscape letters leading count value => do
      let digit ← hexDigit? char
      if count < 3 then
        return (.inEscape letters leading (count + 1) (16 * value + digit), tokens)
      else
        let progress ← finishEscape letters leading (16 * value + digit)
        return (progress, tokens)
  | .awaitingPartner letters leading backslash =>
      if backslash then
        if char = 'u' then some (.inEscape letters (some leading) 0 0, tokens)
        else none
      else
        if char = '\\' then some (.awaitingPartner letters leading true, tokens)
        else none

def readAll (progress : Progress) (tokens : List JsonToken) :
    Text → Option (List JsonToken)
  | [] =>
      match progress with
      | .between => some tokens.reverse
      | .inWord letters =>
          (ofWord? letters.reverse).map fun token => (token :: tokens).reverse
      | _ => none
  | char :: rest =>
      match step char tokens progress with
      | some (progress, tokens) => readAll progress tokens rest
      | none => none

def ofText? (text : Text) : Option (List JsonToken) :=
  readAll .between [] text

end JsonToken

end QueryAssembly
