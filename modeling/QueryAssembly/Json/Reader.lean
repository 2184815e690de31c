import QueryAssembly.Json.Token

namespace QueryAssembly

/-! Reading JSON. The reader keeps the arrays and objects that are still open,
innermost first, and what may come next. When a key is repeated in an object
its last value stands at the place of the first. -/

namespace Json

inductive Frame
  /-- An array with its items so far, newest first. -/
  | items (read : List Json)
  /-- An object with its members so far and the key of the next one. -/
  | members (read : List (Text × Json)) (key : Text)

inductive Expected
  | value
  | itemOrClose
  | key (read : List (Text × Json))
  | keyOrClose
  | colon (read : List (Text × Json)) (key : Text)
  | commaOrClose
  | nothing (result : Json)

def place (value : Json) : List Frame → Expected × List Frame
  | [] => (.nothing value, [])
  | .items read :: outer => (.commaOrClose, .items (value :: read) :: outer)
  | .members read key :: outer =>
      (.commaOrClose, .members (putEntry key value read) key :: outer)

def startValue (limit : Nat) (frames : List Frame) :
    JsonToken → Option (Expected × List Frame)
  | .word value => some (place value frames)
  | .string value => some (place (.string value) frames)
  | .openBracket =>
      if frames.length < limit then some (.itemOrClose, .items [] :: frames)
      else none
  | .openBrace =>
      if frames.length < limit then some (.keyOrClose, .members [] [] :: frames)
      else none
  | _ => none

def readToken (limit : Nat) (token : JsonToken) :
    Expected → List Frame → Option (Expected × List Frame)
  | .value, frames => startValue limit frames token
  | .itemOrClose, frames =>
      match token, frames with
      | .closeBracket, .items read :: outer =>
          some (place (.array read.reverse) outer)
      | _, _ => startValue limit frames token
  | .key read, frames =>
      match token with
      | .string key => some (.colon read key, frames)
      | _ => none
  | .keyOrClose, frames =>
      match token, frames with
      | .closeBrace, .members read _ :: outer =>
          some (place (.object read) outer)
      | .string key, .members read _ :: outer => some (.colon read key, outer)
      | _, _ => none
  | .colon read key, frames =>
      match token with
      | .colon => some (.value, .members read key :: frames)
      | _ => none
  | .commaOrClose, frames =>
      match token, frames with
      | .comma, .items read :: outer => some (.value, .items read :: outer)
      | .comma, .members read _ :: outer => some (.key read, outer)
      | .closeBracket, .items read :: outer =>
          some (place (.array read.reverse) outer)
      | .closeBrace, .members read _ :: outer =>
          some (place (.object read) outer)
      | _, _ => none
  | .nothing _, _ => none

def readTokens (limit : Nat) (expected : Expected) (frames : List Frame) :
    List JsonToken → Option Json
  | [] =>
      match expected with
      | .nothing result => some result
      | _ => none
  | token :: rest =>
      match readToken limit token expected frames with
      | some (expected, frames) => readTokens limit expected frames rest
      | none => none

/-- Read a text that is one JSON value, nested at most `limit` deep. -/
def ofText? (limit : Nat) (text : Text) : Option Json := do
  readTokens limit .value [] (← JsonToken.ofText? text)

end Json

end QueryAssembly
