import QueryAssembly.Error
import QueryAssembly.Lexical.Match
import QueryAssembly.Registry
import QueryAssembly.Text.Name

namespace QueryAssembly

/-! Fragment spreads in code give way to the bodies of their fragments. Bodies
may hold spreads of their own, so whole passes over the document repeat until
one replaces nothing. Spreads in literals and comments, and spreads of unknown
fragments, stay as they are. -/

abbrev FragmentRegistry := Registry Text

namespace Fragment

/-- How many passes may replace something before the fragments count as cyclic
or out of hand. -/
def passLimit : Nat := 10

def spread (name : Text) : Text := '.' :: '.' :: '.' :: name

/-- Spreads in code that end at the end of a name. -/
def spreadOffsets (spread document : Text) : Except Fault (List Nat) := do
  let found ← codeMatches spread document
  return (found.filter fun place => !place.following.continuesName).map
    CodeMatch.offset

/-- A document under replacement: the finished pieces newest first, the text
that is left, where it starts, and the number of replacements made. -/
structure Splice where
  pieces : List Text
  copied : Nat
  rest : Text
  count : Nat

namespace Splice

def ofDocument (document : Text) : Splice := ⟨[], 0, document, 0⟩

/-- Replace `width` bytes at an offset, unless a replacement covers it. -/
def replaceAt (body : Text) (width : Nat) (splice : Splice) (offset : Nat) :
    Except Fault Splice :=
  if offset < splice.copied then
    .ok splice
  else do
    let (kept, onward) ← splice.rest.cut (offset - splice.copied)
    let (_, rest) ← onward.cut width
    return ⟨body :: kept :: splice.pieces, offset + width, rest,
      splice.count + 1⟩

def text (splice : Splice) : Text :=
  splice.pieces.reverse.flatten ++ splice.rest

end Splice

/-- Replace the spreads of one fragment. The result is the new text and the
number of replacements, or nothing when there were none. -/
def replaceSpreads (document name body : Text) :
    Except Fault (Option (Text × Nat)) :=
  if name.isEmpty then
    .ok none
  else do
    let offsets ← spreadOffsets (spread name) document
    let splice ← offsets.foldlM (Splice.replaceAt body (spread name).bytes)
      (Splice.ofDocument document)
    return if splice.count = 0 then none else some (splice.text, splice.count)

def replaceFragment (reached : Text × Nat) (fragment : Text × Text) :
    Except Fault (Text × Nat) := do
  match ← replaceSpreads reached.1 fragment.1 fragment.2 with
  | some (next, replacements) => return (next, reached.2 + replacements)
  | none => return reached

def pass (fragments : FragmentRegistry) (document : Text) :
    Except Fault (Text × Nat) :=
  fragments.entries.foldlM replaceFragment (document, 0)

inductive Outcome
  | settled (document : Text)
  | unsettled (document : Text)
  deriving DecidableEq, Repr

def repeatPasses (fragments : FragmentRegistry) :
    Nat → Text → Except Fault Outcome
  | 0, document => .ok (.unsettled document)
  | remaining + 1, document => do
      let (next, replacements) ← pass fragments document
      if replacements = 0 then return .settled next
      else repeatPasses fragments remaining next

def hasSpread (document name : Text) : Except Fault Bool :=
  if name.isEmpty then
    .ok false
  else do
    let offsets ← spreadOffsets (spread name) document
    return !offsets.isEmpty

def remainingNames (fragments : FragmentRegistry) (document : Text) :
    Except Fault (List Text) :=
  fragments.keys.filterM (hasSpread document)

def resolve (document : Text) (fragments : FragmentRegistry) :
    Except ComposeError Text :=
  if fragments.isEmpty then
    .ok document
  else
    match repeatPasses fragments passLimit document with
    | .error fault => .error (.fault fault)
    | .ok (.settled resolved) => .ok resolved
    | .ok (.unsettled reached) =>
        match remainingNames fragments reached with
        | .error fault => .error (.fault fault)
        | .ok names => .error (.excessiveExpansion passLimit names)

end Fragment

end QueryAssembly
