import QueryAssembly.Lexical.Match
import QueryAssembly.Selection.Operation
import QueryAssembly.Text.Blank
import QueryAssembly.Text.Name

namespace QueryAssembly

/-! Where a field first occurs in a document. A name that refers to a variable,
a spread or a directive, that labels an alias or argument, or that names an
operation or fragment definition is not a field. -/

/-- The range of a field and of the argument list that follows it, if any. -/
structure FieldOccurrence where
  start : Nat
  stop : Nat
  deriving DecidableEq, Repr

namespace FieldOccurrence

/-- Follow the parentheses in code until the first one opened is closed, and
give the offset after it. -/
def closingOffset : Nat → List Row → Except Fault (Option Nat)
  | _, [] => .ok none
  | depth, row :: rows =>
      if row.state = .code ∧ row.char = '(' then
        closingOffset (depth + 1) rows
      else if row.state = .code ∧ row.char = ')' then
        match depth with
        | 0 => .error (.nothingOpen row.offset)
        | 1 => .ok (some (row.offset + 1))
        | depth + 2 => closingOffset (depth + 1) rows
      else
        closingOffset depth rows

def closingParenthesis (document : Text) (offset : Nat) :
    Except Fault (Option Nat) := do
  let scanner ← Scanner.resumeInCode document offset
  closingOffset 0 scanner.rows

/-- The depth of braces after a row, where closing braces too many are
ignored. -/
def braceDepthAfter (depth : Nat) (row : Row) : Nat :=
  if row.state = .code ∧ row.char = '\x7b' then depth + 1
  else if row.state = .code ∧ row.char = '\x7d' then depth - 1
  else depth

def braceDepthInCode (document : Text) (offset : Nat) : Option Nat :=
  let passed := (rowsOf document).takeWhile fun row => row.offset < offset
  if stateAt document offset = .code then
    some (passed.foldl braceDepthAfter 0)
  else
    none

def isDefinitionKeyword (word : Text) : Bool :=
  word == "fragment".toList || isOperationKeyword word

/-- Whether a name that stands after the given text is the name of a
definition: blanks separate it from a keyword at the top level. -/
def namesDefinition (document before : Text) : Bool :=
  let trimmed := before.trimEnd
  if trimmed.length = before.length then
    false
  else
    let keyword := (trimmed.reverse.takeWhile Text.isNameContinue).reverse
    isDefinitionKeyword keyword &&
      braceDepthInCode document (trimmed.bytes - Text.bytes keyword) == some 0

def belongsToName (previous : Char) : Bool :=
  Text.isNameContinue previous || previous == '$' || previous == '.' ||
    previous == '@'

def atMatch? (document field : Text) (place : CodeMatch) :
    Except Fault (Option FieldOccurrence) := do
  let before ← document.before place.offset
  if before.getLast?.any belongsToName || namesDefinition document before ||
      place.following.continuesName then
    return none
  else
    let nameEnd := place.offset + field.bytes
    let gap := place.following.blankLength
    let afterGap ← place.following.onward gap
    if afterGap.head? = some ':' then
      return none
    else if afterGap.head? = some '(' then
      let stop ← closingParenthesis document (nameEnd + gap)
      return some ⟨place.offset, stop.getD nameEnd⟩
    else
      return some ⟨place.offset, nameEnd⟩

def first? (document field : Text) : Except Fault (Option FieldOccurrence) :=
  if field.isEmpty then
    .ok none
  else do
    (← codeMatches field document).findSomeM? (atMatch? document field)

end FieldOccurrence

end QueryAssembly
