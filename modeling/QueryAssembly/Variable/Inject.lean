import QueryAssembly.Lexical.Ignored
import QueryAssembly.Lexical.Scanner
import QueryAssembly.Selection.Operation
import QueryAssembly.Text.Name

namespace QueryAssembly

/-! Variable definitions are inserted after the keyword of the first operation
and its optional name. An operation that has a list of its own keeps it as it
is, and a shorthand query is given a keyword. -/

inductive InsertionPoint
  | afterHeader (offset : Nat)
  | shorthandQuery (offset : Nat)
  | alreadyDeclared
  | nowhere
  deriving DecidableEq, Repr

namespace InsertionPoint

def ofKeyword (document : Text) (keywordEnd : Nat) :
    Except Fault InsertionPoint := do
  let afterKeyword ← document.onward keywordEnd
  let gap := afterKeyword.ignoredLength
  let nameLength := (← afterKeyword.onward gap).nameLength
  let headerEnd :=
    if nameLength = 0 then keywordEnd else keywordEnd + gap + nameLength
  let afterHeader ← document.onward headerEnd
  let next ← afterHeader.onward afterHeader.ignoredLength
  return if next.head? = some '(' then .alreadyDeclared
    else .afterHeader headerEnd

/-- Look for the first operation. `depth` counts open braces, `previous` is
the code character right before the next row, and `seen` tells whether any
code came before. -/
def ofRows (document : Text) (depth : Nat) (previous : Option Char)
    (seen : Bool) : List Row → Except Fault InsertionPoint
  | [] => .ok .nowhere
  | row :: rows =>
      if row.state ≠ .code ∨ row.char = '#' ∨ Text.isBlank row.char then
        ofRows document depth none seen rows
      else if row.char = '\x7b' then
        if depth = 0 ∧ seen = false then .ok (.shorthandQuery row.offset)
        else ofRows document (depth + 1) (some row.char) true rows
      else if row.char = '\x7d' then
        ofRows document (depth - 1) (some row.char) true rows
      else if depth = 0 ∧ previous.any Text.isNameContinue = false then do
        let onward ← document.onward row.offset
        let word := onward.leadingName
        if isOperationKeyword word then
          ofKeyword document (row.offset + word.bytes)
        else
          ofRows document depth (some row.char) true rows
      else
        ofRows document depth (some row.char) true rows

def ofDocument (document : Text) : Except Fault InsertionPoint :=
  ofRows document 0 none false (rowsOf document)

end InsertionPoint

namespace VariableDefinitions

def inject (document : Text) (definitions : VariableDefinitions) :
    Except Fault Text :=
  if definitions.isEmpty then
    .ok document
  else do
    match ← InsertionPoint.ofDocument document with
    | .afterHeader offset =>
        let (before, after) ← document.cut offset
        return before ++ definitions.render ++ after
    | .shorthandQuery offset =>
        let (before, after) ← document.cut offset
        return before ++ OperationKind.query.keyword ++ definitions.render ++
          ' ' :: after
    | .alreadyDeclared => return document
    | .nowhere => return document

end VariableDefinitions

end QueryAssembly
