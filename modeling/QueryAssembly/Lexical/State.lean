import QueryAssembly.Text.Basic

namespace QueryAssembly

/-! Every position of a document lies in code, in a line comment, or in a
quoted literal. Literals stay on one level: they close at the quote that
opened them, unless the character before it is a backslash. -/

inductive Quote
  | double
  | single
  deriving DecidableEq, Repr

namespace Quote

def mark : Quote → Char
  | .double => '"'
  | .single => '\''

end Quote

inductive LexicalState
  | code
  | comment
  | literal (quote : Quote)
  deriving DecidableEq, Repr

namespace LexicalState

/-- The state after a character, given the character before it. -/
def next (previous : Option Char) (char : Char) : LexicalState → LexicalState
  | .code =>
      if char = Quote.double.mark then .literal .double
      else if char = Quote.single.mark then .literal .single
      else if char = '#' then .comment
      else .code
  | .comment => if char = '\n' ∨ char = '\r' then .code else .comment
  | .literal quote =>
      if char = quote.mark ∧ previous ≠ some '\\' then .code
      else .literal quote

end LexicalState

end QueryAssembly
