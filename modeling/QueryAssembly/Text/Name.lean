import QueryAssembly.Text.Basic

namespace QueryAssembly

namespace Text

/-! A name is an underscore or an ASCII letter followed by any number of
underscores, ASCII letters and digits. -/

def isNameStart (char : Char) : Bool :=
  char == '_' || char.isAlpha

def isNameContinue (char : Char) : Bool :=
  char == '_' || char.isAlphanum

/-- The name that a text begins with, empty when it begins with none. -/
def leadingName : Text → Text
  | [] => []
  | char :: rest =>
      if isNameStart char then char :: rest.takeWhile isNameContinue else []

def nameLength (text : Text) : Nat :=
  bytes text.leadingName

def continuesName (text : Text) : Bool :=
  text.head?.any isNameContinue

end Text

end QueryAssembly
