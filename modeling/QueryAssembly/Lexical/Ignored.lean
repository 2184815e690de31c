import QueryAssembly.Text.Blank

namespace QueryAssembly

namespace Text

/-! Blanks and line comments may stand between any two tokens. A comment runs
from its `#` to the line break, which is itself a blank. -/

/-- What is left of a text after leading blanks and comments, where the flag
tells whether the text starts inside a comment. -/
def afterIgnored : Bool → Text → Text
  | _, [] => []
  | true, char :: rest =>
      afterIgnored (char != '\n' && char != '\r') rest
  | false, char :: rest =>
      if isBlank char then afterIgnored false rest
      else if char == '#' then afterIgnored true rest
      else char :: rest

def ignoredLength (text : Text) : Nat :=
  text.bytes - (afterIgnored false text).bytes

end Text

end QueryAssembly
