import QueryAssembly.Text.Basic

namespace QueryAssembly

namespace Text

def splitOnce (separator : Char) : Text → Option (Text × Text)
  | [] => none
  | char :: rest =>
      if char = separator then some ([], rest)
      else (splitOnce separator rest).map fun (before, after) =>
        (char :: before, after)

/-- The parts of a text between its separators, empty parts included. -/
def fields (separator : Char) : Text → List Text
  | [] => [[]]
  | char :: rest =>
      match fields separator rest with
      | first :: others =>
          if char = separator then [] :: first :: others
          else (char :: first) :: others
      | [] => [[char]]

end Text

end QueryAssembly
