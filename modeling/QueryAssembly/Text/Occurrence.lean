import QueryAssembly.Text.Basic

namespace QueryAssembly

namespace Text

/-! The places where one text occurs in another, taken from the left without
overlap. The empty text occurs at every byte offset, the end included. -/

/-- Occurrences of a needle in the text at `offset`, where the next `skip`
characters belong to the occurrence found last. -/
def occurrencesFrom (needle : Text) (found : List Nat) :
    Nat → Nat → Text → List Nat
  | _, _, [] => found.reverse
  | offset, skip + 1, char :: rest =>
      occurrencesFrom needle found (offset + char.utf8Size) skip rest
  | offset, 0, char :: rest =>
      if needle.isPrefixOf (char :: rest) then
        occurrencesFrom needle (offset :: found) (offset + char.utf8Size)
          (needle.length - 1) rest
      else
        occurrencesFrom needle found (offset + char.utf8Size) 0 rest

def occurrences (needle source : Text) : List Nat :=
  if needle.isEmpty then
    List.range (source.bytes + 1)
  else
    occurrencesFrom needle [] 0 0 source

end Text

end QueryAssembly
