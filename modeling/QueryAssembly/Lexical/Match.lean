import QueryAssembly.Lexical.Scanner
import QueryAssembly.Text.Occurrence

namespace QueryAssembly

/-! Occurrences of a needle that begin in code. One scanner visits them all
from left to right. -/

structure CodeMatch where
  offset : Nat
  following : Text
  deriving DecidableEq, Repr

def matchesInCode (width : Nat) (found : List CodeMatch) :
    Scanner → List Nat → Except Fault (List CodeMatch)
  | _, [] => .ok found.reverse
  | scanner, offset :: offsets =>
      if offset < scanner.offset then
        .error (.behindScanner offset)
      else
        let reached := scanner.advanceTo offset
        if reached.state = .code then do
          let following ← reached.rest.onward width
          matchesInCode width (⟨offset, following⟩ :: found) reached offsets
        else
          matchesInCode width found reached offsets

def codeMatches (needle source : Text) : Except Fault (List CodeMatch) :=
  matchesInCode needle.bytes [] (.ofSource source)
    (needle.occurrences source)

end QueryAssembly
