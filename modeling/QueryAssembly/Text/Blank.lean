import QueryAssembly.Text.Basic

namespace QueryAssembly

namespace Text

/-! Blank characters have the Unicode property White_Space; control characters
have the general category Cc. -/

def isBlank (char : Char) : Bool :=
  let code := char.toNat
  (9 ≤ code && code ≤ 13) || code == 0x20 || code == 0x85 || code == 0xA0 ||
    code == 0x1680 || (0x2000 ≤ code && code ≤ 0x200A) || code == 0x2028 ||
    code == 0x2029 || code == 0x202F || code == 0x205F || code == 0x3000

def isControl (char : Char) : Bool :=
  let code := char.toNat
  code < 0x20 || (0x7F ≤ code && code ≤ 0x9F)

def trimStart (text : Text) : Text :=
  text.dropWhile isBlank

def trimEnd (text : Text) : Text :=
  (text.reverse.dropWhile isBlank).reverse

def trim (text : Text) : Text :=
  text.trimStart.trimEnd

def blankLength (text : Text) : Nat :=
  bytes (text.takeWhile isBlank)

end Text

end QueryAssembly
