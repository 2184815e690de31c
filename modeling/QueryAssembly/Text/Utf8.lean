import QueryAssembly.Text.Basic

namespace QueryAssembly

/-! Reading the UTF-8 form of a text. A refusal names the byte at which the
first sequence that cannot be completed begins. It also tells how many bytes
belong to the longest valid beginning of that sequence, unless the bytes end
within it. -/

structure Utf8Refusal where
  offset : Nat
  length : Option Nat
  deriving DecidableEq, Repr

namespace Utf8

/-- A sequence under way: the bits read so far, how many bytes they came from,
how many are still needed, and the range in which the next one must lie. -/
structure Sequence where
  code : Nat
  taken : Nat
  needed : Nat
  least : Nat
  greatest : Nat

/-- The sequence that a byte above the ASCII range begins. The ranges rule out
overlong forms, surrogates and codes beyond the last character. -/
def Sequence.ofLeading? (byte : Nat) : Option Sequence :=
  if 0xC2 ≤ byte ∧ byte ≤ 0xDF then some ⟨byte - 0xC0, 1, 1, 0x80, 0xBF⟩
  else if byte = 0xE0 then some ⟨0, 1, 2, 0xA0, 0xBF⟩
  else if byte = 0xED then some ⟨0xD, 1, 2, 0x80, 0x9F⟩
  else if 0xE1 ≤ byte ∧ byte ≤ 0xEF then some ⟨byte - 0xE0, 1, 2, 0x80, 0xBF⟩
  else if byte = 0xF0 then some ⟨0, 1, 3, 0x90, 0xBF⟩
  else if byte = 0xF4 then some ⟨4, 1, 3, 0x80, 0x8F⟩
  else if 0xF1 ≤ byte ∧ byte ≤ 0xF3 then some ⟨byte - 0xF0, 1, 3, 0x80, 0xBF⟩
  else none

/-- Read on from `offset`, where characters read before are newest first and
an unfinished sequence began `taken` bytes earlier. -/
def decodeFrom (read : Text) (offset : Nat) (unfinished : Option Sequence) :
    List UInt8 → Except Utf8Refusal Text
  | [] =>
      match unfinished with
      | none => .ok read.reverse
      | some sequence => .error ⟨offset - sequence.taken, none⟩
  | byte :: rest =>
      let value := byte.toNat
      match unfinished with
      | none =>
          if value < 0x80 then
            decodeFrom (Char.ofNat value :: read) (offset + 1) none rest
          else
            match Sequence.ofLeading? value with
            | some sequence => decodeFrom read (offset + 1) (some sequence) rest
            | none => .error ⟨offset, some 1⟩
      | some sequence =>
          if sequence.least ≤ value ∧ value ≤ sequence.greatest then
            let code := sequence.code * 0x40 + (value - 0x80)
            if sequence.needed ≤ 1 then
              decodeFrom (Char.ofNat code :: read) (offset + 1) none rest
            else
              decodeFrom read (offset + 1)
                (some ⟨code, sequence.taken + 1, sequence.needed - 1, 0x80, 0xBF⟩)
                rest
          else
            .error ⟨offset - sequence.taken, some sequence.taken⟩

def decode (bytes : List UInt8) : Except Utf8Refusal Text :=
  decodeFrom [] 0 none bytes

end Utf8

end QueryAssembly
