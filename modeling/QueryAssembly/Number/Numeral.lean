import QueryAssembly.Number.Nearest
import QueryAssembly.Text.Basic

namespace QueryAssembly

/-! A decimal numeral as it stands in a text: a sign, digits, digits after a
point, and a power of ten. Which of its parts may be missing is for the format
that holds the numeral to say. -/

structure Numeral where
  sign : Option Char
  whole : Text
  fraction : Option Text
  powerSign : Option Char
  power : Option Text
  deriving DecidableEq, Repr

namespace Numeral

def takeSign : Text → Option Char × Text
  | [] => (none, [])
  | char :: rest =>
      if char = '+' ∨ char = '-' then (some char, rest)
      else (none, char :: rest)

def takeFraction : Text → Option Text × Text
  | [] => (none, [])
  | char :: rest =>
      if char = '.' then
        (some (rest.takeWhile Char.isDigit), rest.dropWhile Char.isDigit)
      else
        (none, char :: rest)

def takePower : Text → (Option Char × Option Text) × Text
  | [] => ((none, none), [])
  | char :: rest =>
      if char = 'e' ∨ char = 'E' then
        let (sign, digits) := takeSign rest
        ((sign, some (digits.takeWhile Char.isDigit)),
          digits.dropWhile Char.isDigit)
      else
        ((none, none), char :: rest)

def ofText? (text : Text) : Option Numeral :=
  let (sign, unsigned) := takeSign text
  let whole := unsigned.takeWhile Char.isDigit
  let (fraction, afterFraction) := takeFraction (unsigned.dropWhile Char.isDigit)
  let ((powerSign, power), afterPower) := takePower afterFraction
  if afterPower.isEmpty then some ⟨sign, whole, fraction, powerSign, power⟩
  else none

def negative (numeral : Numeral) : Bool := numeral.sign == some '-'

def digitsValue (digits : Text) : Nat :=
  digits.foldl (fun value digit => 10 * value + (digit.toNat - '0'.toNat)) 0

/-- Powers this long are as good as infinite for every text that fits in
memory, so their digits are not read out. -/
def powerValue (numeral : Numeral) : Int :=
  let digits := (numeral.power.getD []).dropWhile (· == '0')
  let size : Nat := if 18 < digits.length then tenTo 18 else digitsValue digits
  if numeral.powerSign = some '-' then -size else size

def toDouble (numeral : Numeral) : Double :=
  let fraction := numeral.fraction.getD []
  Double.nearest numeral.negative (digitsValue (numeral.whole ++ fraction))
    (numeral.powerValue - fraction.length)

end Numeral

end QueryAssembly
