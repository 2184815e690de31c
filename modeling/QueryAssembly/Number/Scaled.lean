import QueryAssembly.Number.Arithmetic
import QueryAssembly.Number.Numeral

namespace QueryAssembly

/-! Reading a numeral as a whole number of sixty-four bits that is scaled by a
power of ten. Each multiplication and each division rounds, so the result may
differ in its last digits from the double that is nearest to the numeral. -/

namespace Numeral

/-- Append digits to a number for as long as it fits sixty-four bits. The digits
from the first one that does not fit are left over. -/
def fitDigits (significand : Nat) : Text → Nat × Text
  | [] => (significand, [])
  | digit :: rest =>
      let extended := 10 * significand + (digit.toNat - '0'.toNat)
      if extended < twoTo 64 then fitDigits extended rest
      else (significand, digit :: rest)

/-- The significand of a numeral and the power of ten that goes with it. A digit
left over before the point raises the power, one kept after the point lowers
it, and one left over after the point is lost. -/
def scaledParts (numeral : Numeral) : Nat × Int :=
  let fraction := numeral.fraction.getD []
  let (whole, wholeRest) := fitDigits 0 numeral.whole
  let (significand, fractionRest) := fitDigits whole fraction
  let kept := fraction.length - fractionRest.length
  (significand, numeral.powerValue + wholeRest.length - kept)

end Numeral

namespace Double

def powerOfTen (exponent : Nat) : Double := nearest false 1 exponent

def greatestPowerOfTen : Nat := 308

/-- A whole number of at most sixty-four bits times a power of ten, unless it is
too large for a double. A divisor beyond the greatest power of ten is divided
out in two steps; two such powers leave nothing of any significand. -/
def scaled? (significand : Nat) (exponent : Int) : Option Double :=
  let value := nearest false significand 0
  if significand = 0 then
    some value
  else if greatestPowerOfTen < exponent then
    none
  else if 0 ≤ exponent then
    let result := value.product (powerOfTen exponent.toNat)
    if result.isFinite then some result else none
  else
    let divisor := (-exponent).toNat
    if divisor ≤ greatestPowerOfTen then
      some (value.quotient (powerOfTen divisor))
    else if divisor ≤ 2 * greatestPowerOfTen then
      some ((value.quotient (powerOfTen greatestPowerOfTen)).quotient
        (powerOfTen (divisor - greatestPowerOfTen)))
    else
      some (ofMagnitude false 0)

end Double

def Numeral.scaled? (numeral : Numeral) : Option Double :=
  let (significand, exponent) := numeral.scaledParts
  (Double.scaled? significand exponent).map fun value =>
    Double.ofMagnitude numeral.negative value.magnitude

end QueryAssembly
