import QueryAssembly.Number.Double

namespace QueryAssembly

/-! The double nearest to a decimal number. All arithmetic is exact; a number
halfway between two doubles goes to the one with the even significand, and a
number beyond the largest double goes to infinity. -/

def nearestQuotient (numerator denominator : Nat) : Nat :=
  let quotient := numerator / denominator
  let remainder := numerator % denominator
  if 2 * remainder < denominator ∨
      (2 * remainder = denominator ∧ quotient % 2 = 0) then
    quotient
  else
    quotient + 1

/-- The greatest `exponent` for which `2 ^ exponent` does not exceed the
quotient of two positive numbers. -/
def floorLog2 (numerator denominator : Nat) : Int :=
  let guess : Int := numerator.log2 - denominator.log2
  if denominator * twoTo guess.toNat ≤ numerator * twoTo (-guess).toNat then guess
  else guess - 1

namespace Double

/-- The magnitude nearest to a quotient of two positive numbers. Adding the
significand to the shifted exponent lets a significand that rounded up to the
next power of two carry into the exponent. -/
def nearestMagnitude (numerator denominator : Nat) : Nat :=
  let power := max (floorLog2 numerator denominator - 52) (-1074)
  let significand := nearestQuotient (numerator * twoTo (-power).toNat)
    (denominator * twoTo power.toNat)
  min infiniteMagnitude ((power + 1074).toNat * twoTo 52 + significand)

/-- The double nearest to `digits * 10 ^ exponent`. Numbers of 10 ^ 310 and
more are infinite and numbers below 10 ^ -330 vanish, whatever their digits. -/
def nearest (negative : Bool) (digits : Nat) (exponent : Int) : Double :=
  let leading := exponent + (Nat.toDigits 10 digits).length
  if digits = 0 ∨ leading < -330 then
    ofMagnitude negative 0
  else if 310 < leading then
    infinity negative
  else
    ofMagnitude negative (nearestMagnitude
      (digits * tenTo exponent.toNat) (tenTo (-exponent).toNat))

end Double

end QueryAssembly
