namespace QueryAssembly

/-! A double is held as the sixty-four bits of its IEEE form: a sign, eleven
bits of exponent and fifty-two bits of fraction. A finite double is
`significand * 2 ^ power`, with its sign. -/

def twoTo (exponent : Nat) : Nat := Nat.pow 2 exponent

def tenTo (exponent : Nat) : Nat := Nat.pow 10 exponent

structure Double where
  bits : UInt64
  deriving DecidableEq, Repr

namespace Double

/-- The bits below the sign, read as a number: doubles of one sign are ordered
as these numbers are. -/
def magnitude (value : Double) : Nat := value.bits.toNat % twoTo 63

def negative (value : Double) : Bool := twoTo 63 ≤ value.bits.toNat

def exponentField (value : Double) : Nat := value.magnitude / twoTo 52

def fractionField (value : Double) : Nat := value.magnitude % twoTo 52

def infiniteMagnitude : Nat := 2047 * twoTo 52

def isFinite (value : Double) : Bool := value.magnitude < infiniteMagnitude

def ofMagnitude (negative : Bool) (magnitude : Nat) : Double :=
  ⟨UInt64.ofNat (if negative then twoTo 63 + magnitude else magnitude)⟩

def infinity (negative : Bool) : Double := ofMagnitude negative infiniteMagnitude

def nan : Double := ofMagnitude false (infiniteMagnitude + twoTo 51)

def significand (value : Double) : Nat :=
  if value.exponentField = 0 then value.fractionField
  else twoTo 52 + value.fractionField

def power (value : Double) : Int :=
  (max value.exponentField 1 : Nat) - 1075

end Double

end QueryAssembly
