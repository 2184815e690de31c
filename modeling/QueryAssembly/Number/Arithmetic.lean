import QueryAssembly.Number.Nearest

namespace QueryAssembly

/-! Multiplying and dividing doubles. The exact result is a quotient of natural
numbers, and it is rounded once. Both operations are meant for finite doubles,
and the divisor is not zero. -/

namespace Double

/-- Without its sign, a finite double is its numerator over its denominator. -/
def numerator (value : Double) : Nat :=
  value.significand * twoTo value.power.toNat

def denominator (value : Double) : Nat := twoTo (-value.power).toNat

def nearestRatio (negative : Bool) (numerator denominator : Nat) : Double :=
  if numerator = 0 then ofMagnitude negative 0
  else ofMagnitude negative (nearestMagnitude numerator denominator)

def product (left right : Double) : Double :=
  nearestRatio (left.negative != right.negative)
    (left.numerator * right.numerator) (left.denominator * right.denominator)

def quotient (left right : Double) : Double :=
  nearestRatio (left.negative != right.negative)
    (left.numerator * right.denominator) (left.denominator * right.numerator)

end Double

end QueryAssembly
