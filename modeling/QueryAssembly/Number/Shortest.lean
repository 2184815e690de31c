import QueryAssembly.Number.Double

namespace QueryAssembly

/-! The shortest decimal that reads back as a given finite double. On each
grid of decimals with one to seventeen digits the two neighbours of the double
are tried; the first grid with a neighbour inside the interval of numbers that
round to the double wins, and of two such neighbours the nearer one. -/

structure Decimal where
  digits : Nat
  exponent : Int
  deriving DecidableEq, Repr

/-- Which neighbour is taken when a double lies midway between two. -/
inductive TieRule
  | toEven
  | awayFromZero
  deriving DecidableEq, Repr

namespace Double

/-- A positive finite double and the ends of the interval that rounds to it,
as numerators over one denominator. -/
structure Interval where
  lower : Nat
  middle : Nat
  upper : Nat
  denominator : Nat
  closed : Bool

/-- Below a power of two the neighbouring double is only half as far away. -/
def interval (value : Double) : Interval :=
  let scale := twoTo value.power.toNat
  let below := if value.fractionField = 0 ∧ 1 < value.exponentField then 1 else 2
  { lower := (4 * value.significand - below) * scale
    middle := 4 * value.significand * scale
    upper := (4 * value.significand + 2) * scale
    denominator := 4 * twoTo (-value.power).toNat
    closed := value.significand % 2 = 0 }

namespace Interval

def holds (interval : Interval) (digits : Nat) (exponent : Int) : Bool :=
  let candidate := digits * tenTo exponent.toNat * interval.denominator
  let unit := tenTo (-exponent).toNat
  let lower := interval.lower * unit
  let upper := interval.upper * unit
  if interval.closed then lower ≤ candidate && candidate ≤ upper
  else lower < candidate && candidate < upper

/-- The number of digits before the decimal point: the least `count` for which
the number is below `10 ^ count`. No double is finer than `10 ^ -400`. -/
def pointPosition (interval : Interval) : Int :=
  (Nat.toDigits 10
    (interval.middle * tenTo 400 / interval.denominator)).length - 400

/-- The better neighbour on the grid with the given exponent, if one lies in
the interval. -/
def neighbour? (interval : Interval) (tie : TieRule) (exponent : Int) :
    Option Nat :=
  let numerator := interval.middle * tenTo (-exponent).toNat
  let denominator := interval.denominator * tenTo exponent.toNat
  let below := numerator / denominator
  let remainder := numerator % denominator
  let nearer :=
    if 2 * remainder < denominator then below
    else if denominator < 2 * remainder then below + 1
    else match tie with
      | .toEven => below + below % 2
      | .awayFromZero => below + 1
  match interval.holds below exponent, interval.holds (below + 1) exponent with
  | true, true => some nearer
  | true, false => some below
  | false, true => some (below + 1)
  | false, false => none

def search (interval : Interval) (tie : TieRule) (finest : Int) :
    Nat → Decimal
  | 0 => ⟨interval.middle * tenTo (-finest).toNat /
      (interval.denominator * tenTo finest.toNat), finest⟩
  | count + 1 =>
      match interval.neighbour? tie (finest + count) with
      | some digits => ⟨digits, finest + count⟩
      | none => interval.search tie finest count

end Interval

def shortest (tie : TieRule) (value : Double) : Decimal :=
  if value.significand = 0 then
    ⟨0, 0⟩
  else
    let interval := value.interval
    interval.search tie (interval.pointPosition - 17) 17

end Double

end QueryAssembly
