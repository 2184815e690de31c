import QueryAssembly.Number.Shortest
import QueryAssembly.Text.Basic

namespace QueryAssembly

/-! How numbers are written. An integer is its decimal digits behind an
optional minus sign. A finite double is the shortest decimal that reads back,
with the point among its digits while it stays near them, and otherwise with
one digit before the point and a power of ten. -/

structure NumberLayout where
  /-- The least and the greatest number of digits before the point for which
  the point is written among the digits. A number below one tenth has its
  count below zero. -/
  leastPoint : Int
  greatestPoint : Int
  plusSign : Bool
  tie : TieRule

namespace Text

def ofNat (value : Nat) : Text := Nat.toDigits 10 value

def ofInt : Int → Text
  | .ofNat value => ofNat value
  | .negSucc value => '-' :: ofNat (value + 1)

end Text

def significantDigits (decimal : Decimal) : Text :=
  match ((Text.ofNat decimal.digits).reverse.dropWhile (· == '0')).reverse with
  | [] => ['0']
  | digits => digits

/-- Write digits with `point` of them before the decimal point, and with at
least one digit on either side. -/
def plainDecimal (digits : Text) (point : Int) : Text :=
  if point ≤ 0 then
    '0' :: '.' :: (List.replicate (-point).toNat '0' ++ digits)
  else
    let whole := digits.take point.toNat
    let fraction := digits.drop point.toNat
    whole ++ List.replicate (point.toNat - digits.length) '0' ++
      '.' :: (if fraction.isEmpty then ['0'] else fraction)

/-- Write digits with one of them before the decimal point and the power of
ten that makes up for it. -/
def scientificDecimal (plusSign : Bool) (digits : Text) (power : Int) : Text :=
  let mantissa := match digits with
    | first :: second :: rest => first :: '.' :: second :: rest
    | short => short
  mantissa ++ 'e' ::
    (if plusSign && decide (0 ≤ power) then '+' :: Text.ofInt power
      else Text.ofInt power)

namespace Double

def write (layout : NumberLayout) (value : Double) : Text :=
  let decimal := value.shortest layout.tie
  let digits := significantDigits decimal
  let point := (Text.ofNat decimal.digits).length + decimal.exponent
  let unsigned :=
    if layout.leastPoint ≤ point ∧ point ≤ layout.greatestPoint then
      plainDecimal digits point
    else
      scientificDecimal layout.plusSign digits (point - 1)
  if value.negative then '-' :: unsigned else unsigned

end Double

end QueryAssembly
