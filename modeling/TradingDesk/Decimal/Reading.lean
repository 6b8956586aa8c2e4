import TradingDesk.Decimal.Numeral
import TradingDesk.Decimal.Shortest
/- Decimal.Reading — a floating-point number from a written one.

   A reader takes the leading digits of a numeral into a 64-bit coefficient and
   lets the others go. It turns the coefficient into floating point and scales
   it by one power of ten, or by two where the power is far below zero. Each of
   these steps is rounded, so the result may be a neighbour of the number that
   is nearest to what the digits say. -/
namespace TradingDesk.Decimal

/-- What a coefficient stays below. -/
def coefficientBound : Nat := Nat.pow 2 64

/-- Append digits to a coefficient until one does not fit. Also the digits from there on. -/
def appendDigits (n : Nat) : List Char → Nat × List Char
  | [] => (n, [])
  | d :: ds =>
    let longer := 10 * n + digitValue d
    if longer < coefficientBound then appendDigits longer ds else (n, d :: ds)

/-- The power of ten that an exponent says. -/
def Exponent.power (e : Exponent) : Int :=
  match e.sign with
  | .minus => -(digitsNat e.digits : Int)
  | .bare | .plus => digitsNat e.digits

/-- The decimal that a reader makes of a numeral, its sign apart. Whole digits that do not fit
count as places; digits of the fraction that do not fit are dropped. -/
def Numeral.leading (n : Numeral) : Scaled :=
  let fraction := n.fraction.getD []
  let (whole, places) := appendDigits 0 n.whole
  let (coefficient, dropped) := appendDigits whole fraction
  let taken := fraction.length - dropped.length
  { coefficient := coefficient
    exponent := (n.exponent.map Exponent.power).getD 0 + places.length - taken }

/-- The largest power of ten that floating point has. -/
def largestPower : Nat := 308

/-- A power of ten, to the nearest floating-point number. -/
def tenTo (n : Nat) : Float := Float.ofScientific 1 false n

/-- A coefficient divided by `10 ^ n`. Two steps of the largest power bring any coefficient to
zero. -/
def scaleDown (x : Float) (n : Nat) : Float :=
  if n ≤ largestPower then x / tenTo n
  else if n ≤ 2 * largestPower then x / tenTo largestPower / tenTo (n - largestPower)
  else 0

/-- A coefficient multiplied by `10 ^ n`, if that is in range. -/
def scaleUp? (x : Float) (n : Nat) : Option Float :=
  if n ≤ largestPower then
    let y := x * tenTo n
    if y.isFinite then some y else none
  else none

/-- The floating-point number that a decimal is read as, if it is in range. -/
def Scaled.float? (d : Scaled) : Option Float :=
  let x := Float.ofNat d.coefficient
  if d.coefficient = 0 then some 0
  else if 0 ≤ d.exponent then scaleUp? x d.exponent.toNat
  else some (scaleDown x d.exponent.natAbs)

namespace Numeral

/-- The floating-point number that a numeral is read as, if it is in range. -/
def float? (n : Numeral) : Option Float :=
  n.leading.float?.map fun x => if n.negative then -x else x

/-- The natural number below `bound` that a numeral writes without sign, point or exponent. -/
def natural? (bound : Nat) (n : Numeral) : Option Nat :=
  if n.negative ∨ n.fraction.isSome ∨ n.exponent.isSome then none
  else
    let value := digitsNat n.whole
    if value < bound then some value else none

def ofNat (n : Nat) : Numeral := ⟨false, Nat.toDigits 10 n, none, none⟩

end Numeral

end TradingDesk.Decimal
