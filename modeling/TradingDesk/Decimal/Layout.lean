import TradingDesk.Decimal.Shortest
import TradingDesk.Decimal.Numeral
/- Decimal.Layout — how the digits of a number are set out.

   Messages and documents both write the shortest digits that read back. They
   differ in where an exact tie between two candidates goes, in whether a whole
   number keeps a fraction, and in which numbers are written with a power of
   ten. A `Layout` holds those decisions. -/
namespace TradingDesk.Decimal

/-- The decisions of one way to write a number. -/
structure Layout where
  /-- Which of two equally near shortest decimals is written. -/
  tie : Tie
  /-- Whether a whole number is written with the fraction `.0`. -/
  keepsFraction : Bool
  /-- The powers of ten of the leading digit, from the first up to but not including the second,
  that are written without an exponent; `none` when every number is. -/
  positional : Option (Int × Int)
  deriving DecidableEq, Repr

/-- Messages: never an exponent, no needless fraction. -/
def Layout.message : Layout := ⟨.awayFromZero, false, none⟩

/-- Documents: an exponent outside `1e-5 ≤ |x| < 1e16`, and a fraction on whole numbers. -/
def Layout.document : Layout := ⟨.toEven, true, some (-5, 16)⟩

/-- The digits of `d` around a decimal point. -/
def Layout.pointed (layout : Layout) (negative : Bool) (d : Scaled) : Numeral :=
  let digits := Nat.toDigits 10 d.coefficient
  if 0 ≤ d.exponent then
    let whole := digits ++ List.replicate d.exponent.toNat '0'
    ⟨negative, whole, if layout.keepsFraction then some ['0'] else none, none⟩
  else
    let places := (-d.exponent).toNat
    if places < digits.length then
      let cut := digits.length - places
      ⟨negative, digits.take cut, some (digits.drop cut), none⟩
    else
      ⟨negative, ['0'], some (List.replicate (places - digits.length) '0' ++ digits), none⟩

/-- One digit, the others as a fraction, and a power of ten with its sign. -/
def Layout.powered (negative : Bool) (d : Scaled) : Numeral :=
  let digits := Nat.toDigits 10 d.coefficient
  let power : Int := d.exponent + (digits.length - 1 : Nat)
  { negative := negative
    whole := digits.take 1
    fraction := if digits.length = 1 then none else some (digits.drop 1)
    exponent := some
      { capital := false
        sign := if power < 0 then .minus else .plus
        digits := Nat.toDigits 10 power.natAbs } }

/-- The numeral of `± d`. -/
def Layout.setOut (layout : Layout) (negative : Bool) (d : Scaled) : Numeral :=
  match layout.positional with
  | none => layout.pointed negative d
  | some (least, bound) =>
    let power : Int := d.exponent + (digitCount d.coefficient - 1 : Nat)
    if d.coefficient = 0 ∨ (least ≤ power ∧ power < bound) then layout.pointed negative d
    else Layout.powered negative d

def Layout.numeral (layout : Layout) (negative : Bool) (significand : Nat) (exponent : Int) :
    Numeral :=
  layout.setOut negative (shortest significand exponent layout.tie)

end TradingDesk.Decimal
