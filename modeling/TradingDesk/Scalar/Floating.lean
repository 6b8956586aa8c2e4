import TradingDesk.Scalar.Basic
import TradingDesk.Decimal.Layout
import TradingDesk.Decimal.Places
/- Scalar.Floating — double precision floating point.

   A desk runs on these numbers. Their texts come from the exact value of the
   word: the shortest digits that read back, or two decimal places. -/
namespace TradingDesk

open Decimal

/-- The text of a number that is not finite. -/
def unboundedText (negative : Bool) : String := if negative then "-inf" else "inf"

/-- The text of a floating-point number in a message. -/
def floatingText (x : Float) : String :=
  match Binary64.ofBits x.toBits with
  | .notANumber => "NaN"
  | .infinite negative => unboundedText negative
  | .finite negative significand exponent =>
    (Layout.message.numeral negative significand exponent).text

/-- The text of a floating-point number to two decimal places. -/
def floatingCents (x : Float) : String :=
  match Binary64.ofBits x.toBits with
  | .notANumber => "NaN"
  | .infinite negative => unboundedText negative
  | .finite negative significand exponent =>
    (fixed 2 negative (significand * Nat.pow 2 exponent.toNat) (Nat.pow 2 (-exponent).toNat)).text

instance : Scalar Float where
  zero := 0
  one := 1
  ofNat := Float.ofNat
  isNegative x := decide (Nat.pow 2 63 ≤ x.toBits.toNat)
  isFinite := Float.isFinite
  text := floatingText
  cents := floatingCents

end TradingDesk
