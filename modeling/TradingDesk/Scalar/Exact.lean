import TradingDesk.Scalar.Basic
import TradingDesk.Decimal.Places
/- Scalar.Exact — exact rational arithmetic.

   The rules of the desk over the rationals: no rounding, no infinities, one
   zero. Sums and balances hold here as equations. -/
namespace TradingDesk

open Decimal

/-- A rational as a fraction in lowest terms, or as a whole number when it is one. -/
def fractionText (x : Rat) : String :=
  if x.den = 1 then toString x.num else toString x.num ++ "/" ++ toString x.den

instance : Scalar Rat where
  zero := 0
  one := 1
  ofNat n := n
  isNegative x := decide (x < 0)
  isFinite _ := true
  text := fractionText
  cents x := (fixed 2 (decide (x < 0)) x.num.natAbs x.den).text

end TradingDesk
