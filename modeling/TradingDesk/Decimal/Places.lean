import TradingDesk.Decimal.Numeral
import TradingDesk.Decimal.Rounding
/- Decimal.Places — a number to a fixed count of decimal places.

   Amounts in messages have two places. The exact value is rounded, a half to
   the even neighbour, and the sign is kept on a result of zero. -/
namespace TradingDesk.Decimal

/-- The number `± num / den` to `places` decimal places. -/
def fixed (places : Nat) (negative : Bool) (num den : Nat) : Numeral :=
  let units := roundDiv (num * Nat.pow 10 places) den .toEven
  let low := Nat.toDigits 10 (units % Nat.pow 10 places)
  { negative := negative
    whole := Nat.toDigits 10 (units / Nat.pow 10 places)
    fraction := some (List.replicate (places - low.length) '0' ++ low)
    exponent := none }

end TradingDesk.Decimal
