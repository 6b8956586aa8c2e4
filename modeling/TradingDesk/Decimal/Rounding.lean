/- Decimal.Rounding — a quotient of natural numbers to the nearest whole number.

   The one question a rounding leaves open is where an exact half goes. -/
namespace TradingDesk.Decimal

/-- Where an exact half goes. -/
inductive Tie where
  | toEven
  | awayFromZero
  deriving DecidableEq, Repr

/-- Whether a half above the whole number `n` goes up. -/
def Tie.goesUp (tie : Tie) (n : Nat) : Bool :=
  match tie with
  | .toEven => n % 2 == 1
  | .awayFromZero => true

/-- The whole number nearest to `num / den`. -/
def roundDiv (num den : Nat) (tie : Tie) : Nat :=
  let whole := num / den
  let rest := num % den
  if 2 * rest < den then whole
  else if den < 2 * rest then whole + 1
  else if tie.goesUp whole then whole + 1
  else whole

end TradingDesk.Decimal
