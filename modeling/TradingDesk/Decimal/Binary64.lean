/- Decimal.Binary64 — what a 64-bit floating-point word stands for.

   A word is a sign, an eleven-bit exponent field and a fifty-two-bit fraction.
   The decimal texts of this library are computed from the value taken apart
   here, `significand · 2 ^ exponent`, in exact arithmetic on natural numbers. -/
namespace TradingDesk.Decimal

/-- A floating-point word taken apart. -/
inductive Binary64 where
  | notANumber
  | infinite (negative : Bool)
  /-- The number `± significand · 2 ^ exponent`. -/
  | finite (negative : Bool) (significand : Nat) (exponent : Int)
  deriving DecidableEq, Repr

/-- The significand of the least normal number; below it the spacing no longer shrinks. -/
def leastNormal : Nat := Nat.pow 2 52

/-- The exponent of the subnormal numbers, the least there is. -/
def leastExponent : Int := -1074

def Binary64.ofBits (bits : UInt64) : Binary64 :=
  let word : Nat := bits.toNat
  let negative := decide (Nat.pow 2 63 ≤ word)
  let field : Nat := word / Nat.pow 2 52 % Nat.pow 2 11
  let fraction : Nat := word % Nat.pow 2 52
  if field = 2047 then
    if fraction = 0 then .infinite negative else .notANumber
  else if field = 0 then .finite negative fraction leastExponent
  else .finite negative (leastNormal + fraction) (leastExponent + (field - 1))

end TradingDesk.Decimal
