/- Scalar — the numbers that prices, quantities and cash are made of.

   Every rule of the desk is stated over a `Scalar`: arithmetic, an order that
   can be decided, and the texts that messages need. Floating-point numbers are
   one instance and are what a desk runs on; exact rationals are another, where
   the same rules obey the laws of arithmetic.

   The order need not be total. A value that is not a number compares with
   nothing, itself included, and each operation below says which way such a
   value falls. -/
namespace TradingDesk

/-- The arithmetic a desk runs on. -/
class Scalar (α : Type) extends Zero α, One α, Add α, Sub α, Mul α, Div α, Neg α, LT α, LE α where
  [decidableLT : DecidableLT α]
  [decidableLE : DecidableLE α]
  /-- The whole number `n`, to the nearest representable value. -/
  ofNat : Nat → α
  /-- Whether the sign is negative; a negative zero counts. -/
  isNegative : α → Bool
  /-- Neither infinite nor not a number. -/
  isFinite : α → Bool
  /-- The text that messages show. -/
  text : α → String
  /-- The text with two decimal places. -/
  cents : α → String

attribute [reducible, instance] Scalar.decidableLT Scalar.decidableLE

namespace Scalar

variable {α : Type} [Scalar α]

/-- Whether `x` compares with itself: false only of a value that is not a number. -/
def isNumber (x : α) : Bool := decide (x ≤ x)

/-- The magnitude of `x`. -/
def abs (x : α) : α := if isNegative x then -x else x

/-- The lesser of two values, the second when they are level. Where one is not a number, the
other. -/
def min (x y : α) : α := if y ≤ x then y else if isNumber x then x else y

/-- The greater of two values, the second when they are level. Where one is not a number, the
other. -/
def max (x y : α) : α := if x ≤ y then y else if isNumber x then x else y

/-- Whether two numbers have the same sign. Zero has a sign; what is not a number has none. -/
def sameSign (x y : α) : Bool := isNumber x && isNumber y && isNegative x == isNegative y

/-- Whether the difference of two numbers is none: both are infinite, on one side. -/
def cancels (x y : α) : Bool := isNumber x && isNumber y && !isNumber (x - y)

/-- Whether `x` is a zero of either sign. -/
def isZero (x : α) : Bool := decide (x ≤ 0) && decide (0 ≤ x)

/-- The sum from left to right. It starts from negative zero, which adding leaves alone. -/
def sum (xs : List α) : α := xs.foldl (· + ·) (-0)

/-- A quantity below this counts as none. -/
def tolerance : α := 1 / ofNat 1000000000

/-- Whether a quantity counts as none. -/
def negligible (x : α) : Bool := decide (abs x < tolerance)

end Scalar

end TradingDesk
