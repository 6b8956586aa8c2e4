import TradingDesk.Decimal.Binary64
import TradingDesk.Decimal.Rounding
/- Decimal.Shortest — the fewest digits that read back.

   A decimal reads back as `m · 2 ^ q` when it lies in the interval of reals
   nearer to that number than to its neighbours; the ends belong to it when `m`
   is even, because a reader rounds a half to even. For one digit, two digits
   and so on, the grid of decimals with that many digits is tried at the two
   points around the number: the first grid with a point in the interval wins,
   and of two such points the nearer. No shorter decimal reads back, because a
   grid that meets the interval at all meets it at one of those two points. -/
namespace TradingDesk.Decimal

/-- A decimal number `coefficient · 10 ^ exponent`. -/
structure Scaled where
  coefficient : Nat
  exponent : Int
  deriving DecidableEq, Repr

/-- How many decimal digits `n` has; zero has one. -/
def digitCount (n : Nat) : Nat := (Nat.toDigits 10 n).length

/-- The non-negative fraction `num / den` scaled by `10 ^ shift`, as numerator and denominator. -/
def scaleTen (num den : Nat) (shift : Int) : Nat × Nat :=
  if 0 ≤ shift then (num * Nat.pow 10 shift.toNat, den)
  else (num, den * Nat.pow 10 (-shift).toNat)

/-- The power of ten of the leading digit of `num / den`, for any fraction that is at least
`10 ^ -400`. -/
def leadingPower (num den : Nat) : Int :=
  (digitCount (num * Nat.pow 10 400 / den) : Int) - 401

/-- The reals that round to one number, as numerators over a common denominator. -/
structure Basin where
  /-- The number itself. -/
  centre : Nat
  low : Nat
  high : Nat
  denominator : Nat
  /-- Whether the two ends round to the number as well. -/
  closed : Bool

/-- The basin of `significand · 2 ^ exponent`. Below a power of two the spacing halves, so the
lower end is nearer there. -/
def Basin.of (significand : Nat) (exponent : Int) : Basin :=
  let quarter : Nat := if significand = leastNormal ∧ leastExponent < exponent then 1 else 2
  let shift := exponent - 2
  let factor : Nat := if 0 ≤ shift then Nat.pow 2 shift.toNat else 1
  { centre := 4 * significand * factor
    low := (4 * significand - quarter) * factor
    high := (4 * significand + 2) * factor
    denominator := if 0 ≤ shift then 1 else Nat.pow 2 (-shift).toNat
    closed := significand % 2 == 0 }

/-- Whether `n · 10 ^ step` lies in the basin. -/
def Basin.holds (b : Basin) (n : Nat) (step : Int) : Bool :=
  let (value, den) := scaleTen n 1 step
  let scaled := value * b.denominator
  if b.closed then decide (b.low * den ≤ scaled ∧ scaled ≤ b.high * den)
  else decide (b.low * den < scaled ∧ scaled < b.high * den)

/-- The point of the grid of step `10 ^ step` that stands for the basin, if one does. -/
def Basin.pick (b : Basin) (tie : Tie) (step : Int) : Option Nat :=
  let (num, den) := scaleTen b.centre b.denominator (-step)
  let below := num / den
  match b.holds below step, b.holds (below + 1) step with
  | true, true => some (roundDiv num den tie)
  | true, false => some below
  | false, true => some (below + 1)
  | false, false => none

/-- Try the grids of `digits`, `digits + 1`, … digits, `fuel` of them. -/
def Basin.search (b : Basin) (tie : Tie) (leading : Int) : Nat → Nat → Option Scaled
  | 0, _ => none
  | fuel + 1, digits =>
    let step := leading - digits + 1
    match b.pick tie step with
    | some n => some ⟨n, step⟩
    | none => b.search tie leading fuel (digits + 1)

/-- The decimal without trailing zeros in its coefficient. -/
def Scaled.trim (d : Scaled) : Scaled :=
  let digits := Nat.toDigits 10 d.coefficient
  let zeros := (digits.reverse.takeWhile (· == '0')).length
  ⟨d.coefficient / Nat.pow 10 zeros, d.exponent + zeros⟩

/-- The shortest decimal that reads back as `significand · 2 ^ exponent`. Seventeen digits
always do. -/
def shortest (significand : Nat) (exponent : Int) (tie : Tie) : Scaled :=
  if significand = 0 then ⟨0, 0⟩
  else
    let b := Basin.of significand exponent
    match b.search tie (leadingPower b.centre b.denominator) 17 1 with
    | some d => d.trim
    | none => ⟨b.centre / b.denominator, 0⟩

end TradingDesk.Decimal
