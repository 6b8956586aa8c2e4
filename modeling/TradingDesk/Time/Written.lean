import TradingDesk.Time.Instant
import TradingDesk.Time.Calendar
/- Time.Written — the texts of an instant.

   Documents join date and time with `T` and end in `Z`; messages put a blank
   between them and end in `UTC`. Both write the fraction of a second in no, 3,
   6 or 9 digits, the fewest that are exact, and a leap second as second 60. -/
namespace TradingDesk

namespace Instant

/-- The digits of `n`, filled up with zeros on the left to `width`. -/
def padded (width n : Nat) : String :=
  let digits := Nat.toDigits 10 n
  String.ofList (List.replicate (width - digits.length) '0' ++ digits)

/-- A year: four digits from 0 to 9999, beyond that signed. -/
def yearText (year : Int) : String :=
  if 0 ≤ year ∧ year ≤ 9999 then padded 4 year.toNat
  else (if year < 0 then "-" else "+") ++ padded 4 year.natAbs

/-- The fraction of a second with its point. -/
def fractionText (nanos : Nat) : String :=
  if nanos = 0 then ""
  else if nanos % 1000000 = 0 then "." ++ padded 3 (nanos / 1000000)
  else if nanos % 1000 = 0 then "." ++ padded 6 (nanos / 1000)
  else "." ++ padded 9 nanos

def dateText (t : Instant) : String :=
  let date := Date.ofDayNumber t.day
  yearText date.year ++ "-" ++ padded 2 date.month ++ "-" ++ padded 2 date.day

def clockText (t : Instant) : String :=
  let ofDay := (t.second % secondsPerDay).toNat
  let leap := nanosPerSecond ≤ t.nanos
  padded 2 (ofDay / 3600) ++ ":" ++ padded 2 (ofDay / 60 % 60) ++ ":" ++
    padded 2 (ofDay % 60 + if leap then 1 else 0) ++
    fractionText (if leap then t.nanos - nanosPerSecond else t.nanos)

/-- The text of the instant in a document. -/
def documentText (t : Instant) : String := t.dateText ++ "T" ++ t.clockText ++ "Z"

/-- The text of the instant in a message. -/
def messageText (t : Instant) : String := t.dateText ++ " " ++ t.clockText ++ " UTC"

end Instant

end TradingDesk
