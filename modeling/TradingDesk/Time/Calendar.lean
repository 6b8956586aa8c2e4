/- Time.Calendar — days and dates.

   Dates are those of the Gregorian calendar, carried back before its
   introduction and with a year zero. Four hundred years are one cycle of
   146097 days; counting a year from March puts the leap day at its end. -/
namespace TradingDesk

structure Date where
  year : Int
  month : Nat
  day : Nat
  deriving DecidableEq, Repr

namespace Date

/-- Whether the year has a leap day. -/
def isLeap (year : Int) : Bool :=
  year % 4 == 0 && (year % 100 != 0 || year % 400 == 0)

def daysIn (year : Int) (month : Nat) : Nat :=
  if month = 2 then (if isLeap year then 29 else 28)
  else if month = 4 ∨ month = 6 ∨ month = 9 ∨ month = 11 then 30
  else 31

/-- The first and the last year that are read. -/
def yearRange : Int × Int := (-262143, 262142)

/-- Whether the calendar has this date and its year is in range. -/
def isValid (d : Date) : Bool :=
  decide (yearRange.1 ≤ d.year ∧ d.year ≤ yearRange.2) &&
  decide (1 ≤ d.month ∧ d.month ≤ 12) &&
  decide (1 ≤ d.day ∧ d.day ≤ daysIn d.year d.month)

/-- The date's day, counted from the start of 1970. -/
def dayNumber (d : Date) : Int :=
  let month : Int := d.month
  let year : Int := if month ≤ 2 then d.year - 1 else d.year
  let cycle := year / 400
  let yearOfCycle := year % 400
  let fromMarch := if month ≤ 2 then month + 9 else month - 3
  let dayOfYear := (153 * fromMarch + 2) / 5 + d.day - 1
  let dayOfCycle := yearOfCycle * 365 + yearOfCycle / 4 - yearOfCycle / 100 + dayOfYear
  cycle * 146097 + dayOfCycle - 719468

/-- The date of a day counted from the start of 1970. -/
def ofDayNumber (n : Int) : Date :=
  let shifted := n + 719468
  let cycle := shifted / 146097
  let dayOfCycle := shifted % 146097
  let yearOfCycle :=
    (dayOfCycle - dayOfCycle / 1460 + dayOfCycle / 36524 - dayOfCycle / 146096) / 365
  let dayOfYear := dayOfCycle - (365 * yearOfCycle + yearOfCycle / 4 - yearOfCycle / 100)
  let fromMarch := (5 * dayOfYear + 2) / 153
  let day := dayOfYear - (153 * fromMarch + 2) / 5 + 1
  let month := if fromMarch < 10 then fromMarch + 3 else fromMarch - 9
  { year := yearOfCycle + cycle * 400 + (if month ≤ 2 then 1 else 0)
    month := month.toNat
    day := day.toNat }

end Date

end TradingDesk
