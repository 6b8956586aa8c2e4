import TradingDesk.Time.Instant
import TradingDesk.Time.Calendar
import TradingDesk.Time.Blank
import TradingDesk.Decimal.Numeral
/- Time.Reading — an instant from its text.

   A date, one of `T`, `t` or a blank, a time of day and an offset from UTC.
   Blanks may stand before each number and separator; a month or an hour may
   have one digit; the fraction of a second may have any number of digits, of
   which nine count. The offset is `Z`, the letters `UTC` in either case, or a
   signed hour and minute. -/
namespace TradingDesk

open Decimal

namespace Instant

def skipBlanks (cs : List Char) : List Char := cs.dropWhile isBlank

/-- The first digits of a text, at least one and at most `limit`, and what follows them. -/
def leadingDigits (limit : Nat) (cs : List Char) : Option (List Char × List Char) :=
  let ds := (cs.take limit).takeWhile Char.isDigit
  if ds.isEmpty then none else some (ds, cs.drop ds.length)

/-- A number of at most `limit` digits after blanks. -/
def number (limit : Nat) (cs : List Char) : Option (Nat × List Char) :=
  (leadingDigits limit (skipBlanks cs)).map fun (ds, rest) => (digitsNat ds, rest)

/-- A year after blanks: up to four digits, or any number of them after a sign. -/
def year (cs : List Char) : Option (Int × List Char) :=
  match skipBlanks cs with
  | '-' :: rest => (leadingDigits rest.length rest).map fun (ds, rest) =>
      (-(digitsNat ds : Int), rest)
  | '+' :: rest => (leadingDigits rest.length rest).map fun (ds, rest) => (digitsNat ds, rest)
  | rest => (leadingDigits 4 rest).map fun (ds, rest) => (digitsNat ds, rest)

/-- A separator after blanks. -/
def separator (c : Char) (cs : List Char) : Option (List Char) :=
  match skipBlanks cs with
  | d :: rest => if d = c then some rest else none
  | [] => none

/-- The nanoseconds of an optional fraction. -/
def fraction (cs : List Char) : Option (Nat × List Char) :=
  match cs with
  | '.' :: rest => (leadingDigits 9 rest).map fun (ds, rest) =>
      (digitsNat ds * Nat.pow 10 (9 - ds.length), rest.dropWhile Char.isDigit)
  | rest => some (0, rest)

def twoDigits (cs : List Char) : Option (Nat × List Char) :=
  match cs with
  | a :: b :: rest => if a.isDigit && b.isDigit then some (digitsNat [a, b], rest) else none
  | _ => none

/-- A signed hour and minute, as seconds. -/
def signedOffset (negative : Bool) (cs : List Char) : Option (Int × List Char) := do
  let (hours, rest) ← twoDigits cs
  let (minutes, rest) ← twoDigits (rest.dropWhile fun c => c == ':' || isBlank c)
  if minutes < 60 ∧ hours < 24 then
    let seconds : Int := hours * 3600 + minutes * 60
    some (if negative then -seconds else seconds, rest)
  else none

/-- An offset written with a sign or `Z`. -/
def markedOffset : List Char → Option (Int × List Char)
  | 'Z' :: rest | 'z' :: rest => some (0, rest)
  | '+' :: rest => signedOffset false rest
  | '-' :: rest | '\u2212' :: rest => signedOffset true rest
  | _ => none

/-- An offset from UTC, as seconds east; `UTC` in any letter case stands for zero. -/
def offset (cs : List Char) : Option (Int × List Char) :=
  match cs with
  | u :: t :: c :: rest =>
    if u.toUpper = 'U' ∧ t.toUpper = 'T' ∧ c.toUpper = 'C' then some (0, rest)
    else markedOffset cs
  | _ => markedOffset cs

def date (cs : List Char) : Option (Date × List Char) := do
  let (y, cs) ← year cs
  let cs ← separator '-' cs
  let (m, cs) ← number 2 cs
  let cs ← separator '-' cs
  let (d, cs) ← number 2 cs
  if Date.isValid ⟨y, m, d⟩ then some (⟨y, m, d⟩, cs) else none

/-- A time of day, as the second of the day and the nanoseconds into it. Second 60 is the leap
second after second 59. -/
def clock (cs : List Char) : Option ((Nat × Nat) × List Char) := do
  let (h, cs) ← number 2 cs
  let cs ← separator ':' cs
  let (m, cs) ← number 2 cs
  let cs ← separator ':' cs
  let (s, cs) ← number 2 cs
  let (nanos, cs) ← fraction cs
  if h < 24 ∧ m < 60 ∧ s < 60 then some ((h * 3600 + m * 60 + s, nanos), cs)
  else if h < 24 ∧ m < 60 ∧ s = 60 then
    some ((h * 3600 + m * 60 + 59, nanosPerSecond + nanos), cs)
  else none

def read? (text : String) : Option Instant := do
  let (d, cs) ← date text.toList
  let cs ← match cs with
    | 'T' :: rest | 't' :: rest | ' ' :: rest => some rest
    | _ => none
  let ((second, nanos), cs) ← clock cs
  let (east, cs) ← offset (skipBlanks cs)
  let t := ofSecond (d.dayNumber * secondsPerDay + second - east) nanos
  let inRange := Date.isValid (Date.ofDayNumber t.day)
  if (skipBlanks cs).isEmpty ∧ inRange then some t else none

end Instant

end TradingDesk
