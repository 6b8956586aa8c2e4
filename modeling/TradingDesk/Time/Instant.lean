/- Time.Instant — points in time, to the nanosecond, in UTC.

   A clock second has a thousand million nanoseconds, and twice that many when
   a leap second is inserted after it. Each second is therefore given two
   thousand million ticks, the second half of them for a leap second, so that
   the order of instants is the order of their tick counts and the day of an
   instant is a quotient. -/
namespace TradingDesk

/-- A point in time. -/
structure Instant where
  /-- Ticks since the start of 1970. -/
  ticks : Int
  deriving DecidableEq, Repr

namespace Instant

def nanosPerSecond : Nat := 1000000000

/-- Ticks in a second, an inserted leap second included. -/
def ticksPerSecond : Nat := 2 * nanosPerSecond

def secondsPerDay : Nat := 86400

instance : LT Instant := ⟨fun s t => s.ticks < t.ticks⟩
instance : LE Instant := ⟨fun s t => s.ticks ≤ t.ticks⟩
instance : DecidableLT Instant := fun s t => inferInstanceAs (Decidable (s.ticks < t.ticks))
instance : DecidableLE Instant := fun s t => inferInstanceAs (Decidable (s.ticks ≤ t.ticks))

/-- The later of two instants. -/
instance : Max Instant := ⟨fun s t => if s ≤ t then t else s⟩

/-- The instant `nanos` nanoseconds into a second counted from the start of 1970. A count of a
thousand million or more lies in the leap second after it. -/
def ofSecond (second : Int) (nanos : Nat) : Instant := ⟨second * ticksPerSecond + nanos⟩

/-- The second of the instant, counted from the start of 1970. -/
def second (t : Instant) : Int := t.ticks / ticksPerSecond

/-- The nanoseconds into that second. -/
def nanos (t : Instant) : Nat := (t.ticks % ticksPerSecond).toNat

/-- The UTC day of the instant, counted from the start of 1970. -/
def day (t : Instant) : Int := t.second / secondsPerDay

end Instant

end TradingDesk
