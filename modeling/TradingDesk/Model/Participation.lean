import TradingDesk.Table
import TradingDesk.Market.Snapshot
import TradingDesk.Order.Basic
/- Model.Participation — the share of a bar's volume that fills may take.

   Every order on a symbol draws on one allowance for each bar, however many
   passes see that bar. The allowance starts anew when the bar's time changes
   and follows the volume that the bar shows now. -/
namespace TradingDesk

/-- What fills have taken from the latest bar of a symbol. -/
structure BarUsage (α : Type) where
  barTime : Instant
  used : α
  deriving DecidableEq, Repr

/-- What fills have taken, by symbol. -/
abbrev Usage (α : Type) := Table String (BarUsage α)

namespace Usage

variable {α : Type} [Scalar α]

/-- What fills have taken from the bar of a symbol that ends at `time`. -/
def taken (u : Usage α) (symbol : String) (time : Instant) : α :=
  match u.get? symbol with
  | some usage => if usage.barTime = time then usage.used else 0
  | none => 0

/-- What is left of a bar's allowance. -/
def allowance (u : Usage α) (share : α) (symbol : String) (bar : Bar α) : α :=
  Scalar.max (bar.volume * share - u.taken symbol bar.time) 0

/-- Draw a quantity from a bar's allowance: as much of it as is left, or nothing if that does not
count. -/
def draw (u : Usage α) (share : α) (symbol : String) (bar : Bar α) (wanted : α) : α × Usage α :=
  let taken := u.taken symbol bar.time
  let size := Scalar.min wanted (u.allowance share symbol bar)
  -- the bar is filed either way, and what was taken from an older one is forgotten
  if size < Scalar.tolerance then (0, u.insert symbol ⟨bar.time, taken⟩)
  else (size, u.insert symbol ⟨bar.time, taken + size⟩)

end Usage

end TradingDesk
