import TradingDesk.Table
import TradingDesk.Market.Snapshot
/- Market.Board — the securities that are tracked.

   A security is tracked from its first snapshot until it is removed, and the
   board shows its latest snapshot. -/
namespace TradingDesk

/-- The latest snapshot of every tracked security. -/
abbrev Board (α : Type) := Table String (Snapshot α)

/-- The board with a newer snapshot of a security. -/
def Board.post {α : Type} (b : Board α) (s : Snapshot α) : Board α := b.insert s.symbol s

end TradingDesk
