import TradingDesk.Table
import TradingDesk.Config
import TradingDesk.Order.Event
/- Account.Portfolio — cash, positions and realised results.

   A portfolio follows the fills of a desk. A fill on the side of the position
   averages its price in; a fill against it closes as much as it can and books
   the difference to the average price as a trade; what it has left over opens
   a position at its own price. A position too small to count is dropped. -/
namespace TradingDesk

structure Position (α : Type) where
  /-- Signed: a short position is negative. -/
  quantity : α
  averagePrice : α
  marketPrice : α
  deriving DecidableEq, Repr

/-- A position under its symbol, as an account reports it. -/
structure Holding (α : Type) where
  symbol : String
  position : Position α
  deriving DecidableEq, Repr

namespace Position

variable {α : Type} [Scalar α]

def flat : Position α := ⟨0, 0, 0⟩

def marketValue (p : Position α) : α := p.quantity * p.marketPrice

/-- What closing at the latest mark would gain. -/
def unrealizedGain (p : Position α) : α := (p.marketPrice - p.averagePrice) * p.quantity

/-- Whether the position is too small to count. -/
def isFlat (p : Position α) : Bool := Scalar.negligible p.quantity

/-- Whether a fill of `quantity` adds to the position: there is none yet, or it is on that
side. -/
def isJoinedBy (p : Position α) (quantity : α) : Bool :=
  p.isFlat || Scalar.sameSign p.quantity quantity

/-- The position with a fill averaged in. -/
def join (p : Position α) (quantity price : α) : Position α :=
  let held := Scalar.abs p.quantity
  let size := held + Scalar.abs quantity
  { quantity := p.quantity + quantity
    averagePrice := (p.averagePrice * held + price * Scalar.abs quantity) / size
    marketPrice := price }

/-- Whether the position is short. One whose quantity is not a number counts as short. -/
def isShort (p : Position α) : Bool := Scalar.isNegative p.quantity || !Scalar.isNumber p.quantity

/-- How much of the position a fill against it closes, signed like the position. -/
def closedBy (p : Position α) (quantity : α) : α :=
  let size := Scalar.min (Scalar.abs quantity) (Scalar.abs p.quantity)
  if p.isShort then -size else size

/-- The position after a fill against it. Where it goes through zero, what is left over opens at
the fill's price. -/
def reduce (p : Position α) (quantity price : α) : Position α :=
  let left := p.quantity + quantity
  let flipped := decide (Scalar.tolerance ≤ Scalar.abs left) && !Scalar.sameSign left p.quantity
  { quantity := left
    averagePrice := if flipped then price else p.averagePrice
    marketPrice := price }

end Position

/-- A position, or part of one, closed against a fill. -/
structure ClosedTrade (α : Type) where
  symbol : String
  exitTime : Instant
  quantity : α
  entryPrice : α
  exitPrice : α
  gain : α
  deriving DecidableEq, Repr

structure CashBalance (α : Type) where
  currency : String
  amount : α
  deriving DecidableEq, Repr

structure Portfolio (α : Type) where
  currency : String
  cash : α
  positions : Table String (Position α)
  trades : List (ClosedTrade α)
  realizedGain : α
  totalFees : α
  /-- How many closed trades gained. Neither count is bounded; an account that counts in 32 bits
  agrees up to 2 ^ 32 - 1 trades. -/
  wins : Nat
  /-- How many closed trades did not. -/
  losses : Nat
  deriving DecidableEq

namespace Portfolio

variable {α : Type} [Scalar α]

def ofCash (currency : String) (cash : α) : Portfolio α :=
  ⟨currency, cash, Table.empty, [], 0, 0, 0, 0⟩

def ofConfig (c : AccountConfig α) : Portfolio α := ofCash c.currency c.initialCash

/-- The position in a symbol, flat if there is none. -/
def position (p : Portfolio α) (symbol : String) : Position α :=
  (p.positions.get? symbol).getD Position.flat

/-- The open positions in ascending order of their symbols. -/
def holdings (p : Portfolio α) : List (Holding α) :=
  p.positions.entries.map fun e => ⟨e.1, e.2⟩

/-- The open position in a symbol. -/
def holding? (p : Portfolio α) (symbol : String) : Option (Holding α) :=
  (p.positions.get? symbol).map fun position => ⟨symbol, position⟩

/-- Cash and the market value of all positions. -/
def totalValue (p : Portfolio α) : α :=
  p.cash + Scalar.sum (p.positions.values.map Position.marketValue)

def cashBalances (p : Portfolio α) : List (CashBalance α) := [⟨p.currency, p.cash⟩]

/-- The portfolio with a new mark for a symbol, if it has a position in it. -/
def mark (p : Portfolio α) (symbol : String) (price : α) : Portfolio α :=
  { p with positions := p.positions.adjust symbol fun held => { held with marketPrice := price } }

/-- The portfolio with a position filed under its symbol, or dropped if it is too small. -/
def hold (p : Portfolio α) (symbol : String) (position : Position α) : Portfolio α :=
  { p with
    positions :=
      if position.isFlat then p.positions.erase symbol
      else p.positions.insert symbol position }

def book (p : Portfolio α) (trade : ClosedTrade α) : Portfolio α :=
  let won := decide (0 < trade.gain)
  { p with
    trades := p.trades ++ [trade]
    realizedGain := p.realizedGain + trade.gain
    wins := if won then p.wins + 1 else p.wins
    losses := if won then p.losses else p.losses + 1 }

/-- The portfolio after paying for a fill. -/
def pay (p : Portfolio α) (e : OrderEvent α) : Portfolio α :=
  { p with
    cash := p.cash - (e.fillQuantity * e.fillPrice + e.fee)
    totalFees := p.totalFees + e.fee }

/-- The trade that a fill against a position closes. -/
def closing (held : Position α) (e : OrderEvent α) : ClosedTrade α :=
  let quantity := held.closedBy e.fillQuantity
  { symbol := e.symbol
    exitTime := e.time
    quantity := quantity
    entryPrice := held.averagePrice
    exitPrice := e.fillPrice
    gain := (e.fillPrice - held.averagePrice) * quantity }

/-- The portfolio after an event. Only fills change it. -/
def applyFill (p : Portfolio α) (e : OrderEvent α) : Portfolio α :=
  if e.isFill then
    let held := p.position e.symbol
    let paid := p.pay e
    if held.isJoinedBy e.fillQuantity then
      paid.hold e.symbol (held.join e.fillQuantity e.fillPrice)
    else
      (paid.hold e.symbol (held.reduce e.fillQuantity e.fillPrice)).book (closing held e)
  else p

end Portfolio

end TradingDesk
