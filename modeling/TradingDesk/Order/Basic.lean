import TradingDesk.Scalar.Basic
import TradingDesk.Time.Instant
import TradingDesk.Order.Status
/- Order.Basic — trading instructions.

   An order asks for a signed quantity of one symbol: a positive quantity buys,
   a negative one sells. Its kind says at what prices it may trade, its time in
   force how long it stays open. -/
namespace TradingDesk

/-- The kind of an order, with the prices of that kind. -/
inductive OrderKind (α : Type) where
  /-- Trades at the prevailing price. -/
  | market
  /-- Trades at the limit price or better. -/
  | limit (price : α)
  /-- Becomes a market order once the stop price is reached. -/
  | stopMarket (stop : α)
  /-- Becomes a limit order once the stop price is reached; `triggered` says that it was. -/
  | stopLimit (stop limit : α) (triggered : Bool)
  /-- Trades in the opening cross of a session. -/
  | marketOnOpen
  /-- Trades in the closing cross of a session. -/
  | marketOnClose
  deriving DecidableEq, Repr

namespace OrderKind

variable {α : Type}

def name : OrderKind α → String
  | market => "Market"
  | limit _ => "Limit"
  | stopMarket _ => "StopMarket"
  | stopLimit .. => "StopLimit"
  | marketOnOpen => "MarketOnOpen"
  | marketOnClose => "MarketOnClose"

/-- A market order proper may trade in the step that created it. -/
def isMarket : OrderKind α → Bool
  | market => true
  | _ => false

def limitPrice? : OrderKind α → Option α
  | limit price | stopLimit _ price _ => some price
  | _ => none

def stopPrice? : OrderKind α → Option α
  | stopMarket price | stopLimit price _ _ => some price
  | _ => none

/-- Whether the kind is a stop-limit whose stop was reached. -/
def isTriggered : OrderKind α → Bool
  | stopLimit _ _ triggered => triggered
  | _ => false

/-- The kind with its stop marked as reached if `reached` says so; only a stop-limit keeps such
a mark. -/
def trigger (reached : Bool) : OrderKind α → OrderKind α
  | stopLimit stop price triggered => stopLimit stop price (triggered || reached)
  | kind => kind

end OrderKind

/-- How long an order stays open. -/
inductive TimeInForce where
  /-- Until it is filled or canceled. -/
  | goodTilCanceled
  /-- Until the UTC day of its creation has passed. -/
  | day
  /-- Until the given instant has passed. -/
  | goodTilDate (expiry : Instant)
  deriving DecidableEq, Repr

/-- Whether an order created at `created` has expired by `now`. -/
def TimeInForce.isExpired (tif : TimeInForce) (created now : Instant) : Bool :=
  match tif with
  | .goodTilCanceled => false
  | .day => decide (created.day < now.day)
  | .goodTilDate expiry => decide (expiry < now)

/-- The side an order is on. -/
inductive Direction where
  | buy
  | sell
  | hold
  deriving DecidableEq, Repr

def Direction.all : List Direction := [buy, sell, hold]

def Direction.name : Direction → String
  | buy => "Buy"
  | sell => "Sell"
  | hold => "Hold"

def Direction.ofName? (s : String) : Option Direction := all.find? fun side => side.name == s

/-- Names an order for as long as a ledger lives. -/
abbrev OrderId := UInt64

structure Order (α : Type) where
  id : OrderId
  symbol : String
  /-- The signed quantity asked for. -/
  quantity : α
  kind : OrderKind α
  time : Instant
  status : OrderStatus := .new
  /-- The signed quantity filled so far. -/
  filled : α
  timeInForce : TimeInForce := .goodTilCanceled
  /-- A note of the submitter. -/
  tag : String := ""
  /-- The identifiers that brokers gave the order. -/
  brokerIds : List String := []
  deriving DecidableEq, Repr

namespace Order

variable {α : Type}

/-- The order with a broker's identifier added at the end, unless it has it already. -/
def addBrokerId (o : Order α) (brokerId : String) : Order α :=
  if o.brokerIds.contains brokerId then o else { o with brokerIds := o.brokerIds ++ [brokerId] }

/-- The order with the fields a submitter may edit taken from `update`. Identity, creation time,
fill progress and status stay, and so does the mark of a stop that was reached. -/
def applyUpdate (o update : Order α) : Order α :=
  update.brokerIds.foldl addBrokerId
    { o with
      quantity := update.quantity
      kind := update.kind.trigger o.kind.isTriggered
      timeInForce := update.timeInForce
      tag := update.tag }

variable [Scalar α]

/-- The side that the sign of the quantity says. -/
def direction (o : Order α) : Direction :=
  if 0 < o.quantity then .buy else if o.quantity < 0 then .sell else .hold

def isBuy (o : Order α) : Bool := o.direction == .buy

/-- The signed quantity still to fill. -/
def remaining (o : Order α) : α :=
  let left := o.quantity - o.filled
  if Scalar.negligible left then 0 else left

/-- Whether what is left to fill is a sale. Infinities that cancel out count as one. -/
def leavesSale (o : Order α) : Bool :=
  Scalar.isNegative o.remaining || Scalar.cancels o.quantity o.filled

/-- Whether the order has had no fill that counts. -/
def isUnfilled (o : Order α) : Bool := Scalar.negligible o.filled

/-- Whether the order has expired by `now`. -/
def isExpired (o : Order α) (now : Instant) : Bool := o.timeInForce.isExpired o.time now

end Order

end TradingDesk
