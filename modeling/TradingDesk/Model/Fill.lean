import TradingDesk.Model.Trial
import TradingDesk.Model.Participation
import TradingDesk.Config
import TradingDesk.Order.Event
/- Model.Fill — at what price and for how much an order trades.

   A fill model has one rule for each kind of order. A rule answers with an
   event; an event with the order's own status and no fill leaves the order
   open. The rule for stop-limits answers with the order's kind as well,
   because it marks a stop as reached.

   The built-in rules fill an order in full, up to the participation in a bar's
   volume, as soon as its condition is met:
     1. market orders, at the touch and slippage;
     2. limits, once the range of the bar meets the limit, at the limit or at a
        better open;
     3. stop-markets, once the range meets the stop, at the stop or at an open
        beyond it, and slippage;
     4. stop-limits, as limits once the stop was reached; on the bar that
        reaches it, at the price of a stop-market and within the limit;
     5. orders for the opening or closing cross, at that cross and slippage. -/
namespace TradingDesk

/-- One rule for each kind of order, over models with memory `σ`. -/
structure FillModel (α σ : Type) where
  market : Snapshot α → Order α → Instant → Trial σ (OrderEvent α)
  limit : Snapshot α → Order α → (price : α) → Instant → Trial σ (OrderEvent α)
  stopMarket : Snapshot α → Order α → (stop : α) → Instant → Trial σ (OrderEvent α)
  stopLimit : Snapshot α → Order α → Instant → Trial σ (OrderEvent α × OrderKind α)
  marketOnOpen : Snapshot α → Order α → Instant → Trial σ (OrderEvent α)
  marketOnClose : Snapshot α → Order α → Instant → Trial σ (OrderEvent α)

/-- A call whose answer leaves the kind of the order alone. -/
def keepingKind {α σ : Type} (order : Order α) (t : Trial σ (OrderEvent α)) :
    Trial σ (OrderEvent α × OrderKind α) :=
  t.andThen fun event => Trial.give (event, order.kind)

/-- The answer of the rule for the order's kind. -/
def FillModel.dispatch {α σ : Type} (model : FillModel α σ) (security : Snapshot α)
    (order : Order α) (now : Instant) : Trial σ (OrderEvent α × OrderKind α) :=
  match order.kind with
  | .market => keepingKind order (model.market security order now)
  | .limit price => keepingKind order (model.limit security order price now)
  | .stopMarket stop => keepingKind order (model.stopMarket security order stop now)
  | .stopLimit .. => model.stopLimit security order now
  | .marketOnOpen => keepingKind order (model.marketOnOpen security order now)
  | .marketOnClose => keepingKind order (model.marketOnClose security order now)

variable {α : Type} [Scalar α]

/-- The open and the extremes an order could have traded at: those of the bar, or the touch of
the order's side when there is no bar. -/
structure TradingRange (α : Type) where
  opening : α
  low : α
  high : α
  deriving DecidableEq, Repr

namespace Snapshot

/-- The range a side could have traded in. -/
def range (s : Snapshot α) (isBuy : Bool) : TradingRange α :=
  match s.bar with
  | some bar => ⟨bar.opening, bar.low, bar.high⟩
  | none => ⟨s.touch isBuy, s.touch isBuy, s.touch isBuy⟩

/-- The price at which a limit trades, if the range meets it: never worse than the limit. -/
def limitCross? (s : Snapshot α) (isBuy : Bool) (price : α) : Option α :=
  let r := s.range isBuy
  if isBuy then
    if r.low ≤ price then some (Scalar.min r.opening price) else none
  else
    if price ≤ r.high then some (Scalar.max r.opening price) else none

/-- Whether the range meets a stop. -/
def reachesStop (s : Snapshot α) (isBuy : Bool) (stop : α) : Bool :=
  if isBuy then decide (stop ≤ (s.range isBuy).high) else decide ((s.range isBuy).low ≤ stop)

/-- The price at which a reached stop trades: the stop, or an open that is already beyond it. -/
def stopCross (s : Snapshot α) (isBuy : Bool) (stop : α) : α :=
  if isBuy then Scalar.max (s.range isBuy).opening stop
  else Scalar.min (s.range isBuy).opening stop

end Snapshot

/-- Whether a price respects a limit. -/
def withinLimit (isBuy : Bool) (price limit : α) : Bool :=
  if isBuy then decide (price ≤ limit) else decide (limit ≤ price)

namespace FillConfig

/-- A price at market moved against the order. -/
def slipped (c : FillConfig α) (isBuy : Bool) (price : α) : α :=
  if isBuy then price + c.slippage else price - c.slippage

/-- The signed quantity that one evaluation of an order fills, drawn from the bar's allowance if
there is one. -/
def fillQuantity (c : FillConfig α) (security : Snapshot α) (order : Order α) (u : Usage α) :
    α × Usage α :=
  match c.participation, security.bar with
  | some share, some bar =>
    let (size, u) := u.draw share security.symbol bar (Scalar.abs order.remaining)
    -- the allowance counts units of either side
    (if order.leavesSale then -size else size, u)
  | _, _ => (order.remaining, u)

/-- The event of a fill of `quantity` at `price`: nothing happened if it does not count. -/
def filled (order : Order α) (now : Instant) (price quantity : α) : OrderEvent α :=
  if Scalar.negligible quantity then OrderEvent.unchanged order now
  else
    let status : OrderStatus :=
      if Scalar.negligible (order.remaining - quantity) then .filled else .partiallyFilled
    (OrderEvent.of order now status).withFill price quantity

/-- Fill as much of an order as may be filled, at `price`. -/
def fillAt (c : FillConfig α) (security : Snapshot α) (order : Order α) (now : Instant)
    (price : α) : Trial (Usage α) (OrderEvent α) := fun u =>
  let (quantity, u) := c.fillQuantity security order u
  (.ok (filled order now price quantity), u)

/-- Fill at the price of a condition that was met, if it was. -/
def fillIf (c : FillConfig α) (security : Snapshot α) (order : Order α) (now : Instant) :
    Option α → Trial (Usage α) (OrderEvent α)
  | some price => c.fillAt security order now price
  | none => Trial.give (OrderEvent.unchanged order now)

def marketPrice? (c : FillConfig α) (security : Snapshot α) (order : Order α) : Option α :=
  if security.hasPrice then some (c.slipped order.isBuy (security.touch order.isBuy)) else none

def stopMarketPrice? (c : FillConfig α) (security : Snapshot α) (order : Order α) (stop : α) :
    Option α :=
  if security.reachesStop order.isBuy stop then
    some (c.slipped order.isBuy (security.stopCross order.isBuy stop))
  else none

/-- The price of a stop-limit order whose stop the snapshot reaches now: the stop's price, if it
is within the limit. -/
def triggerPrice? (security : Snapshot α) (order : Order α) (stop limit : α) : Option α :=
  let price := security.stopCross order.isBuy stop
  if withinLimit order.isBuy price limit then some price else none

/-- The price of an order for a cross of the session. -/
def crossPrice? (c : FillConfig α) (security : Snapshot α) (order : Order α)
    (session : SessionState) (price : α) : Option α :=
  if security.session = session ∧ security.hasPrice then some (c.slipped order.isBuy price)
  else none

def stopLimitRule (c : FillConfig α) (security : Snapshot α) (order : Order α) (now : Instant) :
    Trial (Usage α) (OrderEvent α × OrderKind α) :=
  match order.kind with
  | .stopLimit stop limit triggered =>
    if triggered then
      keepingKind order (c.fillIf security order now (security.limitCross? order.isBuy limit))
    else if security.reachesStop order.isBuy stop then
      -- the stop stays reached, whether or not its price is within the limit
      (c.fillIf security order now (triggerPrice? security order stop limit)).andThen fun event =>
        Trial.give (event, .stopLimit stop limit true)
    else Trial.give (OrderEvent.unchanged order now, order.kind)
  | kind => Trial.fail (.error ["stop-limit rule applied to a " ++ kind.name ++ " order"])

def fillModel (c : FillConfig α) : FillModel α (Usage α) where
  market security order now := c.fillIf security order now (c.marketPrice? security order)
  limit security order price now :=
    c.fillIf security order now (security.limitCross? order.isBuy price)
  stopMarket security order stop now :=
    c.fillIf security order now (c.stopMarketPrice? security order stop)
  stopLimit := c.stopLimitRule
  marketOnOpen security order now :=
    c.fillIf security order now (c.crossPrice? security order .opening security.opening)
  marketOnClose security order now :=
    c.fillIf security order now (c.crossPrice? security order .closing security.close)

end FillConfig

end TradingDesk
