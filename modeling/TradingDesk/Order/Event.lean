import TradingDesk.Order.Basic
import TradingDesk.Time.Written
/- Order.Event — what happened to an order.

   An event reports a status and what was filled, at what price and fee. An
   event that reports the order's own status and no fill says that nothing
   happened. -/
namespace TradingDesk

structure OrderEvent (α : Type) where
  orderId : OrderId
  symbol : String
  time : Instant
  status : OrderStatus
  fillPrice : α
  /-- The signed quantity of the fill. -/
  fillQuantity : α
  fee : α
  message : Option String := none
  /-- Whether this acknowledges an update. -/
  isUpdate : Bool := false
  deriving DecidableEq, Repr

namespace OrderEvent

variable {α : Type} [Scalar α]

/-- The order took a status, without fill or fee. -/
def of (o : Order α) (time : Instant) (status : OrderStatus) : OrderEvent α :=
  { orderId := o.id, symbol := o.symbol, time := time, status := status
    fillPrice := 0, fillQuantity := 0, fee := 0 }

/-- Nothing happened to the order. -/
def unchanged (o : Order α) (time : Instant) : OrderEvent α := of o time o.status

def withFill (e : OrderEvent α) (price quantity : α) : OrderEvent α :=
  { e with fillPrice := price, fillQuantity := quantity }

def withMessage (e : OrderEvent α) (message : String) : OrderEvent α :=
  { e with message := some message }

/-- Whether the event fills a quantity that counts. -/
def isFill (e : OrderEvent α) : Bool := decide (Scalar.tolerance ≤ Scalar.abs e.fillQuantity)

/-- The event in one line. -/
def text (e : OrderEvent α) : String :=
  e.time.messageText ++ " order " ++ toString e.orderId ++ " " ++ e.symbol ++ ": " ++
    e.status.name ++ " @ " ++ Scalar.text e.fillPrice ++ " fee " ++ Scalar.text e.fee ++
    (if e.isFill then " qty " ++ Scalar.text e.fillQuantity else "") ++
    (match e.message with
      | some message => " (" ++ message ++ ")"
      | none => "")

end OrderEvent

end TradingDesk
