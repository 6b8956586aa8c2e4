import TradingDesk.Pass
import TradingDesk.Order.Check
/- Desk — a simulated brokerage.

   A desk takes orders, updates and cancels, and matches what is pending
   whenever it is told the time. It accepts a placement of a new and sound order
   under an id it has not seen, an update of a pending order that leaves it
   something to fill on its side, and a cancel of a pending order. What it turns
   away changes nothing. -/
namespace TradingDesk

structure Desk (α σ : Type) extends Floor α σ where
  board : Board α
  /-- Whether a pass could find something to do. -/
  needsPass : Bool
  /-- The time of the latest request to match orders. -/
  time : Option Instant

/-- The answer to a request: whether it was accepted, the caller's order after it and the desk
after it. -/
structure Answer (α σ : Type) where
  accepted : Bool
  order : Order α
  desk : Desk α σ

def deskName : String := "Simulated Brokerage"

namespace Desk

variable {α σ : Type} [Scalar α]

/-- A desk with an account and without orders. -/
def opening (account : Portfolio α) (memory : σ) : Desk α σ :=
  { ledger := Ledger.empty, account := account, memory := memory, log := [], reports := []
    board := Table.empty, needsPass := false, time := none }

def order? (d : Desk α σ) (id : OrderId) : Option (Order α) := d.ledger.get? id

/-- The time of an event that answers a caller's order: the desk's, but not before the order's. -/
def eventTime (d : Desk α σ) (order : Order α) : Instant :=
  match d.time with
  | some now => max now order.time
  | none => order.time

def withFloor (d : Desk α σ) (f : Floor α σ) : Desk α σ := { d with toFloor := f }

/-- The desk with an id taken off the pending set. -/
def unmark (d : Desk α σ) (id : OrderId) : Desk α σ :=
  d.withFloor { d.toFloor with ledger := d.ledger.dropPending id }

/-- The answer that turns a request away. -/
def refuse (d : Desk α σ) (order : Order α) : Answer α σ := ⟨false, order, d⟩

/-- The caller's order with the identifier that the desk gives it. -/
def named (order : Order α) : Order α := order.addBrokerId (toString order.id)

/-- Whether a placement is accepted. -/
def accepts (d : Desk α σ) (order : Order α) : Bool :=
  order.status == .new && !d.ledger.orders.contains order.id && order.validate.isOk

def place (d : Desk α σ) (order : Order α) : Answer α σ :=
  if d.accepts order then
    match d.ledger.place? (named order) with
    | some ledger =>
      let order := { named order with status := .submitted }
      let event := OrderEvent.of order (d.eventTime order) .submitted
      let floor := { d.toFloor with ledger := ledger }.publish event
      ⟨true, order, { d with toFloor := floor, needsPass := true }⟩
    | none => d.refuse (named order)
  else d.refuse order

/-- Whether an update is accepted. -/
def acceptsUpdate (d : Desk α σ) (update : Order α) : Bool :=
  match d.ledger.pendingOrder? update.id with
  | some stored => (stored.validateUpdate update).isOk
  | none => false

def update (d : Desk α σ) (order : Order α) : Answer α σ :=
  if d.acceptsUpdate order then
    match d.ledger.update? (named order) with
    | some (ledger, stored) =>
      let event := { OrderEvent.of stored (d.eventTime order) .submitted with isUpdate := true }
      let floor := { d.toFloor with ledger := ledger }.publish event
      ⟨true, named order, { d with toFloor := floor, needsPass := true }⟩
    | none => d.refuse (named order)
  else d.refuse order

def cancel (d : Desk α σ) (order : Order α) : Answer α σ :=
  match d.ledger.cancel? order.id with
  | some (ledger, stored) =>
    let event := OrderEvent.of stored (d.eventTime order) .canceled
    ⟨true, order, d.withFloor ({ d.toFloor with ledger := ledger }.publish event)⟩
  -- a mark without an order goes all the same
  | none => (d.unmark order.id).refuse order

/-- Match the pending orders at a time, if there could be anything to do. -/
def scan (models : Models α σ) (d : Desk α σ) (now : Instant) : Desk α σ :=
  if d.needsPass then
    let (floor, again) := d.toFloor.pass models d.board now
    { d with toFloor := floor, needsPass := again, time := some now }
  else { d with time := some now }

/-- Match the pending orders again and again at one time, while there could be anything to do and
at most `passes` times. -/
def scanRepeatedly (models : Models α σ) (now : Instant) : Nat → Desk α σ → Desk α σ
  | 0, d => d
  | passes + 1, d =>
    if d.needsPass then scanRepeatedly models now passes (d.scan models now) else d

def showSnapshot (d : Desk α σ) (s : Snapshot α) : Desk α σ := { d with board := d.board.post s }

def untrack (d : Desk α σ) (symbol : String) : Desk α σ := { d with board := d.board.erase symbol }

def mark (d : Desk α σ) (symbol : String) (price : α) : Desk α σ :=
  { d with account := d.account.mark symbol price }

end Desk

/-- What a desk can be asked to do. -/
inductive Action (α : Type) where
  | place (order : Order α)
  | update (order : Order α)
  | cancel (order : Order α)
  | scan (now : Instant)
  | showSnapshot (s : Snapshot α)
  | untrack (symbol : String)
  | mark (symbol : String) (price : α)
  deriving DecidableEq, Repr

namespace Desk

variable {α σ : Type} [Scalar α]

def step (models : Models α σ) (d : Desk α σ) : Action α → Desk α σ
  | .place order => (d.place order).desk
  | .update order => (d.update order).desk
  | .cancel order => (d.cancel order).desk
  | .scan now => d.scan models now
  | .showSnapshot s => d.showSnapshot s
  | .untrack symbol => d.untrack symbol
  | .mark symbol price => d.mark symbol price

def run (models : Models α σ) (d : Desk α σ) (actions : List (Action α)) : Desk α σ :=
  actions.foldl (step models) d

end Desk

end TradingDesk
