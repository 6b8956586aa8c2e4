import TradingDesk.Table
import TradingDesk.Order.Event
/- Ledger — every order ever placed, and which of them are pending.

   The ledger keeps its own copy of each order under its id, and the set of ids
   that a pass has to look at. An order leaves that set when it is done and
   stays in the ledger. -/
namespace TradingDesk

structure Ledger (α : Type) where
  orders : Table OrderId (Order α)
  pending : Table OrderId Unit
  deriving DecidableEq

namespace Ledger

variable {α : Type}

def empty : Ledger α := ⟨Table.empty, Table.empty⟩

def get? (l : Ledger α) (id : OrderId) : Option (Order α) := l.orders.get? id

def isPending (l : Ledger α) (id : OrderId) : Bool := l.pending.contains id

/-- The pending ids, ascending. -/
def pendingIds (l : Ledger α) : List OrderId := l.pending.keys

def hasPending (l : Ledger α) : Bool := !l.pending.isEmpty

/-- The orders of the pending ids, in ascending order of the ids. -/
def openOrders (l : Ledger α) : List (Order α) := l.pendingIds.filterMap l.get?

/-- The ledger without an id in the pending set. -/
def dropPending (l : Ledger α) (id : OrderId) : Ledger α := { l with pending := l.pending.erase id }

/-- File a new order as submitted and pending. Nothing is filed if the order is not new or its id
is taken. -/
def place? (l : Ledger α) (order : Order α) : Option (Ledger α) :=
  if order.status = .new ∧ l.get? order.id = none then
    some
      { orders := l.orders.insert order.id { order with status := .submitted }
        pending := l.pending.insert order.id () }
  else none

def pendingOrder? (l : Ledger α) (id : OrderId) : Option (Order α) :=
  if l.isPending id then l.get? id else none

/-- Update a pending order; also the stored order after it. -/
def update? (l : Ledger α) (update : Order α) : Option (Ledger α × Order α) :=
  (l.pendingOrder? update.id).map fun stored =>
    let stored := stored.applyUpdate update
    ({ l with orders := l.orders.insert update.id stored }, stored)

/-- Cancel a pending order; also the stored order after it. Where it finds none, the caller takes
the mark of the id off (`dropPending`). -/
def cancel? (l : Ledger α) (id : OrderId) : Option (Ledger α × Order α) :=
  (l.pendingOrder? id).map fun stored =>
    let stored := { stored with status := .canceled }
    ({ l.dropPending id with orders := l.orders.insert id stored }, stored)

/-- The ledger with another kind for an order, if it has the order. -/
def setKind (l : Ledger α) (id : OrderId) (kind : OrderKind α) : Ledger α :=
  { l with orders := l.orders.adjust id fun order => { order with kind := kind } }

variable [Scalar α]

/-- Book an event on its order: its status, and what it filled. Nothing is booked if the order is
not known or its status may not be followed by the event's. -/
def record? (l : Ledger α) (e : OrderEvent α) : Option (Ledger α) :=
  match l.get? e.orderId with
  | none => none
  | some order =>
    if order.status.allows e.status then
      let order := { order with status := e.status, filled := order.filled + e.fillQuantity }
      let l := { l with orders := l.orders.insert e.orderId order }
      some (if e.status.isTerminal then l.dropPending e.orderId else l)
    else none

end Ledger

end TradingDesk
