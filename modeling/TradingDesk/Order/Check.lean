import TradingDesk.Order.Basic
/- Order.Check — which orders and updates make sense.

   An order needs a quantity that counts, a symbol and usable prices. An update
   needs the same, must stay on its order's side and must leave something to
   fill. The first fault found is the one reported. -/
namespace TradingDesk

/-- Why an order or an update is turned away. -/
inductive OrderFault (α : Type) where
  | invalidQuantity (id : OrderId) (quantity : α)
  | noSymbol (id : OrderId)
  | invalidPrice (id : OrderId) (kind : OrderKind α) (price : α)
  | sideChange (id : OrderId) (stored updated : α)
  | nothingLeft (id : OrderId) (updated filled : α)
  deriving DecidableEq, Repr

namespace OrderFault

variable {α : Type} [Scalar α]

/-- What is wrong, in words. -/
def reason : OrderFault α → String
  | invalidQuantity id quantity =>
    "order " ++ toString id ++ " has invalid quantity " ++ Scalar.text quantity
  | noSymbol id => "order " ++ toString id ++ " has no symbol"
  | invalidPrice id kind price =>
    "order " ++ toString id ++ " has invalid " ++ kind.name ++ " price " ++ Scalar.text price
  | sideChange id stored updated =>
    "order " ++ toString id ++ " update changes side from " ++ Scalar.text stored ++ " to " ++
      Scalar.text updated
  | nothingLeft id updated filled =>
    "order " ++ toString id ++ " update quantity " ++ Scalar.text updated ++
      " does not exceed filled quantity " ++ Scalar.text filled

def message (f : OrderFault α) : String := "Order error: " ++ f.reason

end OrderFault

namespace Order

variable {α : Type} [Scalar α]

/-- Whether a price can be traded at. -/
def isUsablePrice (price : α) : Bool := Scalar.isFinite price && decide (0 < price)

/-- The first unusable price of the order, the limit before the stop. -/
def badPrice? (o : Order α) : Option α :=
  (o.kind.limitPrice?.toList ++ o.kind.stopPrice?.toList).find? fun price => !isUsablePrice price

/-- Turn away an order that no rule could price. -/
def validate (o : Order α) : Except (OrderFault α) Unit :=
  if !Scalar.isFinite o.quantity || Scalar.negligible o.quantity then
    .error (.invalidQuantity o.id o.quantity)
  else if o.symbol.isEmpty then .error (.noSymbol o.id)
  else match o.badPrice? with
    | some price => .error (.invalidPrice o.id o.kind price)
    | none => .ok ()

/-- Turn away an update that is no order itself, that changes sides, or that leaves nothing to
fill. -/
def validateUpdate (stored update : Order α) : Except (OrderFault α) Unit :=
  match update.validate with
  | .error fault => .error fault
  | .ok () =>
    if !Scalar.sameSign update.quantity stored.quantity then
      .error (.sideChange stored.id stored.quantity update.quantity)
    else if Scalar.abs update.quantity - Scalar.abs stored.filled < Scalar.tolerance then
      .error (.nothingLeft stored.id update.quantity stored.filled)
    else .ok ()

end Order

end TradingDesk
