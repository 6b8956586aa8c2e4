import TradingDesk.Account.Portfolio
import TradingDesk.Market.Snapshot
/- Account.Power — whether an account can afford an order.

   The part of an order that reduces a position needs no capital. The rest
   needs its price times its quantity over the leverage, and the fee. An account
   has its total value less what its positions already tie up. -/
namespace TradingDesk

/-- The answer to whether an order can be afforded. -/
structure PowerCheck (α : Type) where
  sufficient : Bool
  /-- The amount of the order's unfilled quantity. -/
  value : α
  /-- Why the answer is no, where that is said. -/
  reason : Option String
  deriving DecidableEq, Repr

namespace PowerCheck

variable {α : Type} [Scalar α]

def refusal (value : α) : String :=
  "Insufficient buying power to complete order (Value:" ++ Scalar.cents value ++ ")"

def shortfall (value required available : α) : String :=
  refusal value ++ ", Reason: Required margin " ++ Scalar.cents required ++
    " exceeds available buying power " ++ Scalar.cents available

def message (c : PowerCheck α) : String := c.reason.getD (refusal c.value)

end PowerCheck

variable {α : Type} [Scalar α]

/-- The price an order is expected to trade at: its limit, else its stop, else the touch. -/
def referencePrice (security : Snapshot α) (order : Order α) : α :=
  match order.kind.limitPrice? with
  | some price => price
  | none =>
    match order.kind.stopPrice? with
    | some price => price
    | none => security.touch order.isBuy

namespace Portfolio

/-- The signed quantity held of a symbol, zero if there is none. -/
def quantityHeld (p : Portfolio α) (symbol : String) : α :=
  ((p.positions.get? symbol).map Position.quantity).getD 0

/-- How much of a signed quantity would reduce a position of signed quantity `held`. -/
def reducing (held quantity : α) : α :=
  if !Scalar.isZero held && !Scalar.sameSign held quantity then
    Scalar.min (Scalar.abs quantity) (Scalar.abs held)
  else 0

/-- How much of an order's unfilled quantity opens new exposure. -/
def opening (p : Portfolio α) (order : Order α) : α :=
  Scalar.abs order.remaining - reducing (p.quantityHeld order.symbol) order.remaining

/-- The capital that the open positions tie up. -/
def used (p : Portfolio α) (leverage : α) : α :=
  Scalar.sum (p.positions.values.map fun held => Scalar.abs held.marketValue / leverage)

def available (p : Portfolio α) (leverage : α) : α := p.totalValue - p.used leverage

/-- The capital that an order's new exposure needs, with its fee. -/
def required (p : Portfolio α) (leverage : α) (security : Snapshot α) (order : Order α)
    (fee : α) : α :=
  p.opening order * referencePrice security order / leverage + fee

/-- Whether the account can afford an order. -/
def check (p : Portfolio α) (leverage : α) (security : Snapshot α) (order : Order α) (fee : α) :
    PowerCheck α :=
  let value := Scalar.abs (order.remaining * referencePrice security order)
  let required := p.required leverage security order fee
  let available := p.available leverage
  if p.opening order ≤ 0 then ⟨true, value, none⟩
  else if available < required then
    ⟨false, value, some (PowerCheck.shortfall value required available)⟩
  else ⟨true, value, none⟩

end Portfolio

/-- The leverage an account is held to: at least one. -/
def effectiveLeverage (leverage : α) : α := Scalar.max leverage 1

end TradingDesk
