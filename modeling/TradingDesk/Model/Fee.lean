import TradingDesk.Model.Trial
import TradingDesk.Config
import TradingDesk.Order.Basic
import TradingDesk.Market.Snapshot
/- Model.Fee — what a fill costs.

   A fee model says what a fill costs and on what schedule. One that charges by
   the order is asked for the first fill of an order only; one that charges by
   the unit is asked for every fill. -/
namespace TradingDesk

/-- How the charges of a fee model spread over the fills of an order. -/
inductive FeeSchedule where
  /-- Once, with the first fill. -/
  | perOrder
  /-- With every fill, for its quantity. -/
  | perUnit
  deriving DecidableEq, Repr

def FeeSchedule.name : FeeSchedule → String
  | perOrder => "PerOrder"
  | perUnit => "PerUnit"

/-- What a fill costs. A model is asked with the order as it stood before the fill. -/
structure FeeModel (α σ : Type) where
  schedule : FeeSchedule
  charge : Snapshot α → Order α → (price quantity : α) → Trial σ α

variable {α σ : Type} [Scalar α]

namespace FeePlan

def schedule : FeePlan α → FeeSchedule
  | perOrder _ => .perOrder
  | perUnit .. | basisPoints _ => .perUnit

/-- What the plan charges for a fill. -/
def charge (plan : FeePlan α) (order : Order α) (price quantity : α) : α :=
  match plan with
  | perOrder fee => fee
  | perUnit rate minimum =>
    let fee := rate * Scalar.abs quantity
    if order.isUnfilled then Scalar.max fee minimum else fee
  | basisPoints rate => price * Scalar.abs quantity * rate / Scalar.ofNat 10000

def model (plan : FeePlan α) : FeeModel α σ :=
  ⟨plan.schedule, fun _ order price quantity => Trial.give (plan.charge order price quantity)⟩

end FeePlan

/-- The fee of a fill on the model's schedule. A quantity that does not count costs nothing. -/
def FeeModel.fee (model : FeeModel α σ) (security : Snapshot α) (order : Order α)
    (price quantity : α) : Trial σ α :=
  if Scalar.negligible quantity then Trial.give 0
  else match model.schedule with
    | .perOrder =>
      if order.isUnfilled then model.charge security order price quantity else Trial.give 0
    | .perUnit => model.charge security order price quantity

end TradingDesk
