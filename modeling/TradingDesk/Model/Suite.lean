import TradingDesk.Model.Fee
import TradingDesk.Model.Fill
import TradingDesk.Account.Power
/- Model.Suite — the four models a desk consults.

   Whether an order may execute now, whether the account affords it, what it
   trades at, and what that costs. The models of a suite share one memory `σ`;
   what they answer may depend on it in any way. The built-in suite remembers
   only what fills have taken from each bar. -/
namespace TradingDesk

structure Models (α σ : Type) where
  /-- Whether an order may execute on this pass. A veto leaves it open. -/
  executable : Snapshot α → Order α → σ → Bool × σ
  /-- Whether the account affords an order with the given fee. -/
  afford : Portfolio α → Snapshot α → Order α → (fee : α) → Trial σ (PowerCheck α)
  fill : FillModel α σ
  fees : String → FeeModel α σ

namespace Models

variable {α σ : Type} [Scalar α]

/-- The buying power check of an order, with the fee of its unfilled quantity at the price it is
expected to trade at. -/
def checkPower (models : Models α σ) (account : Portfolio α) (security : Snapshot α)
    (order : Order α) : Trial σ (PowerCheck α) :=
  ((models.fees order.symbol).fee security order (referencePrice security order)
    order.remaining).andThen fun fee => models.afford account security order fee

/-- The event of a fill attempt, its fee included, and the order's kind after it. -/
def attemptFill (models : Models α σ) (security : Snapshot α) (order : Order α) (now : Instant) :
    Trial σ (OrderEvent α × OrderKind α) :=
  (models.fill.dispatch security order now).andThen fun (event, kind) =>
    if event.isFill then
      ((models.fees order.symbol).fee security order event.fillPrice
        event.fillQuantity).andThen fun fee => Trial.give ({ event with fee := fee }, kind)
    else Trial.give (event, kind)

end Models

/-- A fill model that keeps the first of two memories. -/
def FillModel.onFirst {α σ τ : Type} (model : FillModel α σ) : FillModel α (σ × τ) where
  market security order now := (model.market security order now).onFirst
  limit security order price now := (model.limit security order price now).onFirst
  stopMarket security order stop now := (model.stopMarket security order stop now).onFirst
  stopLimit security order now := (model.stopLimit security order now).onFirst
  marketOnOpen security order now := (model.marketOnOpen security order now).onFirst
  marketOnClose security order now := (model.marketOnClose security order now).onFirst

/-- The models with another fill model, which keeps a memory of its own. -/
def Models.withFill {α σ τ : Type} (models : Models α τ) (fill : FillModel α σ) :
    Models α (σ × τ) where
  executable security order m :=
    let (allowed, second) := models.executable security order m.2
    (allowed, (m.1, second))
  afford account security order fee := (models.afford account security order fee).onSecond
  fill := fill.onFirst
  fees symbol :=
    { schedule := (models.fees symbol).schedule
      charge := fun security order price quantity =>
        ((models.fees symbol).charge security order price quantity).onSecond }

variable {α : Type} [Scalar α]

/-- Whether an order on the security may execute: it has a price, and its exchange trades if that
is asked for. -/
def ExecutionConfig.executable (c : ExecutionConfig) (security : Snapshot α) : Bool :=
  security.hasPrice && (!c.requireOpenMarket || security.session.isOpen)

/-- Fee plans by symbol, over one for all other symbols. -/
structure FeePlans (α : Type) where
  standard : FeePlan α
  overrides : Table String (FeePlan α)

def FeePlans.plan (plans : FeePlans α) (symbol : String) : FeePlan α :=
  (plans.overrides.get? symbol).getD plans.standard

/-- The built-in models. -/
def Config.models (c : Config α) (overrides : Table String (FeePlan α)) :
    Models α (Usage α) where
  executable security _ m := (c.execution.executable security, m)
  afford account security order fee :=
    Trial.give (account.check (effectiveLeverage c.power.leverage) security order fee)
  fill := c.fill.fillModel
  fees symbol := ((FeePlans.mk c.fees overrides).plan symbol).model

end TradingDesk
