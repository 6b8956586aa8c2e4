import TradingDesk.Scalar.Basic
/- Config — the settings of a desk.

   Five sections: the account, the fill rules, the fees, buying power and the
   brokerage. Each has defaults, and validation reports the first setting the
   desk cannot work with. -/
namespace TradingDesk

variable {α : Type} [Scalar α]

structure AccountConfig (α : Type) where
  currency : String
  initialCash : α
  deriving DecidableEq, Repr

def AccountConfig.default : AccountConfig α := ⟨"USD", Scalar.ofNat 100000⟩

/-- How fills are priced and sized. -/
structure FillConfig (α : Type) where
  /-- Ticks that a fill at market moves against the order. -/
  slippageTicks : UInt32
  tickSize : α
  /-- The share of a bar's volume that fills may take; all of an order when there is none. -/
  participation : Option α
  deriving DecidableEq, Repr

namespace FillConfig

/-- Whole orders filled without slippage, in ticks of a cent. -/
def default : FillConfig α := ⟨0, 1 / Scalar.ofNat 100, none⟩

/-- The price amount that a fill at market moves against the order. -/
def slippage (c : FillConfig α) : α := Scalar.ofNat c.slippageTicks.toNat * c.tickSize

end FillConfig

inductive FeePlan (α : Type) where
  /-- One flat fee for an order. -/
  | perOrder (fee : α)
  /-- A fee for each unit, at least `minimum` with the first fill. -/
  | perUnit (rate minimum : α)
  /-- Hundredths of a percent of the amount traded. -/
  | basisPoints (rate : α)
  deriving DecidableEq, Repr

namespace FeePlan

def default : FeePlan α := .perOrder 1

def free : FeePlan α := .perOrder 0

end FeePlan

/-- How far an account may be stretched. -/
structure PowerConfig (α : Type) where
  leverage : α
  deriving DecidableEq, Repr

def PowerConfig.default : PowerConfig α := ⟨1⟩

structure ExecutionConfig where
  /-- Whether orders wait while the exchange is closed. -/
  requireOpenMarket : Bool
  deriving DecidableEq, Repr

def ExecutionConfig.default : ExecutionConfig := ⟨true⟩

structure Config (α : Type) where
  account : AccountConfig α
  fill : FillConfig α
  fees : FeePlan α
  power : PowerConfig α
  execution : ExecutionConfig
  deriving DecidableEq, Repr

/-- A setting the desk cannot work with. -/
inductive ConfigFault where
  | initialCash
  | tickSize
  | participation
  | leverage
  | feePerOrder
  | feePerUnit
  | feeBasisPoints
  deriving DecidableEq, Repr

namespace ConfigFault

def reason : ConfigFault → String
  | initialCash => "account.initial_cash must be >= 0"
  | tickSize => "fill.tick_size must be > 0"
  | participation => "fill.max_volume_participation must be in (0, 1]"
  | leverage => "buying_power.leverage must be >= 1"
  | feePerOrder => "fees.fee must be >= 0"
  | feePerUnit => "fees.per_unit and fees.minimum must be >= 0"
  | feeBasisPoints => "fees.bps must be >= 0"

def message (f : ConfigFault) : String := "Configuration error: " ++ f.reason

end ConfigFault

namespace Config

def default : Config α :=
  ⟨AccountConfig.default, FillConfig.default, FeePlan.default, PowerConfig.default,
    ExecutionConfig.default⟩

/-- Whether a share of volume can be used. -/
def isUsableShare (p : α) : Bool := decide (0 < p) && decide (p ≤ 1)

def feeFault? : FeePlan α → Option ConfigFault
  | .perOrder fee => if fee < 0 then some .feePerOrder else none
  | .perUnit rate minimum => if rate < 0 ∨ minimum < 0 then some .feePerUnit else none
  | .basisPoints rate => if rate < 0 then some .feeBasisPoints else none

/-- The first setting the desk cannot work with. -/
def fault? (c : Config α) : Option ConfigFault :=
  if c.account.initialCash < 0 then some .initialCash
  else if c.fill.tickSize ≤ 0 then some .tickSize
  else if c.fill.participation.any fun p => !isUsableShare p then some .participation
  else if c.power.leverage < 1 then some .leverage
  else feeFault? c.fees

/-- Turn away settings the desk cannot work with. -/
def validate (c : Config α) : Except ConfigFault Unit :=
  match c.fault? with
  | some fault => .error fault
  | none => .ok ()

end Config

end TradingDesk
