import TradingDesk.Document.Choice
import TradingDesk.Document.Reading
import TradingDesk.Scalar.Floating
import TradingDesk.Config
/- Document.ConfigForm — settings in documents, and from files.

   Any section and any field of a section may be missing from a document of
   settings, and then has its default; the fees are there as a whole or not at
   all. Settings are validated once they are read. -/
namespace TradingDesk

namespace AccountConfig

def fieldNames : List String := ["currency", "initial_cash"]

def document (c : AccountConfig Float) : Document :=
  .record [("currency", .text c.currency), ("initial_cash", .float c.initialCash)]

def ofDocument? (d : Document) : Option (AccountConfig Float) := do
  let f ← Fields.of? fieldNames d
  let c : AccountConfig Float := AccountConfig.default
  some
    { currency := ← f.defaulted "currency" c.currency Document.text?
      initialCash := ← f.defaulted "initial_cash" c.initialCash Document.float? }

end AccountConfig

namespace FillConfig

def fieldNames : List String := ["slippage_ticks", "tick_size", "max_volume_participation"]

def document (c : FillConfig Float) : Document :=
  .record
    [("slippage_ticks", .natural c.slippageTicks.toNat), ("tick_size", .float c.tickSize),
      ("max_volume_participation", .option Document.float c.participation)]

def ofDocument? (d : Document) : Option (FillConfig Float) := do
  let f ← Fields.of? fieldNames d
  let c : FillConfig Float := FillConfig.default
  some
    { slippageTicks := ← f.defaulted "slippage_ticks" c.slippageTicks fun d =>
        (d.natural? UInt32.size).map UInt32.ofNat
      tickSize := ← f.defaulted "tick_size" c.tickSize Document.float?
      participation := ← f.defaulted "max_volume_participation" c.participation fun d =>
        d.option? Document.float? }

end FillConfig

namespace FeePlan

def tag : String := "schedule"

def documentName : FeePlan Float → String
  | perOrder _ => "per_order"
  | perUnit .. => "per_unit"
  | basisPoints _ => "bps"

def documentFields : FeePlan Float → List (String × Document)
  | perOrder fee => [("fee", .float fee)]
  | perUnit rate minimum => [("per_unit", .float rate), ("minimum", .float minimum)]
  | basisPoints rate => [("bps", .float rate)]

def document (p : FeePlan Float) : Document :=
  .record ((tag, .text p.documentName) :: p.documentFields)

/-- The fee plan of a name and what stands beside the tag. -/
def ofParts? (name : String) (rest : Document) : Option (FeePlan Float) :=
  if name = "per_order" then do
    let f ← Fields.of? ["fee"] rest
    some (perOrder (← f.required "fee" Document.float?))
  else if name = "per_unit" then do
    let f ← Fields.of? ["per_unit", "minimum"] rest
    some (perUnit (← f.required "per_unit" Document.float?)
      (← f.required "minimum" Document.float?))
  else if name = "bps" then do
    let f ← Fields.of? ["bps"] rest
    some (basisPoints (← f.required "bps" Document.float?))
  else none

/-- The fee plan of a document that stands inside `enclosing` levels. -/
def ofDocument? (enclosing : Nat) (d : Document) : Option (FeePlan Float) :=
  (d.tagged? tag enclosing).bind fun (name, rest) => ofParts? name rest

end FeePlan

namespace PowerConfig

def fieldNames : List String := ["leverage"]

def document (c : PowerConfig Float) : Document := .record [("leverage", .float c.leverage)]

def ofDocument? (d : Document) : Option (PowerConfig Float) := do
  let f ← Fields.of? fieldNames d
  let c : PowerConfig Float := PowerConfig.default
  some ⟨← f.defaulted "leverage" c.leverage Document.float?⟩

end PowerConfig

namespace ExecutionConfig

def fieldNames : List String := ["require_open_market"]

def document (c : ExecutionConfig) : Document :=
  .record [("require_open_market", .bool c.requireOpenMarket)]

def ofDocument? (d : Document) : Option ExecutionConfig := do
  let f ← Fields.of? fieldNames d
  let c := ExecutionConfig.default
  some ⟨← f.defaulted "require_open_market" c.requireOpenMarket Document.bool?⟩

end ExecutionConfig

/-- Why settings could not be had from a text or a file. -/
inductive ConfigError where
  /-- The file could not be read as text. -/
  | unreadable
  /-- The text is no document of settings. -/
  | malformed
  /-- A setting cannot be worked with. -/
  | invalid (fault : ConfigFault)
  deriving DecidableEq, Repr

namespace Config

def fieldNames : List String := ["account", "fill", "fees", "buying_power", "brokerage"]

def document (c : Config Float) : Document :=
  .record
    [("account", c.account.document), ("fill", c.fill.document), ("fees", c.fees.document),
      ("buying_power", c.power.document), ("brokerage", c.execution.document)]

def ofDocument? (d : Document) : Option (Config Float) := do
  let f ← Fields.of? fieldNames d
  let c : Config Float := Config.default
  some
    { account := ← f.defaulted "account" c.account AccountConfig.ofDocument?
      fill := ← f.defaulted "fill" c.fill FillConfig.ofDocument?
      fees := ← f.defaulted "fees" c.fees (FeePlan.ofDocument? 1)
      power := ← f.defaulted "buying_power" c.power PowerConfig.ofDocument?
      execution := ← f.defaulted "brokerage" c.execution ExecutionConfig.ofDocument? }

/-- The settings that a text gives, if the desk can work with them. -/
def ofText (text : String) : Except ConfigError (Config Float) :=
  match (Document.read? text).bind ofDocument? with
  | none => .error .malformed
  | some c =>
    match c.validate with
    | .ok () => .ok c
    | .error fault => .error (.invalid fault)

/-- The settings that the bytes of a file give; there are none if there is no such file. -/
def ofFile (bytes : Option ByteArray) : Except ConfigError (Config Float) :=
  match bytes.bind String.fromUTF8? with
  | some text => ofText text
  | none => .error .unreadable

end Config

end TradingDesk
