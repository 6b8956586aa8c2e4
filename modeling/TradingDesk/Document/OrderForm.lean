import TradingDesk.Document.Choice
import TradingDesk.Order.Event
import TradingDesk.Time.Reading
/- Document.OrderForm — orders and their events in documents. -/
namespace TradingDesk

/-! ## Times, names and ids -/

def Instant.document (t : Instant) : Document := .text t.documentText

def Instant.ofDocument? (d : Document) : Option Instant := d.text?.bind Instant.read?

def OrderId.document (id : OrderId) : Document := .natural id.toNat

def OrderId.ofDocument? (d : Document) : Option OrderId :=
  (d.natural? UInt64.size).map UInt64.ofNat

def OrderStatus.document (s : OrderStatus) : Document := .text s.name

def OrderStatus.ofDocument? (d : Document) : Option OrderStatus :=
  d.choiceName?.bind OrderStatus.ofName?

def Direction.document (s : Direction) : Document := .text s.name

def Direction.ofDocument? (d : Document) : Option Direction :=
  d.choiceName?.bind Direction.ofName?

/-! ## Kinds -/

namespace OrderKind

def tag : String := "type"

def documentName {α : Type} : OrderKind α → String
  | market => "market"
  | limit _ => "limit"
  | stopMarket _ => "stop_market"
  | stopLimit .. => "stop_limit"
  | marketOnOpen => "market_on_open"
  | marketOnClose => "market_on_close"

def documentFields : OrderKind Float → List (String × Document)
  | market | marketOnOpen | marketOnClose => []
  | limit price => [("limit_price", .float price)]
  | stopMarket stop => [("stop_price", .float stop)]
  | stopLimit stop price triggered =>
    [("stop_price", .float stop), ("limit_price", .float price),
      ("stop_triggered", .bool triggered)]

def document (k : OrderKind Float) : Document :=
  .record ((tag, .text k.documentName) :: k.documentFields)

/-- The kind of a name and what stands beside the tag. -/
def ofParts? (name : String) (rest : Document) : Option (OrderKind Float) :=
  if name = "market" then if rest.isBare then some market else none
  else if name = "limit" then do
    let f ← Fields.of? ["limit_price"] rest
    some (limit (← f.required "limit_price" Document.float?))
  else if name = "stop_market" then do
    let f ← Fields.of? ["stop_price"] rest
    some (stopMarket (← f.required "stop_price" Document.float?))
  else if name = "stop_limit" then do
    let f ← Fields.of? ["stop_price", "limit_price", "stop_triggered"] rest
    some (stopLimit (← f.required "stop_price" Document.float?)
      (← f.required "limit_price" Document.float?)
      (← f.defaulted "stop_triggered" false Document.bool?))
  else if name = "market_on_open" then if rest.isBare then some marketOnOpen else none
  else if name = "market_on_close" then if rest.isBare then some marketOnClose else none
  else none

/-- The kind of a document that stands inside `enclosing` levels. -/
def ofDocument? (enclosing : Nat) (d : Document) : Option (OrderKind Float) :=
  (d.tagged? tag enclosing).bind fun (name, rest) => ofParts? name rest

end OrderKind

/-! ## Times in force -/

namespace TimeInForce

def document : TimeInForce → Document
  | goodTilCanceled => .text "GoodTilCanceled"
  | day => .text "Day"
  | goodTilDate expiry => .record [("GoodTilDate", expiry.document)]

/-- The time in force of a name alone. -/
def ofName? (name : String) : Option TimeInForce :=
  if name = "GoodTilCanceled" then some goodTilCanceled
  else if name = "Day" then some day
  else none

def ofDocument? (d : Document) : Option TimeInForce :=
  match d with
  | .object [(some "GoodTilDate", expiry)] => (Instant.ofDocument? expiry).map goodTilDate
  | d => d.choiceName?.bind ofName?

end TimeInForce

/-! ## Orders -/

namespace Order

def fieldNames : List String :=
  ["id", "symbol", "quantity", "kind", "time", "status", "filled_quantity", "time_in_force", "tag",
    "broker_ids"]

def document (o : Order Float) : Document :=
  .record
    [("id", o.id.document), ("symbol", .text o.symbol), ("quantity", .float o.quantity),
      ("kind", o.kind.document), ("time", o.time.document), ("status", o.status.document),
      ("filled_quantity", .float o.filled), ("time_in_force", o.timeInForce.document),
      ("tag", .text o.tag), ("broker_ids", .list Document.text o.brokerIds)]

def ofDocument? (d : Document) : Option (Order Float) := do
  let f ← Fields.of? fieldNames d
  some
    { id := ← f.required "id" OrderId.ofDocument?
      symbol := ← f.required "symbol" Document.text?
      quantity := ← f.required "quantity" Document.float?
      kind := ← f.required "kind" (OrderKind.ofDocument? 1)
      time := ← f.required "time" Instant.ofDocument?
      status := ← f.required "status" OrderStatus.ofDocument?
      filled := ← f.required "filled_quantity" Document.float?
      timeInForce := ← f.required "time_in_force" TimeInForce.ofDocument?
      tag := ← f.required "tag" Document.text?
      brokerIds := ← f.required "broker_ids" (Document.list? Document.text?) }

end Order

/-! ## Events -/

namespace OrderEvent

def fieldNames : List String :=
  ["order_id", "symbol", "time", "status", "fill_price", "fill_quantity", "fee", "message",
    "is_update"]

def document (e : OrderEvent Float) : Document :=
  .record
    [("order_id", e.orderId.document), ("symbol", .text e.symbol), ("time", e.time.document),
      ("status", e.status.document), ("fill_price", .float e.fillPrice),
      ("fill_quantity", .float e.fillQuantity), ("fee", .float e.fee),
      ("message", .option Document.text e.message), ("is_update", .bool e.isUpdate)]

def ofDocument? (d : Document) : Option (OrderEvent Float) := do
  let f ← Fields.of? fieldNames d
  some
    { orderId := ← f.required "order_id" OrderId.ofDocument?
      symbol := ← f.required "symbol" Document.text?
      time := ← f.required "time" Instant.ofDocument?
      status := ← f.required "status" OrderStatus.ofDocument?
      fillPrice := ← f.required "fill_price" Document.float?
      fillQuantity := ← f.required "fill_quantity" Document.float?
      fee := ← f.required "fee" Document.float?
      message := ← f.optional "message" Document.text?
      isUpdate := ← f.defaulted "is_update" false Document.bool? }

end OrderEvent

end TradingDesk
