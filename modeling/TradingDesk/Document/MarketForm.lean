import TradingDesk.Document.OrderForm
import TradingDesk.Market.Snapshot
/- Document.MarketForm — snapshots in documents. -/
namespace TradingDesk

def SessionState.document (s : SessionState) : Document := .text s.name

def SessionState.ofDocument? (d : Document) : Option SessionState :=
  d.choiceName?.bind SessionState.ofName?

namespace Quote

def fieldNames : List String := ["time", "bid_px", "bid_sz", "ask_px", "ask_sz"]

def document (q : Quote Float) : Document :=
  .record
    [("time", q.time.document), ("bid_px", .float q.bidPrice), ("bid_sz", .float q.bidSize),
      ("ask_px", .float q.askPrice), ("ask_sz", .float q.askSize)]

def ofDocument? (d : Document) : Option (Quote Float) := do
  let f ← Fields.of? fieldNames d
  some
    { time := ← f.required "time" Instant.ofDocument?
      bidPrice := ← f.required "bid_px" Document.float?
      bidSize := ← f.required "bid_sz" Document.float?
      askPrice := ← f.required "ask_px" Document.float?
      askSize := ← f.required "ask_sz" Document.float? }

end Quote

namespace Bar

def fieldNames : List String := ["time", "open", "high", "low", "close", "volume"]

def document (b : Bar Float) : Document :=
  .record
    [("time", b.time.document), ("open", .float b.opening), ("high", .float b.high),
      ("low", .float b.low), ("close", .float b.close), ("volume", .float b.volume)]

def ofDocument? (d : Document) : Option (Bar Float) := do
  let f ← Fields.of? fieldNames d
  some
    { time := ← f.required "time" Instant.ofDocument?
      opening := ← f.required "open" Document.float?
      high := ← f.required "high" Document.float?
      low := ← f.required "low" Document.float?
      close := ← f.required "close" Document.float?
      volume := ← f.required "volume" Document.float? }

end Bar

namespace Snapshot

def fieldNames : List String := ["symbol", "time", "last_price", "bar", "quote", "session"]

def document (s : Snapshot Float) : Document :=
  .record
    [("symbol", .text s.symbol), ("time", s.time.document), ("last_price", .float s.lastPrice),
      ("bar", .option Bar.document s.bar), ("quote", .option Quote.document s.quote),
      ("session", s.session.document)]

def ofDocument? (d : Document) : Option (Snapshot Float) := do
  let f ← Fields.of? fieldNames d
  some
    { symbol := ← f.required "symbol" Document.text?
      time := ← f.required "time" Instant.ofDocument?
      lastPrice := ← f.required "last_price" Document.float?
      bar := ← f.optional "bar" Bar.ofDocument?
      quote := ← f.optional "quote" Quote.ofDocument?
      session := ← f.required "session" SessionState.ofDocument? }

end Snapshot

end TradingDesk
