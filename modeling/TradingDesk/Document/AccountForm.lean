import TradingDesk.Document.OrderForm
import TradingDesk.Account.Portfolio
/- Document.AccountForm — cash, holdings and trades in documents. -/
namespace TradingDesk

namespace CashBalance

def fieldNames : List String := ["currency", "amount"]

def document (c : CashBalance Float) : Document :=
  .record [("currency", .text c.currency), ("amount", .float c.amount)]

def ofDocument? (d : Document) : Option (CashBalance Float) := do
  let f ← Fields.of? fieldNames d
  some ⟨← f.required "currency" Document.text?, ← f.required "amount" Document.float?⟩

end CashBalance

namespace Holding

def fieldNames : List String := ["symbol", "quantity", "average_price", "market_price"]

def document (h : Holding Float) : Document :=
  .record
    [("symbol", .text h.symbol), ("quantity", .float h.position.quantity),
      ("average_price", .float h.position.averagePrice),
      ("market_price", .float h.position.marketPrice)]

def ofDocument? (d : Document) : Option (Holding Float) := do
  let f ← Fields.of? fieldNames d
  let symbol ← f.required "symbol" Document.text?
  some ⟨symbol,
    { quantity := ← f.required "quantity" Document.float?
      averagePrice := ← f.required "average_price" Document.float?
      marketPrice := ← f.required "market_price" Document.float? }⟩

end Holding

namespace ClosedTrade

def fieldNames : List String :=
  ["symbol", "exit_time", "quantity", "entry_price", "exit_price", "pnl"]

def document (t : ClosedTrade Float) : Document :=
  .record
    [("symbol", .text t.symbol), ("exit_time", t.exitTime.document), ("quantity", .float t.quantity),
      ("entry_price", .float t.entryPrice), ("exit_price", .float t.exitPrice),
      ("pnl", .float t.gain)]

def ofDocument? (d : Document) : Option (ClosedTrade Float) := do
  let f ← Fields.of? fieldNames d
  some
    { symbol := ← f.required "symbol" Document.text?
      exitTime := ← f.required "exit_time" Instant.ofDocument?
      quantity := ← f.required "quantity" Document.float?
      entryPrice := ← f.required "entry_price" Document.float?
      exitPrice := ← f.required "exit_price" Document.float?
      gain := ← f.required "pnl" Document.float? }

end ClosedTrade

end TradingDesk
