import TradingDesk.Scalar.Basic
import TradingDesk.Time.Instant
/- Market.Snapshot — what is known of one security at one moment.

   A snapshot has a last price and may carry the latest bar and the latest
   quote. A buyer pays the ask where there is one, a seller receives the bid,
   and the last price stands in for whatever is missing. -/
namespace TradingDesk

/-- The best bid and ask. -/
structure Quote (α : Type) where
  time : Instant
  bidPrice : α
  bidSize : α
  askPrice : α
  askSize : α
  deriving DecidableEq, Repr

namespace Quote

variable {α : Type} [Scalar α]

/-- Half way between bid and ask. -/
def mid (q : Quote α) : α := (q.bidPrice + q.askPrice) / Scalar.ofNat 2

/-- How far the ask is above the bid. -/
def spread (q : Quote α) : α := q.askPrice - q.bidPrice

end Quote

/-- Prices and volume over an interval that ends at `time`. -/
structure Bar (α : Type) where
  time : Instant
  opening : α
  high : α
  low : α
  close : α
  volume : α
  deriving DecidableEq, Repr

/-- The bar with one price throughout. -/
def Bar.flat {α : Type} (time : Instant) (price volume : α) : Bar α :=
  ⟨time, price, price, price, price, volume⟩

/-- Where an exchange is in its trading day. -/
inductive SessionState where
  | closed
  /-- The opening cross. -/
  | opening
  | regular
  /-- The closing cross. -/
  | closing
  deriving DecidableEq, Repr

namespace SessionState

def all : List SessionState := [closed, opening, regular, closing]

def name : SessionState → String
  | closed => "Closed"
  | opening => "Opening"
  | regular => "Open"
  | closing => "Closing"

def ofName? (s : String) : Option SessionState := all.find? fun state => state.name == s

/-- Whether the exchange trades at all. -/
def isOpen (s : SessionState) : Bool := s != closed

end SessionState

structure Snapshot (α : Type) where
  symbol : String
  time : Instant
  lastPrice : α
  bar : Option (Bar α) := none
  quote : Option (Quote α) := none
  session : SessionState := .regular
  deriving DecidableEq, Repr

namespace Snapshot

variable {α : Type}

def ofBar (symbol : String) (bar : Bar α) : Snapshot α :=
  { symbol := symbol, time := bar.time, lastPrice := bar.close, bar := some bar }

def ofPrice (symbol : String) (time : Instant) (price : α) : Snapshot α :=
  { symbol := symbol, time := time, lastPrice := price }

def opening (s : Snapshot α) : α := (s.bar.map Bar.opening).getD s.lastPrice

def high (s : Snapshot α) : α := (s.bar.map Bar.high).getD s.lastPrice

def low (s : Snapshot α) : α := (s.bar.map Bar.low).getD s.lastPrice

def close (s : Snapshot α) : α := (s.bar.map Bar.close).getD s.lastPrice

def volume? (s : Snapshot α) : Option α := s.bar.map Bar.volume

variable [Scalar α]

/-- What a buyer pays: the ask if it is quoted, else the last price. -/
def askPrice (s : Snapshot α) : α :=
  match s.quote with
  | some q => if 0 < q.askPrice then q.askPrice else s.lastPrice
  | none => s.lastPrice

/-- What a seller receives: the bid if it is quoted, else the last price. -/
def bidPrice (s : Snapshot α) : α :=
  match s.quote with
  | some q => if 0 < q.bidPrice then q.bidPrice else s.lastPrice
  | none => s.lastPrice

/-- What the given side trades at right now. -/
def touch (s : Snapshot α) (isBuy : Bool) : α := if isBuy then s.askPrice else s.bidPrice

/-- Whether the snapshot has a usable price. -/
def hasPrice (s : Snapshot α) : Bool := decide (0 < s.lastPrice)

end Snapshot

end TradingDesk
