/- Order.Status — where an order is in its life.

   An order is new until a desk accepts it, then submitted, perhaps partially
   filled, and at last filled, canceled or invalid. Those three are the end:
   nothing follows them. -/
namespace TradingDesk

inductive OrderStatus where
  | new
  | submitted
  | partiallyFilled
  | filled
  | canceled
  | invalid
  deriving DecidableEq, Repr

namespace OrderStatus

def all : List OrderStatus := [new, submitted, partiallyFilled, filled, canceled, invalid]

def name : OrderStatus → String
  | new => "New"
  | submitted => "Submitted"
  | partiallyFilled => "PartiallyFilled"
  | filled => "Filled"
  | canceled => "Canceled"
  | invalid => "Invalid"

def ofName? (s : String) : Option OrderStatus := all.find? fun status => status.name == s

/-- Filled, canceled and invalid orders are done. -/
def isTerminal : OrderStatus → Bool
  | filled | canceled | invalid => true
  | new | submitted | partiallyFilled => false

/-- An order that is not done is open. -/
def isOpen (s : OrderStatus) : Bool := !s.isTerminal

/-- Whether the second status may follow the first. -/
def allows : OrderStatus → OrderStatus → Bool
  | new, submitted | submitted, submitted => true
  | new, next | submitted, next | partiallyFilled, next =>
    match next with
    | partiallyFilled | filled | canceled | invalid => true
    | new | submitted => false
  | filled, _ | canceled, _ | invalid, _ => false

end OrderStatus

end TradingDesk
