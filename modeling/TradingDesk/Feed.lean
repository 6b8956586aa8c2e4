import TradingDesk.Order.Event
/- Feed — who hears of events, and in what order.

   Subscribers hear of every event published after they subscribed, in the order
   in which they subscribed; one that subscribed twice hears of it twice. A
   subscriber is what it does to the state `S` that the subscribers share. -/
namespace TradingDesk

/-- What a subscriber does with an event. -/
abbrev Subscriber (α S : Type) := S → OrderEvent α → S

/-- The subscribers to a feed of events, the earliest first. -/
structure Feed (α S : Type) where
  subscribers : List (Subscriber α S)

namespace Feed

variable {α S : Type}

/-- The feed that nobody hears. -/
def silent : Feed α S := ⟨[]⟩

def subscribe (feed : Feed α S) (subscriber : Subscriber α S) : Feed α S :=
  ⟨feed.subscribers ++ [subscriber]⟩

def emit (feed : Feed α S) (s : S) (e : OrderEvent α) : S :=
  feed.subscribers.foldl (fun s subscriber => subscriber s e) s

end Feed

/-- The events of a log that report on one order. -/
def eventsOf {α : Type} (log : List (OrderEvent α)) (id : OrderId) : List (OrderEvent α) :=
  log.filter fun e => e.orderId == id

end TradingDesk
