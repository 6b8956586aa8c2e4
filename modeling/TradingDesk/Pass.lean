import TradingDesk.Feed
import TradingDesk.Ledger
import TradingDesk.Market.Board
import TradingDesk.Model.Suite
/- Pass — one look at every pending order.

   A pass takes the pending orders in ascending order of their ids, judges each
   on its own, and settles the verdict before the next: at most one event for
   each order. An order is judged by the gates below, in this order:
     1. a market order may trade at once, any other waits for a time after its
        creation;
     2. an order on a security that is not tracked is invalid;
     3. an expired order is canceled;
     4. a veto leaves the order open, without an event;
     5. an order the account cannot afford is invalid;
     6. the fill model says what happens.

   A model that faults invalidates the order it was asked about, and no other. -/
namespace TradingDesk

/-- What is decided about one order in a pass. -/
inductive Verdict (α : Type) where
  /-- It stays open, and nothing is reported. -/
  | hold
  /-- It is done without trading. -/
  | close (event : OrderEvent α)
  /-- A model faulted, with this report. -/
  | fault (report : String)
  /-- The fill model answered with an event, and this is the order's kind after it. -/
  | answer (event : OrderEvent α) (kind : OrderKind α)
  deriving DecidableEq, Repr

/-- What a pass works on: the ledger, the account that follows its events, the memory of the
models, the events published and the faults reported. -/
structure Floor (α σ : Type) where
  ledger : Ledger α
  account : Portfolio α
  memory : σ
  log : List (OrderEvent α)
  reports : List (OrderId × String)

variable {α σ : Type} [Scalar α]

def untrackedEvent (order : Order α) (now : Instant) : OrderEvent α :=
  (OrderEvent.of order now .invalid).withMessage
    ("Security " ++ order.symbol ++ " is no longer tracked")

def expiryEvent (order : Order α) (now : Instant) : OrderEvent α :=
  (OrderEvent.of order now .canceled).withMessage "Order expired"

def refusalEvent (order : Order α) (now : Instant) (check : PowerCheck α) : OrderEvent α :=
  (OrderEvent.of order now .invalid).withMessage check.message

def faultEvent (order : Order α) (now : Instant) (report : String) : OrderEvent α :=
  (OrderEvent.of order now .invalid).withMessage report

/-- The report of a fault of the fee or the buying power model before the fill. -/
def powerFaultReport (fault : Fault) : String := "Buying power model failed: " ++ fault.text

/-- The report of a fault of the fill model, or of the fee model after it. -/
def fillFaultReport (fault : Fault) : String := "Fill model failed: " ++ fault.text

/-- Whether an order has to wait for a later time. -/
def Order.waits (order : Order α) (now : Instant) : Bool :=
  decide (now ≤ order.time) && !order.kind.isMarket

namespace Models

/-- The verdict of the fill model. -/
def judgeFill (models : Models α σ) (security : Snapshot α) (order : Order α) (now : Instant)
    (memory : σ) : Verdict α × σ :=
  match models.attemptFill security order now memory with
  | (.error fault, memory) => (.fault (fillFaultReport fault), memory)
  | (.ok (event, kind), memory) => (.answer event kind, memory)

/-- The verdict on an order that may execute. -/
def judgeExecutable (models : Models α σ) (account : Portfolio α) (security : Snapshot α)
    (order : Order α) (now : Instant) (memory : σ) : Verdict α × σ :=
  match models.checkPower account security order memory with
  | (.error fault, memory) => (.fault (powerFaultReport fault), memory)
  | (.ok check, memory) =>
    if check.sufficient then models.judgeFill security order now memory
    else (.close (refusalEvent order now check), memory)

/-- The verdict on an order. -/
def judge (models : Models α σ) (board : Board α) (account : Portfolio α) (order : Order α)
    (now : Instant) (memory : σ) : Verdict α × σ :=
  if order.waits now then (.hold, memory)
  else match board.get? order.symbol with
    | none => (.close (untrackedEvent order now), memory)
    | some security =>
      if order.isExpired now then (.close (expiryEvent order now), memory)
      else match models.executable security order memory with
        | (false, memory) => (.hold, memory)
        | (true, memory) => models.judgeExecutable account security order now memory

end Models

namespace Floor

/-- The account follows an event. -/
def follow : Subscriber α (Floor α σ) := fun f e => { f with account := f.account.applyFill e }

/-- An event is logged. -/
def record : Subscriber α (Floor α σ) := fun f e => { f with log := f.log ++ [e] }

/-- The feed of a desk: the account subscribed first, the log after it. -/
def feed : Feed α (Floor α σ) := (Feed.silent.subscribe follow).subscribe record

/-- Publish an event to the account and the log. -/
def publish (f : Floor α σ) (e : OrderEvent α) : Floor α σ := feed.emit f e

/-- Book an event and publish it; nothing happens if the ledger does not take it. Also whether it
did. -/
def commit (f : Floor α σ) (e : OrderEvent α) : Floor α σ × Bool :=
  match f.ledger.record? e with
  | some ledger => ({ f with ledger := ledger }.publish e, true)
  | none => (f, false)

/-- Report a fault. -/
def report (f : Floor α σ) (id : OrderId) (message : String) : Floor α σ :=
  { f with reports := f.reports ++ [(id, message)] }

/-- Carry out the verdict on an order. Also whether the order needs another look. -/
def settle (f : Floor α σ) (order : Order α) (now : Instant) : Verdict α → Floor α σ × Bool
  | .hold => (f, true)
  | .close event => ((f.commit event).1, false)
  | .fault message =>
    (((f.report order.id message).commit (faultEvent order now message)).1, false)
  | .answer event kind =>
    let f := { f with ledger := f.ledger.setKind order.id kind }
    -- an answer without news is not booked
    if event.status = order.status ∧ !event.isFill then (f, true)
    else
      let (f, taken) := f.commit event
      (f, !taken || !event.status.isTerminal)

/-- Look at one pending order. Also whether it needs another look. -/
def visit (models : Models α σ) (board : Board α) (now : Instant) (f : Floor α σ) (id : OrderId) :
    Floor α σ × Bool :=
  match f.ledger.get? id with
  | none => ({ f with ledger := f.ledger.dropPending id }, false)
  | some order =>
    -- an event issued about another order may have closed this one earlier in the pass
    if order.status.isTerminal then ({ f with ledger := f.ledger.dropPending id }, false)
    else
      let (verdict, memory) := models.judge board f.account order now f.memory
      { f with memory := memory }.settle order now verdict

/-- Look at the orders of a list of ids in turn. Also whether any of them needs another look. -/
def visitAll (models : Models α σ) (board : Board α) (now : Instant) (f : Floor α σ)
    (ids : List OrderId) : Floor α σ × Bool :=
  ids.foldl (fun (f, again) id =>
    let (f, needed) := f.visit models board now id
    (f, again || needed)) (f, false)

/-- Look at every order that is pending. Also whether any of them needs another look. -/
def pass (models : Models α σ) (board : Board α) (now : Instant) (f : Floor α σ) :
    Floor α σ × Bool :=
  f.visitAll models board now f.ledger.pendingIds

end Floor

end TradingDesk
