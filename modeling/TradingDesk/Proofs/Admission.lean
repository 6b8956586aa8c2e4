import TradingDesk.Proofs.Journal
/- Proofs.Admission — which requests a desk accepts.

   A placement is accepted exactly if it is new, valid and under an id of which no
   placement was accepted before, an update exactly if its id is pending and the stored
   order can take it, a cancel exactly if its id is pending (`run_requests`). What is
   turned away changes nothing, the caller's order included; what is accepted publishes
   one event, which acknowledges it (`Acknowledged`), and files one order
   (`Request.filing?`).

   That an id is free after a run says the same as that no placement under it was
   accepted (`run_order?_eq_none_iff`), since nothing but an accepted placement files an
   order under a free id. -/
namespace TradingDesk

variable {α σ : Type}

/-! ## Stored orders were placed -/

theorem Ledger.ne_of_get? {l : Ledger α} {id j : OrderId} {order : Order α}
    (hj : l.get? j = none) (hs : l.get? id = some order) : j ≠ id := by
  intro e
  rw [e, hs] at hj
  cases hj

variable [Scalar α]

/-- A look files nothing under a free id. -/
theorem Floor.Visited.get?_eq_none {models : Models α σ} {now : Instant} {id j : OrderId}
    {f f' : Floor α σ} {needed : Bool} (h : Visited models now id f f' needed)
    (hj : f.ledger.get? j = none) : f'.ledger.get? j = none := by
  cases h with
  | stale hdone hl ha hg => rw [hl]; exact hj
  | held hl ha hg => rw [hl]; exact hj
  | rekinded hs ho hi hl ha hg =>
    rw [hl, (Ledger.setKind_refiled _ hs).get?_of_ne (Ledger.ne_of_get? hj hs)]
    exact hj
  | @booked _ _ kind hs ho hi hl ha hg =>
    have hk := (Ledger.setKind_refiled kind hs).get?_of_ne (Ledger.ne_of_get? hj hs)
    obtain ⟨stored, hs', -, hr⟩ := Ledger.record?_refiled hl
    rw [hr.get?_of_ne (Ledger.ne_of_get? (hk.trans hj) hs'), hk]
    exact hj

namespace Desk

variable {models : Models α σ} {d : Desk α σ} {id : OrderId} {order : Order α}

/-- Only an accepted placement files an order under a free id. -/
theorem step_order?_eq_none (hf : d.ledger.WellFiled) (hn : d.order? id = none) {a : Action α}
    (h : ∀ request, a = .place request → (d.place request).accepted = true → request.id ≠ id) :
    (d.step models a).order? id = none := by
  cases a with
  | place request =>
    cases hr : d.accepts request with
    | false => rw [step, place_of_not_accepts hr]; exact hn
    | true =>
      obtain ⟨l, hfile, hp⟩ := place_of_accepts hr
      rw [step, hp]
      exact (hfile.get?_of_ne (h request rfl (place_accepted_iff.mpr hr)).symm).trans hn
  | update request =>
    cases hr : d.acceptsUpdate request with
    | false => rw [step, update_of_not_accepts hr]; exact hn
    | true =>
      obtain ⟨stored, l, -, hs, -, hfile, hu⟩ := update_of_accepts hr
      rw [step, hu]
      exact (hfile.get?_of_ne (Ledger.ne_of_get? hn hs)).trans hn
  | cancel request =>
    rcases d.cancel_cases request with hr | ⟨-, hr⟩ | ⟨stored, hp, hs⟩
    · rw [step, hr]; exact hn
    · rw [step, hr]; exact hn
    · obtain ⟨l, hfile, hc⟩ := cancel_of_pending hp hs
      rw [step, hc]
      exact (hfile.get?_of_ne (Ledger.ne_of_get? hn hs)).trans hn
  | scan now =>
    rw [step, scan]
    split
    · exact Floor.visitAll_keeps (P := fun g => g.ledger.get? id = none)
        (fun _ _ _ _ hv _ hg => hv.get?_eq_none hg) _ hf hn
    · exact hn
  | showSnapshot s => exact hn
  | untrack symbol => exact hn
  | mark symbol price => exact hn

/-- An id is free after a run exactly if the run accepted no placement under it. -/
theorem run_order?_eq_none_iff (models : Models α σ) (account : Portfolio α) (memory : σ)
    (actions : List (Action α)) :
    ((opening account memory).run models actions).order? id = none ↔
      ∀ request, Accepts models (opening account memory) actions request → request.id ≠ id := by
  constructor
  · intro hn request haccepts hid
    obtain ⟨time, hturns⟩ := run_turns_of_accepted haccepts
    have hsome := Docket.isSome_order_of_turns hturns rfl
    rw [hid, Floor.docket, show ((opening account memory).run models actions).ledger.get? id = none
      from hn] at hsome
    cases hsome
  · intro h
    refine run_induction (P := fun e => e.order? id = none) rfl ?_
    intro earlier a later hactions hn
    apply step_order?_eq_none (run_wellFiled models (opening_wellFiled account memory) earlier) hn
    intro request ha haccepted
    exact h request ⟨earlier, later, ha ▸ hactions, haccepted⟩

/-- A stored order was placed: the run accepted a placement under its id. -/
theorem exists_accepted {account : Portfolio α} {memory : σ} {actions : List (Action α)}
    (hs : ((opening account memory).run models actions).order? id = some order) :
    ∃ request, Accepts models (opening account memory) actions request ∧ request.id = id := by
  by_cases hfree : ∀ request, Accepts models (opening account memory) actions request →
      request.id ≠ id
  · rw [(run_order?_eq_none_iff models account memory actions).mpr hfree] at hs
    cases hs
  · obtain ⟨request, hrequest⟩ := Classical.not_forall.mp hfree
    obtain ⟨haccepts, hid⟩ := Classical.not_imp.mp hrequest
    exact ⟨request, haccepts, Decidable.not_not.mp hid⟩

/-! ## The three requests -/

/-- What a caller can ask of a desk with an order. -/
inductive Request where
  | place
  | update
  | cancel
  deriving DecidableEq, Repr

/-- The answer to a request with an order. -/
def ask (d : Desk α σ) (order : Order α) : Request → Answer α σ
  | .place => d.place order
  | .update => d.update order
  | .cancel => d.cancel order

/-- The status with which a request is acknowledged. -/
def Request.status : Request → OrderStatus
  | .place | .update => .submitted
  | .cancel => .canceled

/-- What a request files under its id, over the order that is stored there, and whether the id is
pending then. An update and a cancel file nothing where nothing is stored. -/
def Request.filing? (order : Order α) (stored? : Option (Order α)) :
    Request → Option (Order α × Bool)
  | .place => some (filedOrder order, true)
  | .update => stored?.map fun stored => (stored.applyUpdate (named order), true)
  | .cancel => stored?.map fun stored => ({ stored with status := .canceled }, false)

/-- One event was published. It is about the order stored under the id, reports the status and fills
nothing. -/
def Acknowledged (d d' : Desk α σ) (id : OrderId) (status : OrderStatus) : Prop :=
  ∃ event stored, d'.log = d.log ++ [event] ∧ d'.order? id = some stored ∧ event.orderId = id ∧
    event.symbol = stored.symbol ∧ event.status = status ∧ event.fillQuantity = 0 ∧ event.fee = 0

theorem cancel_accepted_iff (hb : d.ledger.Backed) :
    (d.cancel order).accepted = true ↔ d.ledger.isPending order.id = true := by
  constructor
  · intro h
    rcases cancel_cases_of_backed hb order with hc | ⟨stored, hpending, -⟩
    · rw [hc] at h
      cases h
    · exact hpending
  · intro hpending
    obtain ⟨stored, hs⟩ := Option.isSome_iff_exists.mp (hb order.id hpending)
    obtain ⟨l, -, hc⟩ := cancel_of_pending hpending hs
    rw [hc]

/-- A request is turned away as a whole. -/
theorem ask_of_not_accepted (hb : d.ledger.Backed) (request : Request)
    (h : (d.ask order request).accepted = false) : d.ask order request = d.refuse order := by
  cases request with
  | place =>
    apply place_of_not_accepts
    rw [← Bool.not_eq_true, ← place_accepted_iff]
    exact Bool.not_eq_true _ ▸ h
  | update =>
    apply update_of_not_accepts
    rw [← Bool.not_eq_true, ← update_accepted_iff]
    exact Bool.not_eq_true _ ▸ h
  | cancel =>
    rcases cancel_cases_of_backed hb order with hc | ⟨stored, hp, hs⟩
    · exact hc
    · obtain ⟨l, -, hc⟩ := cancel_of_pending hp hs
      rw [ask, hc] at h
      cases h

/-- A request that is accepted is acknowledged, and files one order. -/
theorem ask_accepted (hf : d.ledger.WellFiled) (request : Request)
    (h : (d.ask order request).accepted = true) :
    d.Acknowledged (d.ask order request).desk order.id request.status ∧
      ∃ filed pending, request.filing? order (d.order? order.id) = some (filed, pending) ∧
        Ledger.Refiled d.ledger (d.ask order request).desk.ledger order.id filed pending := by
  cases request with
  | place =>
    obtain ⟨l, hr, hp⟩ := place_of_accepts (place_accepted_iff.mp h)
    rw [ask, hp]
    exact ⟨⟨_, _, rfl, hr.get?_self, filedOrder_id order, rfl, rfl, rfl, rfl⟩, _, _, rfl, hr⟩
  | update =>
    obtain ⟨stored, l, -, hs, -, hr, hu⟩ := update_of_accepts (update_accepted_iff.mp h)
    rw [ask, hu]
    have hid := (stored.applyUpdate_id (named order)).trans (hf order.id stored hs)
    refine ⟨⟨_, _, rfl, hr.get?_self, hid, rfl, rfl, rfl, rfl⟩, _, _, ?_, hr⟩
    rw [Request.filing?, hs, Option.map_some]
  | cancel =>
    rcases d.cancel_cases order with hc | ⟨-, hc⟩ | ⟨stored, hp, hs⟩
    · rw [ask, hc] at h
      cases h
    · rw [ask, hc] at h
      cases h
    · obtain ⟨l, hr, hc⟩ := cancel_of_pending hp hs
      rw [ask, hc]
      refine ⟨⟨_, _, rfl, hr.get?_self, hf order.id stored hs, rfl, rfl, rfl, rfl⟩, _, _, ?_, hr⟩
      rw [Request.filing?, hs, Option.map_some]

/-- A desk accepts exactly the right requests, and each as a whole or not at all. After every run,
whatever the models did: a placement is accepted exactly if it is new, under an id of which none was
accepted before, and valid; an update exactly if its id is pending and the stored order can take it;
a cancel exactly if its id is pending. What is turned away leaves the desk and the caller's order as
they were. What is accepted is acknowledged by one event and files one order: the placement with its
identifier and as submitted, the stored order with the update applied or as canceled. -/
theorem run_requests (models : Models α σ) (account : Portfolio α) (memory : σ)
    (actions : List (Action α)) (order : Order α) :
    let start := opening account memory
    let d := start.run models actions
    ((d.ask order .place).accepted = true ↔ order.status = .new ∧
      (∀ other, Accepts models start actions other → other.id ≠ order.id) ∧
      order.validate.isOk = true) ∧
    ((d.ask order .update).accepted = true ↔ d.ledger.isPending order.id = true ∧
      ∃ stored, d.order? order.id = some stored ∧ (stored.validateUpdate order).isOk = true) ∧
    ((d.ask order .cancel).accepted = true ↔ d.ledger.isPending order.id = true) ∧
    (∀ request, (d.ask order request).accepted = false →
      (d.ask order request).desk = d ∧ (d.ask order request).order = order) ∧
    (∀ request, (d.ask order request).accepted = true →
      d.Acknowledged (d.ask order request).desk order.id request.status) ∧
    ∀ request, (d.ask order request).accepted = true →
      ∃ filed pending, request.filing? order (d.order? order.id) = some (filed, pending) ∧
        Ledger.Refiled d.ledger (d.ask order request).desk.ledger order.id filed pending := by
  intro start d
  have hf : d.ledger.WellFiled := run_wellFiled models (opening_wellFiled account memory) actions
  have hb : d.ledger.Backed := run_backed models account memory actions
  refine ⟨?_, ?_, cancel_accepted_iff hb, ?_, fun request h => (ask_accepted hf request h).1,
    fun request h => (ask_accepted hf request h).2⟩
  · rw [ask, place_accepted_iff, accepts_iff, run_order?_eq_none_iff]
  · rw [ask, update_accepted_iff, acceptsUpdate_iff, exists_and_left]
  · intro request h
    rw [ask_of_not_accepted hb request h]
    exact ⟨rfl, rfl⟩

end Desk

end TradingDesk
