import TradingDesk.Proofs.Admission
import TradingDesk.Proofs.Position
import TradingDesk.Proofs.Relog
import TradingDesk.Scalar.Floating
/- Proofs.Calls — calls on different orders commute.

   A call reads the order under its own id, whether that id is pending, and the time,
   and nothing else of the desk (`answer_determined`). It writes under its own id only,
   and its event fills nothing. So two calls on different ids are answered alike in
   either order and leave the same desk, up to the places of their events in the log
   (`call_swap`).

   Nothing reads the log (`run_ignoresLog`). Hence desks that differ in it alone stay
   alike in all that follows, and any number of calls on different ids can be made in any
   order: what comes after publishes the same events (`run_calls_commute`). -/
namespace TradingDesk

variable {α σ : Type}

namespace Desk

/-! ## What a call reads -/

/-- A request with an order. -/
structure Call (α : Type) where
  request : Request
  order : Order α

/-- The id that a call is about. -/
def Call.id (c : Call α) : OrderId := c.order.id

/-- The desks have the same under an id, and the same time. -/
structure ReadsAlike (d d' : Desk α σ) (id : OrderId) : Prop where
  order? : d'.order? id = d.order? id
  isPending : d'.ledger.isPending id = d.ledger.isPending id
  time : d'.time = d.time

/-- The id is pending and has no order, as no run leaves it. -/
structure Unbacked (d : Desk α σ) (id : OrderId) : Prop where
  pending : d.ledger.isPending id = true
  get? : d.ledger.get? id = none

theorem ReadsAlike.refl (d : Desk α σ) (id : OrderId) : d.ReadsAlike d id := ⟨rfl, rfl, rfl⟩

theorem ReadsAlike.trans {d d' d'' : Desk α σ} {id : OrderId} (h : d.ReadsAlike d' id)
    (h' : d'.ReadsAlike d'' id) : d.ReadsAlike d'' id :=
  ⟨h'.order?.trans h.order?, h'.isPending.trans h.isPending, h'.time.trans h.time⟩

theorem ReadsAlike.eventTime {d d' : Desk α σ} {id : OrderId} (h : d.ReadsAlike d' id)
    (order : Order α) : d'.eventTime order = d.eventTime order := by
  rw [Desk.eventTime, Desk.eventTime, h.time]

/-- What an accepted call does: the order it files, and whether that is pending, the event it
publishes, the caller's order after it, and whether it calls for a pass. -/
structure Filing (α : Type) where
  stored : Order α
  pending : Bool
  event : OrderEvent α
  kept : Order α
  wakes : Bool

variable [Scalar α]

def answer (d : Desk α σ) (c : Call α) : Answer α σ := d.ask c.order c.request

/-- What the caller gets back: whether the call was accepted, and the caller's order after it. -/
def reply (d : Desk α σ) (c : Call α) : Bool × Order α :=
  ((d.answer c).accepted, (d.answer c).order)

def call (d : Desk α σ) (c : Call α) : Desk α σ := (d.answer c).desk

def callAll (d : Desk α σ) (calls : List (Call α)) : Desk α σ := calls.foldl call d

/-- The desk accepts the call and does this. -/
def Carries (d : Desk α σ) (c : Call α) (x : Filing α) : Prop :=
  ∃ l, Ledger.Refiled d.ledger l c.id x.stored x.pending ∧
    d.answer c = ⟨true, x.kept, { d.filing l x.event with needsPass := d.needsPass || x.wakes }⟩

def placing (d : Desk α σ) (order : Order α) : Filing α where
  stored := filedOrder order
  pending := true
  event := OrderEvent.of (filedOrder order) (d.eventTime (filedOrder order)) .submitted
  kept := filedOrder order
  wakes := true

def updating (d : Desk α σ) (stored order : Order α) : Filing α where
  stored := stored.applyUpdate (named order)
  pending := true
  event := acknowledgement (stored.applyUpdate (named order)) (d.eventTime order)
  kept := named order
  wakes := true

def canceling (d : Desk α σ) (stored order : Order α) : Filing α where
  stored := { stored with status := .canceled }
  pending := false
  event := OrderEvent.of { stored with status := .canceled } (d.eventTime order) .canceled
  kept := order
  wakes := false

variable {d d' : Desk α σ} {order stored : Order α} {c : Call α} {x : Filing α} {id : OrderId}

theorem place_carries (h : d.accepts order = true) :
    d.Carries ⟨.place, order⟩ (d.placing order) := by
  obtain ⟨l, hr, hp⟩ := place_of_accepts h
  refine ⟨l, hr, ?_⟩
  rw [answer, ask, hp, placing, Bool.or_true]

theorem update_carries (h : d.acceptsUpdate order = true) (hs : d.order? order.id = some stored) :
    d.Carries ⟨.update, order⟩ (d.updating stored order) := by
  obtain ⟨stored', l, -, hs', -, hr, hu⟩ := update_of_accepts h
  obtain rfl := Option.some.inj (hs'.symm.trans hs)
  refine ⟨l, hr, ?_⟩
  rw [answer, ask, hu, updating, Bool.or_true]

theorem cancel_carries (hp : d.ledger.isPending order.id = true)
    (hs : d.order? order.id = some stored) :
    d.Carries ⟨.cancel, order⟩ (d.canceling stored order) := by
  obtain ⟨l, hr, hc⟩ := cancel_of_pending hp hs
  refine ⟨l, hr, ?_⟩
  rw [answer, ask, hc, canceling, Bool.or_false]
  rfl

/-- Desks that have the same under the id of a call all turn it away, or all take off a mark without
an order, or all do the same. -/
theorem answer_determined (d : Desk α σ) (c : Call α) :
    (∀ d', d.ReadsAlike d' c.id → d'.answer c = d'.refuse c.order) ∨
      (d.Unbacked c.id ∧
        ∀ d', d.ReadsAlike d' c.id → d'.answer c = (d'.unmark c.id).refuse c.order) ∨
      ∃ x : Filing α, x.event.fillQuantity = 0 ∧
        (d.ledger.WellFiled → x.stored.id = c.id ∧ x.event.orderId = c.id) ∧
        ∀ d', d.ReadsAlike d' c.id → d'.Carries c x := by
  obtain ⟨request, order⟩ := c
  cases request with
  | place =>
    have haccepts : ∀ d', d.ReadsAlike d' order.id → d'.accepts order = d.accepts order := by
      intro d' h
      rw [Bool.eq_iff_iff, accepts_iff, accepts_iff, h.order?]
    cases hd : d.accepts order with
    | false => exact .inl fun d' h => place_of_not_accepts ((haccepts d' h).trans hd)
    | true =>
      have hid := filedOrder_id order
      refine .inr (.inr ⟨d.placing order, rfl, fun _ => ⟨hid, hid⟩, fun d' h => ?_⟩)
      rw [placing, ← h.eventTime]
      exact place_carries ((haccepts d' h).trans hd)
  | update =>
    have haccepts : ∀ d', d.ReadsAlike d' order.id →
        d'.acceptsUpdate order = d.acceptsUpdate order := by
      intro d' h
      rw [Bool.eq_iff_iff, acceptsUpdate_iff, acceptsUpdate_iff, h.order?, h.isPending]
    cases hd : d.acceptsUpdate order with
    | false => exact .inl fun d' h => update_of_not_accepts ((haccepts d' h).trans hd)
    | true =>
      obtain ⟨stored, -, hs, -⟩ := acceptsUpdate_iff.mp hd
      refine .inr (.inr ⟨d.updating stored order, rfl, fun hf => ?_, fun d' h => ?_⟩)
      · have hid := (stored.applyUpdate_id (named order)).trans (hf order.id stored hs)
        exact ⟨hid, hid⟩
      · rw [updating, ← h.eventTime]
        exact update_carries ((haccepts d' h).trans hd) (h.order?.trans hs)
  | cancel =>
    cases hp : d.ledger.isPending order.id with
    | false => exact .inl fun d' h => cancel_of_not_isPending (h.isPending.trans hp)
    | true =>
      cases hs : d.order? order.id with
      | none =>
        refine .inr (.inl ⟨⟨hp, hs⟩, fun d' h => cancel_of_pendingOrder?_eq_none ?_⟩)
        have hp' : d'.ledger.isPending order.id = true := h.isPending.trans hp
        exact (if_pos hp').trans (h.order?.trans hs)
      | some stored =>
        have hid : d.ledger.WellFiled → stored.id = order.id := fun hf => hf order.id stored hs
        refine .inr (.inr ⟨d.canceling stored order, rfl, fun hf => ⟨hid hf, hid hf⟩,
          fun d' h => ?_⟩)
        rw [canceling, ← h.eventTime]
        exact cancel_carries (h.isPending.trans hp) (h.order?.trans hs)

/-- Where every pending id has an order, a call is turned away as a whole or does what it does on
every such desk. -/
theorem answer_determined_of_backed (hb : d.ledger.Backed) (c : Call α) :
    (∀ d', d.ReadsAlike d' c.id → d'.answer c = d'.refuse c.order) ∨
      ∃ x : Filing α, x.event.fillQuantity = 0 ∧
        (d.ledger.WellFiled → x.stored.id = c.id ∧ x.event.orderId = c.id) ∧
        ∀ d', d.ReadsAlike d' c.id → d'.Carries c x := by
  obtain hrefused | ⟨hunbacked, -⟩ | hcarries := d.answer_determined c
  · exact .inl hrefused
  · exact absurd (hb c.id hunbacked.pending) (by simp [hunbacked.get?])
  · exact .inr hcarries

/-! ## What a call writes -/

/-- The desk with a ledger of its own, and with the event and the wake of a filing. -/
def filed (d : Desk α σ) (l : Ledger α) (x : Filing α) : Desk α σ :=
  { d with ledger := l, log := d.log ++ [x.event], needsPass := d.needsPass || x.wakes }

/-- An accepted call leaves the account as it is, since its event fills nothing. -/
theorem Carries.call (hzero : ¬ (Scalar.tolerance : α) ≤ Scalar.abs 0) (h : d.Carries c x)
    (hfills : x.event.fillQuantity = 0) :
    ∃ l, Ledger.Refiled d.ledger l c.id x.stored x.pending ∧ d.call c = d.filed l x := by
  obtain ⟨l, hr, hanswer⟩ := h
  have hquiet : x.event.isFill = false := by
    rw [OrderEvent.isFill, hfills]
    exact decide_eq_false hzero
  have haccount : d.account.applyFill x.event = d.account := Portfolio.applyFill_of_not_fill hquiet
  refine ⟨l, hr, ?_⟩
  simp only [Desk.call, hanswer, filed, filing, withFloor, Floor.publish_eq, haccount]

/-- A call that is turned away leaves the desk as it is. -/
theorem call_of_refused (h : d.answer c = d.refuse c.order) : d.call c = d := by
  rw [call, h]
  rfl

/-- What a call leaves is well filed, and every pending id has an order. -/
theorem call_kept (hf : d.ledger.WellFiled) (hb : d.ledger.Backed) (c : Call α) :
    (d.call c).ledger.WellFiled ∧ (d.call c).ledger.Backed := by
  obtain hrefused | ⟨x, -, hids, hx⟩ := answer_determined_of_backed hb c
  · rw [call_of_refused (hrefused d (.refl d _))]
    exact ⟨hf, hb⟩
  · obtain ⟨l, hr, hanswer⟩ := hx d (.refl d _)
    rw [call, hanswer]
    exact ⟨hr.wellFiled hf (hids hf).1, hr.backed hb⟩

/-- A call leaves the other ids alone. -/
theorem call_readsAlike (d : Desk α σ) (hid : id ≠ c.id) : d.ReadsAlike (d.call c) id := by
  obtain hrefused | ⟨-, hunmarked⟩ | ⟨x, -, -, hx⟩ := d.answer_determined c
  · rw [call_of_refused (hrefused d (.refl d _))]
    exact .refl d id
  · rw [call, hunmarked d (.refl d _)]
    exact ⟨rfl, (Ledger.isPending_dropPending d.ledger c.id id).trans (if_neg hid), rfl⟩
  · obtain ⟨l, hr, hanswer⟩ := hx d (.refl d _)
    rw [call, hanswer]
    exact ⟨hr.get?_of_ne hid, hr.isPending_of_ne hid, rfl⟩

/-! ## Calls and the log -/

theorem call_ignoresLog (c : Call α) : IgnoresLog fun d : Desk α σ => d.call c := by
  intro d
  have halike : ∀ log, d.ReadsAlike (d.relog log) c.id := fun log => ⟨rfl, rfl, rfl⟩
  obtain hrefused | ⟨-, hunmarked⟩ | ⟨x, -, -, hx⟩ := d.answer_determined c
  · refine ⟨d, [], fun log => ?_⟩
    rw [List.append_nil]
    exact call_of_refused (hrefused _ (halike log))
  · refine ⟨d.unmark c.id, [], fun log => ?_⟩
    show ((d.relog log).answer c).desk = _
    rw [List.append_nil, hunmarked _ (halike log)]
    rfl
  · obtain ⟨l, hr, -⟩ := hx d (.refl d _)
    refine ⟨{ d.filing l x.event with needsPass := d.needsPass || x.wakes }, [x.event],
      fun log => ?_⟩
    obtain ⟨l', hr', hanswer⟩ := hx _ (halike log)
    obtain rfl := hr.unique hr'
    show ((d.relog log).answer c).desk = _
    rw [hanswer]
    rfl

theorem step_ignoresLog (models : Models α σ) (a : Action α) :
    IgnoresLog fun d : Desk α σ => d.step models a := by
  cases a with
  | place order => exact call_ignoresLog ⟨.place, order⟩
  | update order => exact call_ignoresLog ⟨.update, order⟩
  | cancel order => exact call_ignoresLog ⟨.cancel, order⟩
  | scan now => exact scan_ignoresLog models now
  | showSnapshot s => exact .of_relog fun _ _ => rfl
  | untrack symbol => exact .of_relog fun _ _ => rfl
  | mark symbol price => exact .of_relog fun _ _ => rfl

/-- A run reads nothing of the log it starts with. -/
theorem run_ignoresLog (models : Models α σ) (actions : List (Action α)) :
    IgnoresLog fun d : Desk α σ => d.run models actions := by
  induction actions with
  | nil => exact .of_relog fun _ _ => rfl
  | cons a actions ih => exact (step_ignoresLog models a).comp ih

/-! ## Calls in any order -/

/-- Calls on different ids can be made in either order. -/
theorem call_swap (hzero : ¬ (Scalar.tolerance : α) ≤ Scalar.abs 0) (hf : d.ledger.WellFiled)
    (hb : d.ledger.Backed) {a b : Call α} (hab : a.id ≠ b.id) :
    Agrees ((d.call a).call b) ((d.call b).call a) := by
  have hafter : d.ReadsAlike (d.call b) a.id := d.call_readsAlike hab
  have hafter' : d.ReadsAlike (d.call a) b.id := d.call_readsAlike hab.symm
  obtain hrefused | ⟨x, hxfills, hxids, hx⟩ := answer_determined_of_backed hb a
  · rw [call_of_refused (hrefused d (.refl d _)), call_of_refused (hrefused _ hafter)]
    exact .refl _
  obtain hrefused | ⟨y, hyfills, hyids, hy⟩ := answer_determined_of_backed hb b
  · rw [call_of_refused (hrefused d (.refl d _)), call_of_refused (hrefused _ hafter')]
    exact .refl _
  -- both are accepted: the ledgers are one, and the events of one order are where they were
  obtain ⟨la, hra, hda⟩ := (hx d (.refl d _)).call hzero hxfills
  obtain ⟨lb, hrb, hdb⟩ := (hy d (.refl d _)).call hzero hyfills
  obtain ⟨lab, hrab, hdab⟩ := (hy _ hafter').call hzero hyfills
  obtain ⟨lba, hrba, hdba⟩ := (hx _ hafter).call hzero hxfills
  rw [hda] at hrab
  rw [hdb] at hrba
  obtain rfl := Ledger.Refiled.swap hab hra hrab hrb hrba
  rw [hdab, hdba, hda, hdb]
  constructor
  · simp only [filed, relog, Bool.or_right_comm]
  · intro id
    rw [eventsOf_eq, eventsOf_eq]
    refine Interleaves.append_swap d.log (fun i hi j hj => ?_) id
    rw [List.mem_singleton.mp hi, List.mem_singleton.mp hj, (hxids hf).2, (hyids hf).2]
    exact hab.symm

/-- Calls with different ids change places, and nothing is left to see of it but the log. -/
theorem calls_commuting (hzero : ¬ (Scalar.tolerance : α) ≤ Scalar.abs 0) :
    Commuting Call.id (call (α := α) (σ := σ))
      (fun d => d.ledger.WellFiled ∧ d.ledger.Backed) Agrees where
  refl d := .refl d
  trans _ _ _ h h' := h.trans h'
  congr _ _ c h := ((call_ignoresLog c).agrees h).1
  keeps _ c h := call_kept h.1 h.2 c
  swap _ _ _ h hab := call_swap hzero h.1 h.2 hab

/-- Calls on other ids leave the answer to a call as it is. -/
theorem ReadsAlike.reply (h : d.ReadsAlike d' c.id) : d'.reply c = d.reply c := by
  obtain hrefused | ⟨-, hunmarked⟩ | ⟨x, -, -, hx⟩ := d.answer_determined c
  · rw [Desk.reply, Desk.reply, hrefused d (.refl d _), hrefused d' h]
    rfl
  · rw [Desk.reply, Desk.reply, hunmarked d (.refl d _), hunmarked d' h]
    rfl
  · obtain ⟨l, -, hl⟩ := hx d (.refl d _)
    obtain ⟨l', -, hl'⟩ := hx d' h
    rw [Desk.reply, Desk.reply, hl, hl']

theorem callAll_readsAlike (d : Desk α σ) {calls : List (Call α)} (h : ∀ c ∈ calls, c.id ≠ id) :
    d.ReadsAlike (d.callAll calls) id := by
  induction calls generalizing d with
  | nil => exact .refl d id
  | cons c calls ih =>
    have hfirst : d.ReadsAlike (d.call c) id :=
      d.call_readsAlike (h c List.mem_cons_self).symm
    exact hfirst.trans (ih (d.call c) fun b hb => h b (List.mem_cons_of_mem _ hb))

/-- Calls on different orders commute. On every desk that a run can lead to, two calls on different
ids are answered alike in either order, and leave the same desk: its orders and what is pending, its
account, its time and whether it needs a pass are the same, and so are the events of each order. Of
any number of calls on pairwise different ids, each is answered in every order as if it were the
only one, and whatever is done afterwards, under any models, publishes the same events and leaves
the same desk again. -/
theorem run_calls_commute (hzero : ¬ (Scalar.tolerance : α) ≤ Scalar.abs 0) (models : Models α σ)
    (account : Portfolio α) (memory : σ) (actions : List (Action α)) :
    let d := (opening account memory).run models actions
    (∀ a b : Call α, a.id ≠ b.id →
      (d.call b).reply a = d.reply a ∧ (d.call a).reply b = d.reply b ∧
        Agrees ((d.call a).call b) ((d.call b).call a)) ∧
    ∀ calls calls' : List (Call α), calls.Perm calls' → (calls.map Call.id).Nodup →
      (∀ earlier c later, calls' = earlier ++ c :: later →
        (d.callAll earlier).reply c = d.reply c) ∧
      Agrees (d.callAll calls) (d.callAll calls') ∧
      ∀ (models' : Models α σ) (next : List (Action α)),
        Agrees ((d.callAll calls).run models' next) ((d.callAll calls').run models' next) ∧
        ∃ published,
          ((d.callAll calls).run models' next).log = (d.callAll calls).log ++ published ∧
          ((d.callAll calls').run models' next).log = (d.callAll calls').log ++ published := by
  intro d
  have hf : d.ledger.WellFiled := run_wellFiled models (opening_wellFiled account memory) actions
  have hb : d.ledger.Backed := run_backed models account memory actions
  constructor
  · intro a b hab
    exact ⟨(d.call_readsAlike hab).reply, (d.call_readsAlike hab.symm).reply,
      call_swap hzero hf hb hab⟩
  · intro calls calls' hperm hids
    have hagrees : Agrees (d.callAll calls) (d.callAll calls') :=
      (calls_commuting hzero).foldl_interleaves (.of_perm hperm hids) ⟨hf, hb⟩
    refine ⟨?_, hagrees, fun models' next => (run_ignoresLog models' next).agrees hagrees⟩
    rintro earlier c later rfl
    have hdistinct : ((earlier ++ c :: later).map Call.id).Nodup :=
      (hperm.map Call.id).nodup_iff.mp hids
    rw [List.map_append, List.map_cons, List.nodup_append] at hdistinct
    refine (d.callAll_readsAlike fun b hb => ?_).reply
    exact hdistinct.2.2 _ (List.mem_map_of_mem hb) _ List.mem_cons_self

/-- Four calls, forth and back: a placement, a limit raised to the market, the cancel of an order
that is filled, which is turned away, and the cancel of one that is not. The pass after them fills
the same two orders. -/
theorem run_calls_commute_of_four_calls :
    let models : Models Float (Usage Float) := Config.default.models Table.empty
    let order (id : OrderId) (kind : OrderKind Float) : Order Float :=
      { id := id, symbol := "SPY", quantity := 1, kind := kind, time := ⟨0⟩, filled := 0 }
    let actions : List (Action Float) :=
      [.showSnapshot (Snapshot.ofBar "SPY" (Bar.flat ⟨60⟩ 100 50)), .place (order 1 .market),
        .place (order 2 (.limit 90)), .place (order 3 (.limit 90)), .scan ⟨60⟩]
    let d := (opening (Portfolio.ofCash "USD" 1000) Table.empty).run models actions
    let raise : Call Float := ⟨.update, order 2 (.limit 105)⟩
    let drop : Call Float := ⟨.cancel, order 3 (.limit 90)⟩
    let calls := [⟨.place, order 4 .market⟩, raise, ⟨.cancel, order 1 .market⟩, drop]
    let forth := d.callAll calls
    let back := d.callAll calls.reverse
    let published (e : Desk Float (Usage Float)) (after : Nat) :=
      (e.log.drop after).map fun event => (event.orderId, event.status)
    ¬ (Scalar.tolerance : Float) ≤ Scalar.abs 0 ∧ raise.id ≠ drop.id ∧
      calls.Perm calls.reverse ∧ (calls.map Call.id).Nodup ∧
      calls.map (fun c => (d.reply c).1) = [true, true, false, true] ∧
      published forth 4 = [(4, .submitted), (2, .submitted), (3, .canceled)] ∧
      published back 4 = [(3, .canceled), (2, .submitted), (4, .submitted)] ∧
      published (forth.scan models ⟨120⟩) 7 = [(2, .filled), (4, .filled)] ∧
      (d.call drop).reply raise = d.reply raise ∧
      Agrees ((d.call raise).call drop) ((d.call drop).call raise) ∧
      Agrees (forth.run models [.scan ⟨120⟩]) (back.run models [.scan ⟨120⟩]) := by
  intro models order actions d raise drop calls forth back published
  have hzero : ¬ (Scalar.tolerance : Float) ≤ Scalar.abs 0 := by decide
  have hids : raise.id ≠ drop.id := by decide
  have hperm : calls.Perm calls.reverse := (List.reverse_perm calls).symm
  have hdistinct : (calls.map Call.id).Nodup := by decide
  obtain ⟨htwo, hmany⟩ :=
    run_calls_commute hzero models (Portfolio.ofCash "USD" 1000) Table.empty actions
  obtain ⟨hreply, -, hagrees⟩ := htwo raise drop hids
  obtain ⟨-, -, hnext⟩ := hmany calls calls.reverse hperm hdistinct
  exact ⟨hzero, hids, hperm, hdistinct, by decide +kernel, by decide +kernel, by decide +kernel,
    by decide +kernel, hreply, hagrees, (hnext models _).1⟩

end Desk

end TradingDesk
