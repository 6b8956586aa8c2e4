import TradingDesk.Proofs.Lifecycle
import TradingDesk.Proofs.Looks
/- Proofs.StopLimit — a stop-limit order over a whole run.

   `stopLimitFill?` says when and at what price a stop-limit order fills over the looks that
   put it to the fill rules: at the first look that reaches the stop, if the price of the gap
   is within the limit, or else at the first later look that crosses the limit, wherever the
   price is then. Over every run that does not update the order, it fills there and nowhere
   else, and its stop is marked as reached from that first look on (`run_stopLimit_fills`). -/
namespace TradingDesk

variable {α : Type} [Scalar α]

/-! ## When a stop-limit order fills -/

namespace FillLook

variable (look : FillLook α) (isBuy : Bool)

/-- The open and the extremes that the look sees: those of the bar, or the ask or the bid when there
is no bar. -/
def range : TradingRange α :=
  match look.security.bar with
  | some bar => ⟨bar.opening, bar.low, bar.high⟩
  | none =>
    let price := if isBuy then look.security.askPrice else look.security.bidPrice
    ⟨price, price, price⟩

/-- Whether the look reaches the stop. -/
def reaches (stop : α) : Bool :=
  if isBuy then decide (stop ≤ (look.range isBuy).high)
  else decide ((look.range isBuy).low ≤ stop)

/-- The price of the gap at a stop: the stop, or an open beyond it. -/
def gapPrice (stop : α) : α :=
  if isBuy then Scalar.max (look.range isBuy).opening stop
  else Scalar.min (look.range isBuy).opening stop

/-- Whether the look crosses the limit. -/
def crosses (limit : α) : Bool :=
  if isBuy then decide ((look.range isBuy).low ≤ limit)
  else decide (limit ≤ (look.range isBuy).high)

/-- The price at a limit that is crossed: the limit, or a better open. -/
def crossPrice (limit : α) : α :=
  if isBuy then Scalar.min (look.range isBuy).opening limit
  else Scalar.max (look.range isBuy).opening limit

/-- The fill of an order whose stop is reached, as for a limit order. -/
def limitFill? (limit : α) : Option (Instant × α) :=
  if look.crosses isBuy limit then some (look.time, look.crossPrice isBuy limit) else none

end FillLook

/-- When and at what price a stop-limit order fills over looks that put it to the fill rules. -/
def stopLimitFill? (isBuy : Bool) (stop limit : α) (looks : List (FillLook α)) :
    Option (Instant × α) :=
  match looks.dropWhile fun look => !look.reaches isBuy stop with
  | [] => none
  | trigger :: later =>
    if withinLimit isBuy (trigger.gapPrice isBuy stop) limit then
      some (trigger.time, trigger.gapPrice isBuy stop)
    else later.findSome? fun look => look.limitFill? isBuy limit

/-- Whether one of the looks reaches the stop. -/
def stopReached (isBuy : Bool) (stop : α) (looks : List (FillLook α)) : Bool :=
  looks.any fun look => look.reaches isBuy stop

variable {isBuy : Bool} {stop limit : α} {looks : List (FillLook α)}

/-- A look reaches the stop exactly if looks are left after those that do not. -/
theorem stopReached_eq_not_isEmpty : stopReached isBuy stop looks =
    !(looks.dropWhile fun look => !look.reaches isBuy stop).isEmpty := by
  induction looks with
  | nil => rfl
  | cons look looks ih =>
    rw [stopReached, List.any_cons, List.dropWhile_cons]
    cases look.reaches isBuy stop with
    | true => rfl
    | false => exact ih

/-- One look more, after looks that did not fill the order. -/
theorem stopLimitFill?_concat (look : FillLook α)
    (h : stopLimitFill? isBuy stop limit looks = none) :
    stopLimitFill? isBuy stop limit (looks ++ [look]) =
      if stopReached isBuy stop looks then look.limitFill? isBuy limit
      else if look.reaches isBuy stop && withinLimit isBuy (look.gapPrice isBuy stop) limit then
        some (look.time, look.gapPrice isBuy stop)
      else none := by
  unfold stopLimitFill? at h ⊢
  rw [List.dropWhile_append, stopReached_eq_not_isEmpty]
  cases hdrop : looks.dropWhile fun look => !look.reaches isBuy stop with
  | nil =>
    simp only [List.isEmpty_nil, if_true, Bool.not_true, Bool.false_eq_true, if_false]
    rw [List.dropWhile_cons]
    cases look.reaches isBuy stop with
    | false => rfl
    | true => cases hgap : withinLimit isBuy (look.gapPrice isBuy stop) limit <;> simp [hgap]
  | cons trigger later =>
    rw [hdrop] at h
    simp only [List.isEmpty_cons, Bool.false_eq_true, if_false, Bool.not_false, if_true,
      List.cons_append]
    cases hgap : withinLimit isBuy (trigger.gapPrice isBuy stop) limit with
    | true => simp [hgap] at h
    | false =>
      simp only [hgap, Bool.false_eq_true, if_false] at h ⊢
      rw [List.findSome?_append, h, Option.none_or]
      exact List.findSome?_singleton

/-! ## The rule for one look -/

section Rule

variable {security : Snapshot α} {now : Instant} {o : Order α}

theorem FillLook.range_eq : (⟨security, now⟩ : FillLook α).range isBuy = security.range isBuy := by
  unfold FillLook.range Snapshot.range Snapshot.touch
  cases security.bar <;> rfl

theorem FillLook.reaches_eq :
    (⟨security, now⟩ : FillLook α).reaches isBuy stop = security.reachesStop isBuy stop := by
  rw [reaches, range_eq]
  rfl

theorem FillLook.gapPrice_eq :
    (⟨security, now⟩ : FillLook α).gapPrice isBuy stop = security.stopCross isBuy stop := by
  rw [gapPrice, range_eq]
  rfl

theorem FillLook.limitCross?_eq (now : Instant) : security.limitCross? isBuy limit =
    if (⟨security, now⟩ : FillLook α).crosses isBuy limit then
      some ((⟨security, now⟩ : FillLook α).crossPrice isBuy limit)
    else none := by
  rw [crosses, crossPrice, range_eq, Snapshot.limitCross?]
  cases isBuy <;> simp

theorem FillLook.limitFill?_eq : (⟨security, now⟩ : FillLook α).limitFill? isBuy limit =
    (security.limitCross? isBuy limit).map (now, ·) := by
  rw [limitFill?, limitCross?_eq now]
  split <;> rfl

/-- What one look more comes to is the price at which the rules fill the order. -/
theorem stopLimitFill?_look (c : FillConfig α) (security : Snapshot α) (now : Instant)
    (hkind : o.kind = .stopLimit stop limit (stopReached o.isBuy stop looks))
    (h : stopLimitFill? o.isBuy stop limit looks = none) :
    stopLimitFill? o.isBuy stop limit (looks ++ [⟨security, now⟩]) =
      (c.price? security o).map (now, ·) := by
  rw [stopLimitFill?_concat _ h, FillLook.limitFill?_eq, FillLook.reaches_eq,
    FillLook.gapPrice_eq]
  simp only [FillConfig.price?, hkind]
  cases stopReached o.isBuy stop looks with
  | true => rfl
  | false =>
    cases security.reachesStop o.isBuy stop with
    | false => rfl
    | true =>
      simp only [Bool.false_eq_true, if_false, if_true, Bool.true_and, FillConfig.triggerPrice?]
      split <;> rfl

/-- The mark of the stop after one look more. -/
theorem trigger_look (hkind : o.kind = .stopLimit stop limit (stopReached o.isBuy stop looks)) :
    o.kind.trigger (FillConfig.reachesStopOf security o) =
      .stopLimit stop limit (stopReached o.isBuy stop (looks ++ [⟨security, now⟩])) := by
  have hlater : stopReached o.isBuy stop (looks ++ [⟨security, now⟩]) =
      (stopReached o.isBuy stop looks || security.reachesStop o.isBuy stop) := by
    simp [stopReached, FillLook.reaches_eq]
  rw [FillConfig.reachesStopOf, hkind, hlater]
  rfl

end Rule

/-! ## What a run keeps -/

theorem Order.isBuy_congr {o o' : Order α} (h : o.quantity = o'.quantity) : o.isBuy = o'.isBuy := by
  rw [isBuy, isBuy, direction, direction, h]

/-- What an event reports of a fill. -/
def OrderEvent.fillReport (e : OrderEvent α) : Instant × α × α × OrderStatus :=
  (e.time, e.fillPrice, e.fillQuantity, e.status)

/-- The docket of a stop-limit order that was filled in whole where its looks fill it, with the stop
marked as reached if one of them reaches it, and that is open only if none of them fills it. -/
structure Docket.FollowsStop (request : Order α) (stop limit : α) (looks : List (FillLook α))
    (k : Docket α) : Prop where
  stored : ∃ o, k.order = some o ∧ o.quantity = request.quantity ∧
    o.kind = .stopLimit stop limit (stopReached request.isBuy stop looks) ∧
    (o.status.isTerminal = false →
      o.filled = 0 ∧ stopLimitFill? request.isBuy stop limit looks = none)
  fills : (k.events.filter OrderEvent.isFill).map OrderEvent.fillReport =
    (stopLimitFill? request.isBuy stop limit looks).toList.map fun fill =>
      (fill.1, fill.2, request.quantity, .filled)

namespace Docket.FollowsStop

variable {request o : Order α} {k k' : Docket α} {c : FillConfig α} {now : Instant}

/-- An order that is closed without a fill goes on following its looks. -/
theorem closed (h : k.FollowsStop request stop limit looks) (ho : k.order = some o)
    {closed : Order α} {pending : Bool} {event : OrderEvent α}
    (hquantity : closed.quantity = o.quantity) (hkind : closed.kind = o.kind)
    (hs : closed.status.isTerminal = true) (hfill : event.isFill = false) :
    FollowsStop request stop limit looks ⟨some closed, pending, k.events ++ [event]⟩ where
  stored := by
    obtain ⟨o', ho', hq, hk, -⟩ := h.stored
    obtain rfl := Option.some.inj (ho.symm.trans ho')
    refine ⟨closed, rfl, hquantity.trans hq, hkind.trans hk, fun hopen => ?_⟩
    rw [hs] at hopen
    cases hopen
  fills := by
    rw [List.filter_append, List.filter_cons_of_neg (Bool.not_eq_true _ ▸ hfill), List.filter_nil,
      List.append_nil]
    exact h.fills

/-- What the look of a pass makes of the order follows the looks with that look, if it is one. -/
theorem looked (laws : Scalar.FiniteLaws α) (h : k.FollowsStop request stop limit looks)
    (ho : k.order = some o) (hopen : o.status.isTerminal = false) (fresh : o.Fresh)
    {security? : Option (Snapshot α)} (hlook : Looked c o now k k' security?) :
    k'.FollowsStop request stop limit
      (looks ++ (security?.map fun security => (⟨security, now⟩ : FillLook α)).toList) := by
  obtain ⟨o', ho', hq, hk, hunfilled⟩ := h.stored
  obtain rfl := Option.some.inj (ho.symm.trans ho')
  obtain ⟨hzero, hnone⟩ := hunfilled hopen
  have hside : o.isBuy = request.isBuy := Order.isBuy_congr hq
  cases hlook with
  | held => simpa using h
  | closed hs hfill =>
    simp only [Option.map_none, Option.toList_none, List.append_nil]
    exact h.closed ho rfl rfl hs hfill
  | @passed security hprice =>
    have hlater := stopLimitFill?_look c security now (hside ▸ hk) (hside ▸ hnone)
    rw [hprice, Option.map_none, hside] at hlater
    refine ⟨⟨_, rfl, hq, hside ▸ trigger_look (hside ▸ hk), fun _ => ⟨hzero, hlater⟩⟩, ?_⟩
    rw [Option.map_some, Option.toList_some, hlater, ← hnone]
    exact h.fills
  | @filled security price event hprice htime hat hquantity hs =>
    have hlater := stopLimitFill?_look c security now (hside ▸ hk) (hside ▸ hnone)
    rw [hprice, Option.map_some, hside] at hlater
    have hfill : event.isFill = true := by
      rw [OrderEvent.isFill, hquantity]
      exact decide_eq_true (laws.tolerance_le _ fresh.finite fresh.counts)
    have hfills := h.fills
    rw [hnone] at hfills
    refine ⟨⟨_, rfl, hq, hside ▸ trigger_look (hside ▸ hk), fun hopen' => ?_⟩, ?_⟩
    · have hstatus : event.status.isTerminal = false := hopen'
      rw [hs] at hstatus
      cases hstatus
    · rw [Option.map_some, Option.toList_some, hlater, List.filter_append, List.map_append, hfills,
        List.filter_cons_of_pos hfill]
      simp [OrderEvent.fillReport, htime, hat, hquantity, hs, hq]

end Docket.FollowsStop

namespace Desk

variable {c : Config α} {overrides : Table String (FeePlan α)} {d : Desk α (Usage α)}
  {request : Order α} {a : Action α}

theorem step_followsStop (laws : Scalar.FiniteLaws α) (hc : c.fill.participation = none)
    (orderly : d.ledger.Orderly) (sound : (d.docket request.id).Sound request.id)
    (fresh : request.Fresh)
    (h : (d.docket request.id).FollowsStop request stop limit looks)
    (hnever : ∀ update, a = .update update → update.id = request.id →
      (d.update update).accepted = false) :
    ((d.step (c.models overrides) a).docket request.id).FollowsStop request stop limit
      (looks ++ (d.fillLook? (c.models overrides) request.id a).toList) := by
  obtain ⟨o, ho, hq, -, hunfilled⟩ := h.stored
  cases hterm : o.status.isTerminal with
  | true =>
    -- an order that is done stays as it is, and no scan looks at it
    have hsame : (d.step (c.models overrides) a).docket request.id = d.docket request.id :=
      run_docket_of_closed orderly.wellFiled sound ho hterm [a]
    have hp : d.ledger.isPending request.id = false := by
      have hpending := sound.pending_eq o ho
      rwa [hterm] at hpending
    have hlook : d.fillLook? (c.models overrides) request.id a = none := by
      cases a with
      | scan now =>
        rw [fillLook?, fillStage?_of_not_pending orderly.wellFiled
          c.models_followsRules.keepsToOrder hp]
        rfl
      | _ => rfl
    rw [hsame, hlook]
    simpa using h
  | false =>
    by_cases hscan : ∃ now, a = .scan now
    · obtain ⟨now, rfl⟩ := hscan
      have hfresh : o.Fresh := ⟨(hunfilled hterm).1, hq ▸ fresh.finite, hq ▸ fresh.counts⟩
      exact h.looked laws ho hterm hfresh
        (scan_looked laws hc orderly ho hterm hfresh now)
    · have hlook : d.fillLook? (c.models overrides) request.id a = none := by
        cases a with
        | scan now => exact absurd ⟨now, rfl⟩ hscan
        | _ => rfl
      rw [hlook, Option.toList_none, List.append_nil]
      obtain hsame | ⟨time, hcanceled⟩ := request_docket (c.models overrides)
        orderly.wellFiled ho (fun now ha => hscan ⟨now, ha⟩) hnever
      · rw [hsame]
        exact h
      · rw [hcanceled]
        exact h.closed ho rfl rfl rfl (decide_eq_false laws.zero_lt)

/-- A stop-limit order that is placed follows its looks, of which there are none yet. -/
theorem place_followsStop {d : Desk α (Usage α)} (hzero : ¬ (Scalar.tolerance : α) ≤ Scalar.abs 0)
    (sound : (d.docket request.id).Sound request.id)
    (hkind : request.kind = .stopLimit stop limit false) (hfilled : request.filled = 0)
    (haccepted : (d.place request).accepted = true) :
    ((d.place request).desk.docket request.id).FollowsStop request stop limit [] := by
  have haccepts := place_accepted_iff.mp haccepted
  obtain ⟨l, hr, hp⟩ := place_of_accepts haccepts
  obtain ⟨-, hfree, -⟩ := accepts_iff.mp haccepts
  have hnone : eventsOf d.log request.id = [] := (sound.absent hfree).2
  have hdocket : (d.place request).desk.docket request.id = ⟨some (filedOrder request), true,
      eventsOf d.log request.id ++
        [OrderEvent.of (filedOrder request) (d.eventTime (filedOrder request)) .submitted]⟩ := by
    rw [hp]
    exact Floor.docket_published (f := d.toFloor) hr rfl (filedOrder_id request)
  rw [hdocket, hnone, List.nil_append]
  refine ⟨⟨filedOrder request, rfl, filedOrder_quantity request, ?_, fun _ => ⟨?_, rfl⟩⟩, ?_⟩
  · exact (filedOrder_kind request).trans hkind
  · exact (filedOrder_filled request).trans hfilled
  · rw [List.filter_cons_of_neg (Bool.not_eq_true _ ▸ decide_eq_false hzero)]
    rfl

/-- A stop-limit order over a whole run. Under the built-in models without a cap on participation, a
stop-limit order that is placed with its stop not reached and nothing filled, and never updated,
fills where the looks that put it to the fill rules fill it, in whole, and nowhere else; and its
stop is marked as reached exactly if one of these looks reaches it. -/
theorem run_stopLimit_fills (laws : Scalar.FiniteLaws α) (c : Config α)
    (hc : c.fill.participation = none) (overrides : Table String (FeePlan α))
    (account : Portfolio α) (memory : Usage α) (earlier : List (Action α)) (request : Order α)
    (stop limit : α) (hkind : request.kind = .stopLimit stop limit false)
    (hfilled : request.filled = 0)
    (haccepted : (((opening account memory).run (c.models overrides) earlier).place
      request).accepted = true)
    (later : List (Action α))
    (hnever : ∀ before update after, later = before ++ .update update :: after →
      update.id = request.id →
      (((opening account memory).run (c.models overrides)
        (earlier ++ .place request :: before)).update update).accepted = false) :
    let models := c.models overrides
    let placed := (opening account memory).run models (earlier ++ [.place request])
    let d := placed.run models later
    let looks := placed.fillLooks models request.id later
    (∃ stored, d.order? request.id = some stored ∧
      stored.kind = .stopLimit stop limit (stopReached request.isBuy stop looks)) ∧
    ((eventsOf d.log request.id).filter OrderEvent.isFill).map OrderEvent.fillReport =
      (stopLimitFill? request.isBuy stop limit looks).toList.map fun fill =>
        (fill.1, fill.2, request.quantity, .filled) := by
  intro models placed
  have fresh : request.Fresh :=
    Order.fresh_of_validate (accepts_iff.mp (place_accepted_iff.mp haccepted)).2.2 hfilled
  have hplaced : placed = (((opening account memory).run models earlier).place request).desk := by
    rw [show placed = _ from run_append models _ earlier [.place request]]
    rfl
  have hrun : ∀ later, placed.run models later =
      (opening account memory).run models (earlier ++ .place request :: later) := by
    intro later
    rw [show placed.run models later = _ from (run_append models _ _ later).symm,
      List.append_assoc]
    rfl
  have hfollows : ((placed.run models later).docket request.id).FollowsStop request stop limit
      (placed.fillLooks models request.id later) := by
    induction later using List.reverseRecOn with
    | nil =>
      show (placed.docket request.id).FollowsStop request stop limit []
      rw [hplaced]
      exact place_followsStop laws.zero_lt (run_sound models account memory earlier request.id)
        hkind hfilled haccepted
    | append_singleton later a ih =>
      have hlater := ih fun before update after hsplit =>
        hnever before update (after ++ [a]) (by rw [hsplit, List.append_assoc]; rfl)
      rw [fillLooks_concat, run_append]
      refine step_followsStop laws hc ?_ ?_ fresh hlater ?_
      · rw [hrun]
        exact run_orderly models account memory _
      · rw [hrun]
        exact run_sound models account memory _ request.id
      · rintro update rfl hid
        rw [hrun]
        exact hnever later update [] rfl hid
  obtain ⟨stored, hs, -, hstop, -⟩ := hfollows.stored
  exact ⟨⟨stored, hs, hstop⟩, hfollows.fills⟩

/-- A buy whose stop is passed by a gap above its limit. The market falls back below the stop, and
the order fills once a bar opens within the limit; a quote alone, above the limit, did not fill
it. The laws hold of exact numbers as of floating-point ones, in which the prices here are
rounded. -/
theorem run_stopLimit_fills_of_gap :
    let c : Config Float := Config.default
    let models := c.models Table.empty
    let bar (time : Int) (opening high low : Float) : Snapshot Float :=
      Snapshot.ofBar "SPY" ⟨⟨time⟩, opening, high, low, opening, 50⟩
    let buy : Order Float :=
      { id := 1, symbol := "SPY", quantity := 0.3, kind := .stopLimit 105.1 104.2 false
        time := ⟨0⟩, filled := 0 }
    let later : List (Action Float) :=
      [.showSnapshot (bar 60 100.3 103.7 99.9), .scan ⟨60⟩,
        .showSnapshot (bar 120 106.3 107.7 105.9), .scan ⟨120⟩,
        .showSnapshot (Snapshot.ofPrice "SPY" ⟨180⟩ 105.3), .scan ⟨180⟩,
        .showSnapshot (bar 240 103.3 104.7 101.9), .scan ⟨240⟩, .scan ⟨300⟩]
    let start := opening (Portfolio.ofCash "USD" 100000) (Table.empty : Usage Float)
    let placed := start.run models [.place buy]
    let looks := placed.fillLooks models 1 later
    Scalar.FiniteLaws Rat ∧ Scalar.FiniteLaws Float ∧ c.fill.participation = none ∧
      (start.place buy).accepted = true ∧
      looks.map FillLook.time = [⟨60⟩, ⟨120⟩, ⟨180⟩, ⟨240⟩] ∧
      looks.map (fun look => look.reaches true 105.1) = [false, true, true, false] ∧
      (∃ stored, (placed.run models later).order? 1 = some stored ∧
        stored.kind = .stopLimit 105.1 104.2 true) ∧
      ((eventsOf (placed.run models later).log 1).filter OrderEvent.isFill).map
        OrderEvent.fillReport = [(⟨240⟩, 103.3, 0.3, .filled)] := by
  intro c models bar buy later start placed looks
  have hc : c.fill.participation = none := rfl
  have haccepted : (start.place buy).accepted = true := by decide +kernel
  have hnever : ∀ before update after, later = before ++ .update update :: after →
      update.id = buy.id →
      ((start.run models ([] ++ .place buy :: before)).update update).accepted = false := by
    intro before update after hsplit
    have hmem : Action.update update ∈ later := by
      rw [hsplit]
      exact List.mem_append_right _ List.mem_cons_self
    simp [later] at hmem
  obtain ⟨hstored, hfills⟩ := run_stopLimit_fills Scalar.finiteLaws_float c hc Table.empty
    (Portfolio.ofCash "USD" 100000) Table.empty [] buy 105.1 104.2 rfl rfl haccepted later hnever
  have hreached : stopReached true 105.1 looks = true := by decide +kernel
  have hfill : stopLimitFill? true 105.1 104.2 looks = some (⟨240⟩, 103.3) := by decide +kernel
  have hside : buy.isBuy = true := by decide +kernel
  refine ⟨Scalar.finiteLaws_rat, Scalar.finiteLaws_float, hc, haccepted, by decide +kernel,
    by decide +kernel, ?_, ?_⟩
  · rw [hside] at hstored
    obtain ⟨stored, hs, hkind⟩ := hstored
    exact ⟨stored, hs, hkind.trans (congrArg (OrderKind.stopLimit 105.1 104.2) hreached)⟩
  · rw [hside] at hfills
    change _ = (stopLimitFill? true 105.1 104.2 looks).toList.map _ at hfills
    rw [hfill] at hfills
    exact hfills

end Desk

end TradingDesk
