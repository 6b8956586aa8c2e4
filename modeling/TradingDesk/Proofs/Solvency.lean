import TradingDesk.Proofs.Buying
/- Proofs.Solvency — when a cash account that only buys is overdrawn.

   The cash of an account is what its log has left of it (`Solvent.cash_eq`), and a
   look at an order takes from it only when the fill model answers with a fill
   (`visit_account_cases`). Under the built-in models such a fill is funded, so it is
   paid from the cash unless it trades above the reference price. Limits never do:
   a cash account that buys with limits is never overdrawn, whatever its positions are
   marked at and whatever its earlier fills left (`run_cash_nonneg`).

   The other kinds may. A market order is checked at the ask and filled with slippage, a
   stop at its stop and filled at an open beyond it, a cross at the ask and filled at the
   cross. Apart from those fills, none takes the cash below zero and an order that costs
   more than there is is invalid (`run_fills_paid`); with them the account can be
   overdrawn (`market_buy_overdraws`). -/
namespace TradingDesk

variable {σ : Type}

/-- A valid configuration opens an account with what it may have and charges what it may charge. -/
theorem Config.of_validate {c : Config Rat} (h : c.validate.isOk = true) :
    0 ≤ c.account.initialCash ∧ feeFault? c.fees = none := by
  have hnone : c.fault? = none := by
    rw [validate] at h
    split at h
    · cases h
    · assumption
  unfold fault? at hnone
  split at hnone
  · cases hnone
  · next hcash =>
    split at hnone
    · cases hnone
    · split at hnone
      · cases hnone
      · split at hnone
        · cases hnone
        · exact ⟨not_lt.mp hcash, hnone⟩

/-! ## The account in a look -/

namespace Floor

section Looks

variable {models : Models Rat σ} {board : Board Rat} {now : Instant} {id : OrderId}
  {f : Floor Rat σ}

/-- A look leaves the account and the log alone, or it publishes one event. If that is a fill, the
fill model answered with it about the open order under the id. -/
theorem visit_account_cases (models : Models Rat σ) (board : Board Rat) (now : Instant)
    (hf : f.ledger.WellFiled) (id : OrderId) :
    (f.visit models board now id).1.account = f.account ∧
        (f.visit models board now id).1.log = f.log ∨
      ∃ e, (f.visit models board now id).1.account = f.account.applyFill e ∧
        (f.visit models board now id).1.log = f.log ++ [e] ∧
        (e.isFill = true → ∃ order kind, f.ledger.get? id = some order ∧
          order.status.isTerminal = false ∧
          (models.judge board f.account order now f.memory).1 = .answer e kind) := by
  have hv := visit_visited models board now f id hf
  generalize (f.visit models board now id).2 = needed at hv
  cases hv with
  | stale hs hl ha hg => exact .inl ⟨ha, hg⟩
  | held hl ha hg => exact .inl ⟨ha, hg⟩
  | rekinded hs ho hi hl ha hg => exact .inl ⟨ha, hg⟩
  | @booked order event kind hs ho hi hl ha hg =>
    refine .inr ⟨event, ha, hg, ?_⟩
    intro hfill
    obtain ⟨order', kind', hs', hjudge⟩ := judge_of_fill (by decide +kernel) hfill hg
    obtain rfl := Option.some.inj (hs.symm.trans hs')
    exact ⟨order, kind', hs, ho, hjudge⟩

/-- A look that closes an order books that, and leaves the account alone. -/
theorem visit_of_close (hf : f.ledger.WellFiled) {order : Order Rat} {event : OrderEvent Rat}
    (hs : f.ledger.get? id = some order) (ho : order.status.isTerminal = false)
    (hjudge : (models.judge board f.account order now f.memory).1 = .close event) :
    (f.visit models board now id).1.account = f.account ∧
      (f.visit models board now id).1.ledger.get? id = some (order.booked event) := by
  have hv := models.judge_mayJudge board f.account order now f.memory
  rw [hjudge] at hv
  obtain ⟨order', hs', -, -, hvisit⟩ | ⟨hdone, -⟩ := visit_cases models board now f id
  case inr =>
    rw [hdone order hs] at ho
    cases ho
  obtain rfl := Option.some.inj (hs.symm.trans hs')
  cases hv with
  | @close status message hstatus =>
    have hid : order.id = id := hf id order hs
    have hs'' : f.ledger.get? ((OrderEvent.of order now status).withMessage message).orderId =
        some order := by
      show f.ledger.get? order.id = some order
      rw [hid]
      exact hs
    obtain ⟨l, hl, hr⟩ := Ledger.record?_of_allows hs'' (OrderStatus.allows_closing ho hstatus)
    have hquiet : ((OrderEvent.of order now status).withMessage message).isFill = false :=
      OrderEvent.isFill_of_zero rfl
    have hcommit := commit_of_some
      (f := { f with memory := (models.judge board f.account order now f.memory).2 }) hl
    rw [hvisit, hjudge, settle, hcommit, ← hid]
    exact ⟨Portfolio.applyFill_of_not_fill hquiet, hr.get?_self⟩

end Looks

/-! ## Floors that were never overdrawn -/

/-- The cash is what the log leaves of that of the account at the start, and no event took it below
zero. -/
structure Solvent (start : Portfolio Rat) (f : Floor Rat σ) : Prop where
  cash_eq : f.account.cash = (f.log.foldl Portfolio.applyFill start).cash
  solvent : ∀ events, events <+: f.log → 0 ≤ (events.foldl Portfolio.applyFill start).cash

variable {start : Portfolio Rat} {f f' : Floor Rat σ}

theorem Solvent.nonneg (h : f.Solvent start) : 0 ≤ f.account.cash := by
  rw [h.cash_eq]
  exact h.solvent f.log List.prefix_rfl

/-- What an event takes from the cash does not depend on what else the account holds. -/
theorem cash_applyFill_congr {p p' : Portfolio Rat} (h : p.cash = p'.cash) (e : OrderEvent Rat) :
    (p.applyFill e).cash = (p'.applyFill e).cash := by
  cases he : e.isFill with
  | false =>
    rw [Portfolio.applyFill_of_not_fill he, Portfolio.applyFill_of_not_fill he]
    exact h
  | true => rw [Portfolio.cash_applyFill he, Portfolio.cash_applyFill he, h]

/-- An account that pays for an event stays solvent. -/
theorem Solvent.publish (h : f.Solvent start) {e : OrderEvent Rat}
    (ha : f'.account = f.account.applyFill e) (hg : f'.log = f.log ++ [e])
    (hpaid : 0 ≤ (f.account.applyFill e).cash) : f'.Solvent start := by
  have hcash : f'.account.cash = (f'.log.foldl Portfolio.applyFill start).cash := by
    rw [ha, hg, List.foldl_append]
    exact cash_applyFill_congr h.cash_eq e
  refine ⟨hcash, ?_⟩
  intro events hevents
  rw [hg, List.prefix_concat_iff, ← hg] at hevents
  rcases hevents with rfl | hevents
  · rw [← hcash, ha]
    exact hpaid
  · exact h.solvent events hevents

theorem Solvent.publish_quiet (h : f.Solvent start) {e : OrderEvent Rat}
    (ha : f'.account = f.account.applyFill e) (hg : f'.log = f.log ++ [e])
    (he : e.isFill = false) : f'.Solvent start := by
  apply h.publish ha hg
  rw [Portfolio.applyFill_of_not_fill he]
  exact h.nonneg

section CashAccount

variable {c : Config Rat} {f : Floor Rat (Usage Rat)} {board : Board Rat} {now : Instant}
  {id : OrderId} {e : OrderEvent Rat} {limited : Bool}

/-- A fill that a look publishes is of the order under the id, and it is funded. -/
theorem visit_funded (hleverage : c.power.leverage = 1) (hf : f.ledger.WellFiled)
    (hb : f.Buying limited) (hfill : e.isFill = true)
    (hlog : (f.visit (c.models Table.empty) board now id).1.log = f.log ++ [e]) :
    ∃ order security, f.ledger.get? id = some order ∧ board.get? order.symbol = some security ∧
      Funded c security f.account.cash order e := by
  rcases visit_account_cases (c.models Table.empty) board now hf id with
    ⟨-, hg⟩ | ⟨e', -, hg, hanswer⟩
  · rw [hg] at hlog
    simp at hlog
  · obtain rfl : e' = e := by
      rw [hg] at hlog
      simpa using hlog
    obtain ⟨order, kind, hs, ho, hjudge⟩ := hanswer hfill
    obtain ⟨security, hposted, hfunded⟩ :=
      judge_funded hleverage (hb.orders id order hs) ho (hb.longs order.symbol) hfill hjudge
    exact ⟨order, security, hs, hposted, hfunded⟩

/-- A look that fills an order with a limit does not overdraw the account. -/
theorem visit_solvent (hleverage : c.power.leverage = 1) (hplan : Config.feeFault? c.fees = none)
    (id : OrderId) (hf : f.ledger.WellFiled) (hb : f.Buying true) (h : f.Solvent start) :
    (f.visit (c.models Table.empty) board now id).1.Solvent start := by
  rcases visit_account_cases (c.models Table.empty) board now hf id with ⟨ha, hg⟩ | ⟨e, ha, hg, -⟩
  · exact ⟨by rw [ha, hg]; exact h.cash_eq, by rw [hg]; exact h.solvent⟩
  · cases hfill : e.isFill with
    | false => exact h.publish_quiet ha hg hfill
    | true =>
      obtain ⟨order, security, hs, -, hfunded⟩ := visit_funded hleverage hf hb hfill hg
      have hbuys := hb.orders id order hs
      obtain ⟨limit, hlimit⟩ := Option.isSome_iff_exists.mp hbuys.limit
      have hprice : e.fillPrice ≤ referencePrice security order := by
        rw [referencePrice, hlimit]
        exact FillConfig.price?_le_limit hbuys.buys hlimit hfunded.priced
      apply h.publish ha hg
      rw [Portfolio.cash_applyFill hfill]
      exact sub_nonneg.mpr (hfunded.costOf_le hplan hprice)

theorem visitAll_solvent (hleverage : c.power.leverage = 1)
    (hplan : Config.feeFault? c.fees = none) (ids : List OrderId) (hf : f.ledger.WellFiled)
    (hb : f.Buying true) (h : f.Solvent start) :
    (f.visitAll (c.models Table.empty) board now ids).1.Solvent start := by
  induction ids generalizing f with
  | nil => exact h
  | cons id ids ih =>
    have hv := visit_visited (c.models Table.empty) board now f id hf
    rw [visitAll_cons]
    exact ih (hv.wellFiled hf) (hv.buying c.models_followsRules c.models_marksStops hf hb)
      (visit_solvent hleverage hplan id hf hb h)

/-- Every fill of a pass is funded by what the looks at lesser ids left. -/
theorem pass_funded (hleverage : c.power.leverage = 1) (orderly : f.ledger.Orderly)
    (hb : f.Buying limited) {published : List (OrderEvent Rat)}
    (hlog : (f.pass (c.models Table.empty) board now).1.log = f.log ++ published)
    (he : e ∈ published) (hfill : e.isFill = true) :
    let before := f.before (c.models Table.empty) board now e.orderId
    ∃ order security, before.ledger.get? e.orderId = some order ∧ 0 < order.quantity ∧
      board.get? order.symbol = some security ∧
      Funded c security before.account.cash order e := by
  intro before
  have hbefore : before.Buying limited :=
    before_buying c.models_followsRules c.models_marksStops board now e.orderId orderly.wellFiled hb
  obtain ⟨order, security, hs, hposted, hfunded⟩ :=
    visit_funded hleverage (before_wellFiled _ board now e.orderId orderly.wellFiled) hbefore hfill
      (look_of_published orderly.wellFiled c.models_followsRules.keepsToOrder hlog he)
  exact ⟨order, security, hs, (hbefore.orders _ order hs).buys, hposted, hfunded⟩

/-- An order that gets to the models in a pass, and whose fill would cost more than the looks at
lesser ids left although it is not above the reference price, is invalid after the pass. -/
theorem pass_refused (hleverage : c.power.leverage = 1) (hplan : Config.feeFault? c.fees = none)
    (orderly : f.ledger.Orderly) (hb : f.Buying limited) (hp : f.ledger.isPending id = true) :
    let before := f.before (c.models Table.empty) board now id
    ∀ order security memory kind, before.ledger.get? id = some order →
      (c.models Table.empty).reach? board order now before.memory = some (security, memory) →
      ((c.models Table.empty).attemptFill security order now memory).1 = .ok (e, kind) →
      e.isFill = true → ¬ c.fill.TradesAbove security order →
      before.account.cash < Portfolio.costOf e →
      (before.visit (c.models Table.empty) board now id).1.account = before.account ∧
        ∃ stored, (f.pass (c.models Table.empty) board now).1.ledger.get? id = some stored ∧
          stored.status = .invalid := by
  intro before order security memory kind hs hreach hattempt hfill hbelow hcost
  have hbefore : before.Buying limited :=
    before_buying c.models_followsRules c.models_marksStops board now id orderly.wellFiled hb
  have hfiled : before.ledger.WellFiled := before_wellFiled _ board now id orderly.wellFiled
  obtain ⟨hfound, hleft⟩ :=
    pass_docket board now orderly.wellFiled c.models_followsRules.keepsToOrder hp
  have ho : order.status.isTerminal = false := by
    obtain ⟨stored, hs', hopen⟩ := (orderly.pending_iff id).mp hp
    have hsame : some order = some stored := by
      rw [← hs, ← hs']
      exact congrArg Docket.order hfound
    rw [Option.some.inj hsame]
    exact hopen
  have hbuys := hbefore.orders id order hs
  have hnonneg : 0 ≤ order.remaining :=
    Scalar.tolerance_pos.le.trans (hbuys.tolerance_le_remaining ho)
  have hpriced := (fill_of_attempt hnonneg hfill (Prod.ext hattempt rfl)).1
  rw [← FillConfig.reference_lt_price?_iff hbuys.buys hpriced, not_lt] at hbelow
  obtain ⟨check, hjudge⟩ := judge_refused hleverage hplan hbuys ho (hbefore.longs order.symbol)
    hreach hattempt hfill hbelow hcost
  obtain ⟨haccount, hclosed⟩ := visit_of_close hfiled hs ho hjudge
  exact ⟨haccount, order.booked (refusalEvent order now check),
    (congrArg Docket.order hleft).trans hclosed, rfl⟩

end CashAccount

end Floor

namespace Desk

/-! ## Buying with limits -/

theorem Files.solvent {start : Portfolio Rat} {d d' : Desk Rat σ} (hfiles : Files d d')
    (h : d.Solvent start) : d'.Solvent start := by
  cases hfiles with
  | refused => exact h
  | unmarked id => exact ⟨h.cash_eq, h.solvent⟩
  | @filed l event he needed => exact h.publish_quiet rfl rfl (OrderEvent.isFill_of_zero he)

theorem step_solvent {c : Config Rat} (hleverage : c.power.leverage = 1)
    (hplan : Config.feeFault? c.fees = none) {start : Portfolio Rat} {d : Desk Rat (Usage Rat)}
    (hf : d.ledger.WellFiled) (hb : d.Buying true) (h : d.Solvent start) (a : Action Rat) :
    (d.step (c.models Table.empty) a).Solvent start := by
  cases a with
  | place request => exact (d.place_files request).solvent h
  | update request => exact (d.update_files request).solvent h
  | cancel request => exact (d.cancel_files request).solvent h
  | scan now =>
    rw [step, scan]
    split
    · exact Floor.visitAll_solvent hleverage hplan _ hf hb h
    · exact h
  | showSnapshot s => exact h
  | untrack symbol => exact h
  | mark symbol price => exact ⟨h.cash_eq, h.solvent⟩

/-- A cash account that buys with limits is never overdrawn. Under every valid configuration without
leverage and the built-in models, over every run in which all accepted orders buy at a limit and
were placed without a fill, the cash is never below zero: not after the run, and not after any event
on the way. -/
theorem run_cash_nonneg (c : Config Rat) (hvalid : c.validate.isOk = true)
    (hleverage : c.power.leverage = 1) (actions : List (Action Rat))
    (hbuys : OnlyBuys true (c.models Table.empty)
      (opening (Portfolio.ofConfig c.account) Table.empty) actions) :
    let start := Portfolio.ofConfig c.account
    let d := (opening start Table.empty).run (c.models Table.empty) actions
    0 ≤ d.account.cash ∧
      ∀ events, events <+: d.log → 0 ≤ (events.foldl Portfolio.applyFill start).cash := by
  intro start d
  obtain ⟨hcash, hplan⟩ := Config.of_validate hvalid
  have hlongs : ∀ symbol, 0 ≤ start.quantityHeld symbol := fun _ => le_refl 0
  have hopening : (opening start (Table.empty : Usage Rat)).Solvent start := by
    refine ⟨rfl, ?_⟩
    intro events hevents
    rw [List.prefix_nil.mp hevents]
    exact hcash
  have hsolvent : d.Solvent start := by
    refine run_induction (P := fun d => d.Solvent start) hopening ?_
    intro earlier a later hactions h
    have hearlier : OnlyBuys true (c.models Table.empty) (opening start Table.empty) earlier :=
      hbuys.of_append hactions
    exact step_solvent hleverage hplan (run_wellFiled _ (opening_wellFiled start _) earlier)
      (run_buying c.models_followsRules c.models_marksStops hlongs hearlier) h a
  exact ⟨hsolvent.nonneg, hsolvent.solvent⟩

/-- Three orders that buy with limits and volume that cuts them short, an update, a mark and a scan
that goes back in time. The fills use up the cash to the cent, so the last order is invalid. -/
theorem run_cash_nonneg_of_three_orders :
    let c : Config Rat :=
      { Config.default with
        account := ⟨"USD", 7522 / 5⟩
        fees := .perUnit (1 / 10) 2
        fill := ⟨3, 1 / 4, some (1 / 2)⟩ }
    let start := Portfolio.ofConfig c.account
    let buy (id : OrderId) (quantity : Rat) (kind : OrderKind Rat) : Order Rat :=
      { id := id, symbol := "SPY", quantity := quantity, kind := kind, time := ⟨0⟩, filled := 0 }
    let bar (t : Int) (price volume : Rat) : Action Rat :=
      .showSnapshot (Snapshot.ofBar "SPY" (Bar.flat ⟨t⟩ price volume))
    let actions := [bar 60 100 12, .place (buy 1 8 (.limit 105)),
      .place (buy 2 5 (.stopLimit 95 100 false)), .scan ⟨60⟩,
      .update (buy 1 10 (.limit 100)), .mark "SPY" 150, bar 120 100 18, .scan ⟨120⟩, .scan ⟨30⟩,
      .place (buy 3 1 (.limit 1)), bar 180 (1 / 2) 100, .scan ⟨180⟩]
    let d := (opening start Table.empty).run (c.models Table.empty) actions
    c.validate.isOk = true ∧ c.power.leverage = 1 ∧
      OnlyBuys true (c.models Table.empty) (opening start Table.empty) actions ∧
      (d.log.filter OrderEvent.isFill).map (fun e => (e.orderId, e.fillQuantity, e.fee)) =
        [(1, 6, 2), (1, 4, 2 / 5), (2, 5, 2)] ∧
      (d.order? 3).map Order.status = some .invalid ∧ d.account.cash = 0 ∧
      0 ≤ d.account.cash ∧
      ∀ events, events <+: d.log → 0 ≤ (events.foldl Portfolio.applyFill start).cash := by
  intro c start buy bar actions d
  have hvalid : c.validate.isOk = true := by decide +kernel
  have hbuys : OnlyBuys true (c.models Table.empty) (opening start Table.empty) actions :=
    .of_forall (by decide +kernel)
  refine ⟨hvalid, rfl, hbuys, by decide +kernel, by decide +kernel, by decide +kernel, ?_⟩
  with_reducible exact run_cash_nonneg c hvalid rfl actions hbuys

/-! ## Buying without limits -/

/-- A cash account that buys without limits is overdrawn only by fills above the reference price.
Of a scan after any run in which all accepted orders buy without a limit and were placed without a
fill, under a valid configuration without leverage and the built-in models: a fill leaves the cash
at zero or more unless it trades above the price its funds were checked at, and `TradesAbove` says
of which fills that is so; and apart from those, an order whose fill would cost more than the cash
that the looks before have left is invalid after the scan, and the account is left alone. -/
theorem run_fills_paid (c : Config Rat) (hvalid : c.validate.isOk = true)
    (hleverage : c.power.leverage = 1) (actions : List (Action Rat))
    (hbuys : OnlyBuys false (c.models Table.empty)
      (opening (Portfolio.ofConfig c.account) Table.empty) actions) (now : Instant) :
    let models := c.models Table.empty
    let d := (opening (Portfolio.ofConfig c.account) Table.empty).run models actions
    let d' := d.scan models now
    (∃ published, d'.log = d.log ++ published ∧ ∀ e ∈ published, e.isFill = true →
      let f := d.before models d.board now e.orderId
      ∃ order security, f.ledger.get? e.orderId = some order ∧
        d.board.get? order.symbol = some security ∧
        (referencePrice security order < e.fillPrice ↔ c.fill.TradesAbove security order) ∧
        (¬ c.fill.TradesAbove security order → 0 ≤ (f.account.applyFill e).cash)) ∧
    ∀ id, d.ledger.isPending id = true →
      let f := d.before models d.board now id
      ∀ order security memory e kind, f.ledger.get? id = some order →
        models.reach? d.board order now f.memory = some (security, memory) →
        (models.attemptFill security order now memory).1 = .ok (e, kind) → e.isFill = true →
        ¬ c.fill.TradesAbove security order → f.account.cash < Portfolio.costOf e →
        (f.visit models d.board now id).1.account = f.account ∧
          ∃ stored, d'.order? id = some stored ∧ stored.status = .invalid := by
  intro models d d'
  obtain ⟨-, hplan⟩ := Config.of_validate hvalid
  have own : models.fill.KeepsToOrder := c.models_followsRules.keepsToOrder
  have orderly : d.ledger.Orderly := run_orderly models _ _ actions
  have hd : d.Buying false :=
    run_buying c.models_followsRules c.models_marksStops (fun _ => le_refl 0) hbuys
  have hfloor : d'.toFloor = (d.toFloor.pass models d.board now).1 :=
    scan_toFloor (run_needsPass own (opening_wellFiled _ _) nofun actions) now
  constructor
  · obtain ⟨published, hlog, -⟩ :=
      Floor.visitAll_published d.board now d.ledger.pendingIds orderly.wellFiled own
    refine ⟨published, by rw [hfloor]; exact hlog, ?_⟩
    intro e he hfill f
    obtain ⟨order, security, hs, hbuy, hposted, hfunded⟩ :=
      Floor.pass_funded hleverage orderly hd hlog he hfill
    have habove := FillConfig.reference_lt_price?_iff hbuy hfunded.priced
    refine ⟨order, security, hs, hposted, habove, ?_⟩
    intro hbelow
    rw [Portfolio.cash_applyFill hfill]
    apply sub_nonneg.mpr
    apply hfunded.costOf_le hplan
    rwa [← habove, not_lt] at hbelow
  · intro id hp f order security memory e kind hs hreach hattempt hfill hbelow hcost
    rw [order?, hfloor]
    exact Floor.pass_refused hleverage hplan orderly hd hp order security memory kind hs hreach
      hattempt hfill hbelow hcost

/-- A market order that is filled and leaves five hundred in cash, and a stop for which that is not
enough once its fee is counted. -/
theorem run_fills_paid_of_two_orders :
    let c : Config Rat := { Config.default with account := ⟨"USD", 1501⟩ }
    let models := c.models Table.empty
    let start := opening (Portfolio.ofConfig c.account) Table.empty
    let buy (id : OrderId) (quantity : Rat) (kind : OrderKind Rat) : Order Rat :=
      { id := id, symbol := "SPY", quantity := quantity, kind := kind, time := ⟨0⟩, filled := 0 }
    let security := Snapshot.ofBar "SPY" (Bar.flat ⟨60⟩ 100 50)
    let actions := [.showSnapshot security, .place (buy 1 10 .market),
      .place (buy 2 5 (.stopMarket 100))]
    let d := start.run models actions
    let d' := d.scan models ⟨60⟩
    let f := d.before models d.board ⟨60⟩ 2
    let stop := filedOrder (buy 2 5 (.stopMarket 100))
    let e := { (OrderEvent.of stop ⟨60⟩ .filled).withFill 100 5 with fee := 1 }
    c.validate.isOk = true ∧ c.power.leverage = 1 ∧ OnlyBuys false models start actions ∧
      (d'.log.drop d.log.length).map (fun e => (e.orderId, e.status)) =
        [(1, .filled), (2, .invalid)] ∧
      f.ledger.get? 2 = some stop ∧
      models.reach? d.board stop ⟨60⟩ f.memory = some (security, f.memory) ∧
      (models.attemptFill security stop ⟨60⟩ f.memory).1 = .ok (e, stop.kind) ∧
      ¬ c.fill.TradesAbove security stop ∧ f.account.cash = 500 ∧ Portfolio.costOf e = 501 ∧
      (f.visit models d.board ⟨60⟩ 2).1.account = f.account ∧
      ∃ stored, d'.order? 2 = some stored ∧ stored.status = .invalid := by
  intro c models start buy security actions d d' f stop e
  have hvalid : c.validate.isOk = true := by decide +kernel
  have hbuys : OnlyBuys false models start actions := .of_forall (by decide +kernel)
  have hs : f.ledger.get? 2 = some stop := by decide +kernel
  have hreach : models.reach? d.board stop ⟨60⟩ f.memory = some (security, f.memory) := by
    decide +kernel
  have hattempt : (models.attemptFill security stop ⟨60⟩ f.memory).1 = .ok (e, stop.kind) := by
    decide +kernel
  have hbelow : ¬ c.fill.TradesAbove security stop := by decide +kernel
  obtain ⟨-, h⟩ := run_fills_paid c hvalid rfl actions hbuys ⟨60⟩
  refine ⟨hvalid, rfl, hbuys, by decide +kernel, hs, hreach, hattempt, hbelow, by decide +kernel,
    by decide +kernel, ?_⟩
  with_reducible
    exact h 2 (by decide +kernel) stop security f.memory e stop.kind hs hreach hattempt
      (by decide +kernel) hbelow (by decide +kernel)

/-- A market order whose slippage the account has not: it passes the check at the last price and is
filled a tick above, which overdraws the account. -/
theorem market_buy_overdraws :
    let c : Config Rat :=
      { Config.default with account := ⟨"USD", 1001⟩, fill := ⟨1, 1 / 4, none⟩ }
    let models := c.models Table.empty
    let start := opening (Portfolio.ofConfig c.account) Table.empty
    let buy : Order Rat :=
      { id := 1, symbol := "SPY", quantity := 10, kind := .market, time := ⟨60⟩, filled := 0 }
    let actions := [.showSnapshot (Snapshot.ofBar "SPY" (Bar.flat ⟨60⟩ 100 50)), .place buy,
      .scan ⟨60⟩]
    let d := start.run models actions
    c.validate.isOk = true ∧ c.power.leverage = 1 ∧ (∀ a ∈ actions, AsksToBuy false a) ∧
      d.log.map (fun e => (e.status, e.fillQuantity, e.fillPrice, e.fee)) =
        [(.submitted, 0, 0, 0), (.filled, 10, 401 / 4, 1)] ∧
      d.account.cash = -5 / 2 := by
  decide +kernel

end Desk

end TradingDesk
