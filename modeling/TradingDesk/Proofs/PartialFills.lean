import TradingDesk.Proofs.Purchase
/- Proofs.PartialFills — whether an order to buy is refused after it was filled in part.

   A desk that attends to one order to buy at market carries the purchase on by every step
   (`step_carriesOn`). So the answers to whether the account affords the order, over a
   whole run, are all made from the one sum that its first fill settles
   (`BuysAt.sufficient_iff`), and if the first of them is yes, a later one can be no for
   the minimum of a fee by the unit and for nothing else (`run_market_buy_invalid_iff`). -/
namespace TradingDesk

/-! ## What a desk attends to -/

/-- What may happen while a desk attends to one order: it is placed, perhaps canceled, scans, shown
snapshots, and marks of its symbol at one price. -/
def Action.Attends (request : Order Rat) (price : Rat) : Action Rat → Prop
  | .place order => order = request
  | .update _ => False
  | .mark symbol at_ => symbol = request.symbol → at_ = price
  | .cancel _ | .scan _ | .showSnapshot _ | .untrack _ => True

/-! ## The answers of the power check -/

namespace Desk

section Answers

variable {α : Type} [Scalar α] {c : Config α} {overrides : Table String (FeePlan α)} {id : OrderId}
  {d : Desk α (Usage α)} {actions : List (Action α)} {check : PowerCheck α}

/-- The answer to whether the account affords the order under an id, if an action is a scan that
asks for it. -/
def powerCheck? (c : Config α) (overrides : Table String (FeePlan α)) (id : OrderId)
    (d : Desk α (Usage α)) : Action α → Option (PowerCheck α)
  | .scan now =>
    if d.needsPass then
      let floor := d.toFloor.before (c.models overrides) d.board now id
      (floor.ledger.pendingOrder? id).bind fun order =>
        c.powerCheck? overrides d.board floor.account order now floor.memory
    else none
  | _ => none

/-- The answers of a run to whether the account affords the order under an id. -/
def powerChecks (c : Config α) (overrides : Table String (FeePlan α)) (id : OrderId) :
    Desk α (Usage α) → List (Action α) → List (PowerCheck α)
  | _, [] => []
  | d, a :: later =>
    (d.powerCheck? c overrides id a).toList ++
      powerChecks c overrides id (d.step (c.models overrides) a) later

theorem powerChecks_append (earlier later : List (Action α)) :
    d.powerChecks c overrides id (earlier ++ later) =
      d.powerChecks c overrides id earlier ++
        (d.run (c.models overrides) earlier).powerChecks c overrides id later := by
  induction earlier generalizing d with
  | nil => rfl
  | cons a earlier ih =>
    rw [List.cons_append, powerChecks, ih, powerChecks, List.append_assoc]
    rfl

theorem powerChecks_singleton (d : Desk α (Usage α)) (a : Action α) :
    d.powerChecks c overrides id [a] = (d.powerCheck? c overrides id a).toList :=
  List.append_nil _

theorem mem_powerChecks :
    check ∈ d.powerChecks c overrides id actions ↔
      ∃ before a after, actions = before ++ a :: after ∧
        (d.run (c.models overrides) before).powerCheck? c overrides id a = some check := by
  constructor
  · intro h
    induction actions generalizing d with
    | nil => cases h
    | cons a actions ih =>
      rcases List.mem_append.mp h with h | h
      · exact ⟨[], a, actions, rfl, Option.mem_toList.mp h⟩
      · obtain ⟨before, b, after, rfl, hsome⟩ := ih h
        exact ⟨a :: before, b, after, rfl, hsome⟩
  · rintro ⟨before, a, after, rfl, hsome⟩
    rw [powerChecks_append, powerChecks, hsome]
    exact List.mem_append_right _ List.mem_cons_self

/-- If a run asks at all, there is an action that asks first. -/
theorem exists_first_powerCheck (h : d.powerChecks c overrides id actions ≠ []) :
    ∃ before a after check, actions = before ++ a :: after ∧
      d.powerChecks c overrides id before = [] ∧
      (d.run (c.models overrides) before).powerCheck? c overrides id a = some check ∧
      (d.powerChecks c overrides id actions).head? = some check := by
  induction actions generalizing d with
  | nil => exact absurd rfl h
  | cons a actions ih =>
    cases hcheck : d.powerCheck? c overrides id a with
    | some check =>
      refine ⟨[], a, actions, check, rfl, rfl, hcheck, ?_⟩
      rw [powerChecks, hcheck]
      rfl
    | none =>
      have hskip : ∀ later, d.powerChecks c overrides id (a :: later) =
          (d.step (c.models overrides) a).powerChecks c overrides id later := by
        intro later
        rw [powerChecks, hcheck]
        rfl
      rw [hskip] at h ⊢
      obtain ⟨before, b, after, check, rfl, hnone, hsome, hhead⟩ := ih h
      exact ⟨a :: before, b, after, check, rfl, (hskip before).trans hnone, hsome, hhead⟩

end Answers

/-! ## Steps of a desk that attends to one order -/

variable {c : Config Rat} {overrides : Table String (FeePlan Rat)} {d d' : Desk Rat (Usage Rat)}
  {request : Order Rat} {price cash : Rat} {a : Action Rat}

/-- What a desk that attends to a purchase makes of it by an action: the purchase goes on, the order
becomes invalid exactly if the action finds that the account does not afford it, and nothing is
filled without asking that. -/
structure CarriesOn (c : Config Rat) (overrides : Table String (FeePlan Rat)) (price cash : Rat)
    (request : Order Rat) (d : Desk Rat (Usage Rat)) (a : Action Rat) (d' : Desk Rat (Usage Rat)) :
    Prop where
  purchase : d'.Purchase c overrides price cash request
  invalid_iff : (d'.order? request.id).map Order.status = some .invalid ↔
    (d.order? request.id).map Order.status = some .invalid ∨
      ∃ check, d.powerCheck? c overrides request.id a = some check ∧ check.sufficient = false
  first : d.powerCheck? c overrides request.id a = none →
    (d'.docket request.id).firstFill? = (d.docket request.id).firstFill?

theorem CarriesOn.of_not_asked (h : d'.Purchase c overrides price cash request)
    (hnone : d.powerCheck? c overrides request.id a = none)
    (hstatus : (d'.order? request.id).map Order.status = some .invalid ↔
      (d.order? request.id).map Order.status = some .invalid)
    (hfirst : (d'.docket request.id).firstFill? = (d.docket request.id).firstFill?) :
    CarriesOn c overrides price cash request d a d' := by
  refine ⟨h, hstatus.trans (or_iff_left ?_).symm, fun _ => hfirst⟩
  rintro ⟨check, hcheck, -⟩
  cases hnone.symm.trans hcheck

/-- So it is with an action that leaves the floor alone. -/
theorem CarriesOn.of_idle (h : d.Purchase c overrides price cash request)
    (hnone : d.powerCheck? c overrides request.id a = none) (hsame : d'.toFloor = d.toFloor) :
    CarriesOn c overrides price cash request d a d' := by
  have horder : d'.order? request.id = d.order? request.id :=
    congrArg (fun f : Floor Rat (Usage Rat) => f.ledger.get? request.id) hsame
  exact .of_not_asked (hsame.symm ▸ h) hnone (by rw [horder]) (by rw [hsame])

/-- Filing the order anew, with an event that is not a fill, carries the purchase on. -/
theorem filing_carriesOn (h : d.Purchase c overrides price cash request)
    (hnone : d.powerCheck? c overrides request.id a = none) {l : Ledger Rat} {o : Order Rat}
    {pending needed : Bool} {event : OrderEvent Rat}
    (hr : Ledger.Refiled d.ledger l request.id o pending) (hquiet : event.isFill = false)
    (hcourse : o.OnCourse)
    (hsame : o.quantity = request.quantity ∧ o.symbol = request.symbol ∧ o.kind = .market)
    (hfilled : o.filled = (d.docket request.id).progress) (hvalid : o.status ≠ .invalid)
    (hvalid' : (d.order? request.id).map Order.status ≠ some .invalid) :
    CarriesOn c overrides price cash request d a { d.filing l event with needsPass := needed } := by
  have hpublished : ∀ e ∈ [event], e.isFill = false := List.forall_mem_singleton.mpr hquiet
  refine .of_not_asked
    (h.refiled hr (Portfolio.applyFill_of_not_fill hquiet) rfl hpublished hcourse hsame hfilled)
    hnone (iff_of_false ?_ hvalid') (Floor.Purchase.firstFill?_quiet rfl hpublished request.id)
  show (l.get? request.id).map Order.status ≠ _
  rw [hr.get?_self, Option.map_some, Ne, Option.some.injEq]
  exact hvalid

theorem place_carriesOn (h : d.Purchase c overrides price cash request)
    (hkind : request.kind = .market) (hfresh : request.filled = 0) :
    CarriesOn c overrides price cash request d (.place request)
      (d.step (c.models overrides) (.place request)) := by
  cases haccepts : d.accepts request with
  | false =>
    rw [step, place_of_not_accepts haccepts]
    exact .of_idle h rfl rfl
  | true =>
    obtain ⟨l, hr, hp⟩ := place_of_accepts haccepts
    obtain ⟨-, hfree, hvalid⟩ := accepts_iff.mp haccepts
    have hnothing : (d.docket request.id).progress = 0 := by
      rw [Docket.progress, show (d.docket request.id).order = none from hfree]
      rfl
    rw [step, hp]
    refine filing_carriesOn h rfl hr (OrderEvent.isFill_of_zero rfl)
      (Order.onCourse_filed hvalid hfresh)
      ⟨filedOrder_quantity request, request.addBrokerId_symbol _,
        (filedOrder_kind request).trans hkind⟩ ?_ (fun hstatus => ?_) ?_
    · rw [filedOrder_filled, hfresh, hnothing]
    · cases (filedOrder_status request).symm.trans hstatus
    · rw [hfree, Option.map_none]
      exact (Option.some_ne_none _).symm

theorem cancel_carriesOn (h : d.Purchase c overrides price cash request)
    (orderly : d.ledger.Orderly) (asked : Order Rat) :
    CarriesOn c overrides price cash request d (.cancel asked)
      (d.step (c.models overrides) (.cancel asked)) := by
  rcases cancel_cases_of_backed orderly.backed asked with hrefused | ⟨stored, hp, hs⟩
  · rw [step, hrefused]
    exact .of_idle h rfl rfl
  · obtain ⟨l, hr, hc⟩ := cancel_of_pending hp hs
    obtain ⟨o, hs', ho⟩ := (orderly.pending_iff asked.id).mp hp
    obtain rfl : stored = o := Option.some.inj (hs.symm.trans hs')
    -- a cancel that finds an order finds this one
    have hid : asked.id = request.id := h.alone asked.id stored hs
    rw [hid] at hr hs
    obtain ⟨hcourse, hsame⟩ := h.stored stored hs
    rw [step, hc]
    refine filing_carriesOn h rfl hr (OrderEvent.isFill_of_zero rfl) (hcourse.closed (.inr rfl))
      hsame (Floor.Purchase.progress_eq hs).symm (fun hstatus => ?_) ?_
    · cases hstatus
    · rw [hs]
      exact Order.not_invalid ho

theorem scan_carriesOn (h : d.Purchase c overrides price cash request)
    (orderly : d.ledger.Orderly) (hslippage : c.fill.slippage = 0) (hprice : 0 < price)
    (hbuy : 0 < request.quantity) {security : Snapshot Rat}
    (hb : d.board.get? request.symbol = some security) (hask : security.askPrice = price)
    (now : Instant) :
    CarriesOn c overrides price cash request d (.scan now)
      (d.step (c.models overrides) (.scan now)) := by
  cases hn : d.needsPass with
  | false =>
    refine .of_idle h ?_ ?_
    · rw [powerCheck?, hn]
      rfl
    · rw [step, scan, hn]
      rfl
  | true =>
    have hfloor : (d.step (c.models overrides) (.scan now)).toFloor =
        (d.toFloor.pass (c.models overrides) d.board now).1 := by
      rw [step, scan, hn]
      rfl
    rw [h.pass_eq orderly] at hfloor
    cases hp : d.ledger.isPending request.id with
    | false =>
      have hnone : d.ledger.pendingOrder? request.id = none := by
        rw [Ledger.pendingOrder?, hp]
        rfl
      refine .of_idle h ?_ (hfloor.trans (if_neg (by rw [hp]; exact Bool.false_ne_true)))
      simp only [powerCheck?, hn, if_true, h.before_eq orderly, hnone, Option.bind_none]
    | true =>
      obtain ⟨o, hs, ho⟩ := (orderly.pending_iff request.id).mp hp
      have hfound : d.ledger.pendingOrder? request.id = some o :=
        Ledger.pendingOrder?_eq_some.mpr ⟨hp, hs⟩
      have hasked : d.powerCheck? c overrides request.id (.scan now) =
          c.powerCheck? overrides d.board d.account o now d.memory := by
        simp only [powerCheck?, hn, if_true, h.before_eq orderly, hfound, Option.bind_some]
      have hopen : (d.order? request.id).map Order.status ≠ some .invalid := by
        rw [show d.order? request.id = some o from hs]
        exact Order.not_invalid ho
      have hvisit := h.visit now hslippage hprice hbuy hs (orderly.wellFiled _ _ hs) ho hb hask
      rw [hp, if_pos rfl] at hfloor
      rw [← hfloor, ← hasked] at hvisit
      obtain ⟨hkept, hinvalid, hfirst⟩ := hvisit
      exact ⟨hkept, hinvalid.trans (or_iff_right hopen).symm, hfirst⟩

theorem step_carriesOn (h : d.Purchase c overrides price cash request) (orderly : d.ledger.Orderly)
    (hslippage : c.fill.slippage = 0) (hprice : 0 < price) (hkind : request.kind = .market)
    (hbuy : 0 < request.quantity) (hfresh : request.filled = 0) (hattends : a.Attends request price)
    (hsees : ∀ now, a = .scan now →
      (d.board.get? request.symbol).map Snapshot.askPrice = some price) :
    CarriesOn c overrides price cash request d a (d.step (c.models overrides) a) := by
  cases a with
  | place order =>
    obtain rfl : order = request := hattends
    exact place_carriesOn h hkind hfresh
  | update order => exact hattends.elim
  | cancel order => exact cancel_carriesOn h orderly order
  | scan now =>
    obtain ⟨security, hb, hask⟩ := Option.map_eq_some_iff.mp (hsees now rfl)
    exact scan_carriesOn h orderly hslippage hprice hbuy hb hask now
  | showSnapshot s => exact .of_idle h rfl rfl
  | untrack symbol => exact .of_idle h rfl rfl
  | mark symbol at_ =>
    refine .of_not_asked ⟨h.alone, h.stored, h.unfilled, h.first, ?_⟩ rfl Iff.rfl rfl
    exact h.bought.mark hattends

/-- An answer is that of a look at the open order. -/
theorem powerCheck?_eq_some {check : PowerCheck Rat}
    (h : d.Purchase c overrides price cash request) (orderly : d.ledger.Orderly)
    (hcheck : d.powerCheck? c overrides request.id a = some check) :
    ∃ now o security, a = .scan now ∧ d.ledger.get? request.id = some o ∧
      o.status.isTerminal = false ∧ d.board.get? request.symbol = some security ∧
      c.powerCheck overrides d.account security o = check := by
  cases a with
  | scan now =>
    simp only [powerCheck?, h.before_eq orderly, Option.ite_none_right_eq_some,
      Option.bind_eq_some_iff, Config.powerCheck?, Option.map_eq_some_iff] at hcheck
    obtain ⟨-, o, hfound, ⟨security, u⟩, hreach, hanswer⟩ := hcheck
    obtain ⟨hp, hs⟩ := Ledger.pendingOrder?_eq_some.mp hfound
    obtain ⟨o', hs', ho⟩ := (orderly.pending_iff request.id).mp hp
    obtain rfl : o = o' := Option.some.inj (hs.symm.trans hs')
    obtain ⟨-, hb, -⟩ := Models.reach?_eq_some hreach
    exact ⟨now, o, security, rfl, hs, ho, (h.stored o hs).2.2.1 ▸ hb, hanswer⟩
  | _ => cases hcheck

theorem opening_purchase {account : Portfolio Rat} (hcash : account.holdings = [])
    (memory : Usage Rat) :
    (opening account memory).Purchase c overrides price account.cash request := by
  have hnone : ∀ j, (opening account memory).ledger.get? j = none := fun _ => rfl
  have hprogress : ((opening account memory).docket request.id).progress = 0 := rfl
  have hfirst : ((opening account memory).docket request.id).firstFill? = none := rfl
  refine ⟨fun j o ho => ?_, fun o ho => ?_, fun _ => hprogress, fun e he => ?_, ?_⟩
  · cases (hnone j).symm.trans ho
  · cases (hnone _).symm.trans ho
  · cases hfirst.symm.trans he
  · rw [hprogress, hfirst, FeePlan.charged]
    exact Portfolio.bought_nothing hcash _ _ _

/-- A run in which one order buys at market, for an account that held cash only, and every scan sees
the symbol at one price, which the fills do not slip from. -/
structure BuysAt (c : Config Rat) (overrides : Table String (FeePlan Rat)) (account : Portfolio Rat)
    (memory : Usage Rat) (request : Order Rat) (price : Rat) (actions : List (Action Rat)) :
    Prop where
  slippage : c.fill.slippage = 0
  holdings : account.holdings = []
  kind : request.kind = .market
  buys : 0 < request.quantity
  fresh : request.filled = 0
  price_pos : 0 < price
  attends : ∀ a ∈ actions, a.Attends request price
  sees : ∀ before now after, actions = before ++ .scan now :: after →
    (((opening account memory).run (c.models overrides) before).board.get? request.symbol).map
      Snapshot.askPrice = some price

namespace BuysAt

variable {account : Portfolio Rat} {memory : Usage Rat} {actions earlier later : List (Action Rat)}
  {check : PowerCheck Rat} {first : OrderEvent Rat}

theorem of_append (h : BuysAt c overrides account memory request price (earlier ++ later)) :
    BuysAt c overrides account memory request price earlier :=
  { h with
    attends := fun a ha => h.attends a (List.mem_append_left _ ha)
    sees := fun before now after hsplit => h.sees before now (after ++ later) (by
      rw [hsplit, List.append_assoc]
      rfl) }

/-- The run keeps the purchase. The order is invalid exactly if an answer was no, and it has no fill
before an answer. -/
theorem run_purchase (h : BuysAt c overrides account memory request price actions) :
    let start : Desk Rat (Usage Rat) := opening account memory
    let d := start.run (c.models overrides) actions
    d.Purchase c overrides price account.cash request ∧
      ((d.order? request.id).map Order.status = some .invalid ↔
        ∃ check ∈ start.powerChecks c overrides request.id actions, check.sufficient = false) ∧
      (start.powerChecks c overrides request.id actions = [] →
        (d.docket request.id).firstFill? = none) := by
  intro start
  -- on the last action: the answer it gives is about what the run before has left
  induction actions using List.reverseRecOn with
  | nil =>
    exact ⟨opening_purchase h.holdings memory, iff_of_false nofun nofun, fun _ => rfl⟩
  | append_singleton earlier a ih =>
    obtain ⟨hpurchase, hinvalid, hfirst⟩ := ih h.of_append
    have hstep := step_carriesOn hpurchase (run_orderly _ account memory earlier) h.slippage
      h.price_pos h.kind h.buys h.fresh (h.attends a (List.mem_append_right _ List.mem_cons_self))
      (fun now ha => h.sees earlier now [] (ha ▸ rfl))
    have hrun : start.run (c.models overrides) (earlier ++ [a]) =
        (start.run (c.models overrides) earlier).step (c.models overrides) a :=
      run_append _ _ _ _
    rw [hrun, powerChecks_append, powerChecks_singleton]
    refine ⟨hstep.purchase, ?_, fun hnone => ?_⟩
    · rw [hstep.invalid_iff, hinvalid]
      simp only [List.mem_append, Option.mem_toList, or_and_right, exists_or]
    · obtain ⟨hnone, hunasked⟩ := List.append_eq_nil_iff.mp hnone
      refine (hstep.first (Option.toList_eq_nil_iff.mp hunasked)).trans (hfirst hnone)

/-- At every look of the run that asks, the account affords the order exactly if its cash has been
enough for the whole of it and the fees of its course so far. -/
theorem sufficient_iff (h : BuysAt c overrides account memory request price actions)
    {before after : List (Action Rat)} (hsplit : actions = before ++ a :: after)
    (hcheck : ((opening account memory).run (c.models overrides) before).powerCheck? c overrides
      request.id a = some check) :
    check.sufficient = true ↔
      request.quantity * price / effectiveLeverage c.power.leverage +
        (c.plan overrides request.symbol).total price request.quantity
          (((opening account memory).run (c.models overrides) before).docket
            request.id).firstFill? ≤ account.cash := by
  subst hsplit
  obtain ⟨hpurchase, -, -⟩ := h.of_append.run_purchase
  obtain ⟨now, o, security, rfl, hs, ho, hb, rfl⟩ :=
    powerCheck?_eq_some hpurchase (run_orderly _ account memory before) hcheck
  have hask := h.sees before now after rfl
  rw [hb] at hask
  exact hpurchase.check_iff h.buys hs ho (Option.some.inj hask)

/-- If the first answer is yes, the cash is enough for the whole order and its fee. -/
theorem le_cash (h : BuysAt c overrides account memory request price actions)
    (hfirst : ∀ check, ((opening account memory).powerChecks c overrides request.id actions).head? =
      some check → check.sufficient = true)
    (hasked : (opening account memory).powerChecks c overrides request.id actions ≠ []) :
    request.quantity * price / effectiveLeverage c.power.leverage +
      (c.plan overrides request.symbol).total price request.quantity none ≤ account.cash := by
  obtain ⟨before, a, after, check, rfl, hnone, hcheck, hhead⟩ := exists_first_powerCheck hasked
  obtain ⟨-, -, hunfilled⟩ := h.of_append.run_purchase
  rw [← hunfilled hnone]
  exact (h.sufficient_iff rfl hcheck).mp (hfirst check hhead)

end BuysAt

/-- The first fill stays the first. -/
theorem run_firstFill? (models : Models Rat (Usage Rat)) {first : OrderEvent Rat} {id : OrderId}
    (hf : d.ledger.WellFiled) (h : (d.docket id).firstFill? = some first)
    (actions : List (Action Rat)) :
    ((d.run models actions).docket id).firstFill? = some first := by
  refine run_keeps (P := fun e => (e.docket id).firstFill? = some first) ?_ hf h
  intro e a _ hf' h'
  have hstep := step_stepped models hf' a
  obtain ⟨published, hlog⟩ := hstep.log_prefix hf'
  rw [Docket.firstFill?, Floor.docket_events hlog.symm, List.find?_append]
  exact congrArg (Option.or · _) h'

/-- A buy at market that is filled in parts at one price, for an account that held cash only and
affords the order when it is first asked. The order becomes invalid exactly if a look after its
first fill asks again and the cash has not been enough for the whole order, the fee of the first
fill and the fee of the rest. That happens only where the fee is by the unit and the first fill is
too small to come up to its minimum. -/
theorem run_market_buy_invalid_iff (c : Config Rat) (overrides : Table String (FeePlan Rat))
    (account : Portfolio Rat) (memory : Usage Rat) (request : Order Rat) (price : Rat)
    (actions : List (Action Rat))
    (hbuys : BuysAt c overrides account memory request price actions)
    (hfirst : ∀ check, ((opening account memory).powerChecks c overrides request.id actions).head? =
      some check → check.sufficient = true) :
    let start : Desk Rat (Usage Rat) := opening account memory
    let models := c.models overrides
    let plan := c.plan overrides request.symbol
    let firstFill? (d : Desk Rat (Usage Rat)) := (eventsOf d.log request.id).find? OrderEvent.isFill
    let needed (first : OrderEvent Rat) :=
      request.quantity * price / effectiveLeverage c.power.leverage +
        (first.fee + plan.feeOf false price (request.quantity - first.fillQuantity))
    (((start.run models actions).order? request.id).map Order.status = some .invalid ↔
      ∃ before after first, actions = before ++ after ∧
        firstFill? (start.run models before) = some first ∧
        (start.run models before).powerChecks c overrides request.id after ≠ [] ∧
        account.cash < needed first) ∧
    ∀ first, firstFill? (start.run models actions) = some first → account.cash < needed first →
      ∃ rate minimum, plan = .perUnit rate minimum ∧ rate * first.fillQuantity < minimum := by
  intro start models plan firstFill? needed
  obtain ⟨hpurchase, hinvalid, hunasked⟩ := hbuys.run_purchase
  refine ⟨hinvalid.trans ⟨?_, ?_⟩, ?_⟩
  · -- the answer that is no comes after the first fill, for before it the sum is as at the first
    rintro ⟨check, hmem, hshort⟩
    obtain ⟨before, a, after, hsplit, hcheck⟩ := mem_powerChecks.mp hmem
    have hless := (hbuys.sufficient_iff hsplit hcheck).not.mp (by rw [hshort]; exact nofun)
    cases hfill : ((start.run models before).docket request.id).firstFill? with
    | none =>
      rw [hfill] at hless
      exact absurd (hbuys.le_cash hfirst (List.ne_nil_of_mem hmem)) hless
    | some first =>
      rw [hfill] at hless
      refine ⟨before, a :: after, first, hsplit, hfill, ?_, not_le.mp hless⟩
      rw [powerChecks, hcheck]
      exact List.cons_ne_nil _ _
  · -- once the sum is not in the cash, the next answer is no
    rintro ⟨before, after, first, rfl, hfill, hasked, hless⟩
    obtain ⟨between, a, rest, check, rfl, -, hcheck, -⟩ := exists_first_powerCheck hasked
    rw [← run_append] at hcheck
    have hfill' := run_firstFill? models
      (run_wellFiled models (opening_wellFiled account memory) before) hfill between
    rw [← run_append] at hfill'
    have hsplit : before ++ (between ++ a :: rest) = before ++ between ++ a :: rest :=
      (List.append_assoc _ _ _).symm
    have hiff := hbuys.sufficient_iff hsplit hcheck
    rw [hfill'] at hiff
    refine ⟨check, mem_powerChecks.mpr ⟨_, a, rest, hsplit, hcheck⟩, ?_⟩
    rw [← Bool.not_eq_true, hiff]
    exact not_le.mpr hless
  · intro first hfill hless
    have hasked : start.powerChecks c overrides request.id actions ≠ [] := fun hnone =>
      Option.some_ne_none first (hfill.symm.trans (hunasked hnone))
    obtain ⟨hfee, hcounts, hle⟩ := hpurchase.first first hfill
    -- otherwise the first fill has not added to the sum, which was in the cash
    by_contra hnot
    have htotal := FeePlan.total_le hfee (Scalar.tolerance_pos.le.trans hcounts)
      (hle.trans (hpurchase.progress_le hbuys.buys))
      fun rate minimum hplan => not_lt.mp fun hlt => hnot ⟨rate, minimum, hplan, hlt⟩
    have hwhole := hbuys.le_cash hfirst hasked
    exact absurd hless (not_lt.mpr ((add_le_add_right htotal _).trans hwhole))

/-- A purchase in two parts that takes the cash to the cent: the first part comes up to the minimum
fee, just so, and the order is not refused. -/
theorem run_market_buy_invalid_iff_of_two_parts :
    let c : Config Rat :=
      { Config.default with
        account := ⟨"USD", 1010⟩, fees := .perUnit 1 5, fill := ⟨0, 1 / 100, some (1 / 2)⟩ }
    let models := c.models Table.empty
    let account := Portfolio.ofConfig c.account
    let buy : Order Rat :=
      { id := 1, symbol := "SPY", quantity := 10, kind := .market, time := ⟨60⟩, filled := 0 }
    let bar (t : Int) : Action Rat := .showSnapshot (Snapshot.ofBar "SPY" (Bar.flat ⟨t⟩ 100 10))
    let actions := [bar 60, .place buy, .scan ⟨60⟩, .mark "SPY" 100, bar 120, .scan ⟨120⟩]
    let start : Desk Rat (Usage Rat) := opening account Table.empty
    let d := start.run models actions
    c.validate.isOk = true ∧ BuysAt c Table.empty account Table.empty buy 100 actions ∧
      (start.powerChecks c Table.empty 1 actions).map PowerCheck.sufficient = [true, true] ∧
      (eventsOf d.log 1).map (fun e => (e.status, e.fillQuantity, e.fee)) =
        [(.submitted, 0, 0), (.partiallyFilled, 5, 5), (.filled, 5, 5)] ∧
      d.account.cash = 0 ∧ ¬ (d.order? 1).map Order.status = some .invalid := by
  intro c models account buy bar actions start d
  have hsees : ∀ before ∈ actions.inits, before.isEmpty = true ∨
      ((start.run models before).board.get? "SPY").map Snapshot.askPrice = some 100 := by
    decide +kernel
  have hbuys : BuysAt c Table.empty account Table.empty buy 100 actions :=
    { slippage := by decide +kernel
      holdings := rfl
      kind := rfl
      buys := by decide
      fresh := rfl
      price_pos := by decide
      attends := by
        intro a ha
        simp only [actions, bar, List.mem_cons, List.not_mem_nil, or_false] at ha
        rcases ha with rfl | rfl | rfl | rfl | rfl | rfl <;> simp [Action.Attends]
      sees := by
        intro before now after hsplit
        refine (hsees before ((List.mem_inits _ _).mpr ⟨_, hsplit.symm⟩)).resolve_left ?_
        intro hempty
        rw [List.isEmpty_iff.mp hempty] at hsplit
        exact nomatch (List.cons.inj hsplit).1 }
  have hchecks : (start.powerChecks c Table.empty 1 actions).map PowerCheck.sufficient =
      [true, true] := by decide +kernel
  refine ⟨by decide +kernel, hbuys, hchecks, by decide +kernel, by decide +kernel, ?_⟩
  intro hinvalid
  obtain ⟨hiff, hminimum⟩ :=
    run_market_buy_invalid_iff c Table.empty account Table.empty buy 100 actions hbuys (by
      intro check hhead
      have hhead' := congrArg List.head? hchecks
      rw [List.head?_map, hhead] at hhead'
      exact Option.some.inj hhead')
  obtain ⟨before, after, first, hsplit, hfirst, -, hless⟩ := hiff.mp hinvalid
  have hfirst' : (d.docket 1).firstFill? = some first := by
    have hkept := run_firstFill? models
      (run_wellFiled models (opening_wellFiled account Table.empty) before) hfirst after
    rwa [← run_append, ← hsplit] at hkept
  have hfive : (d.docket 1).firstFill?.map OrderEvent.fillQuantity = some 5 := by decide +kernel
  rw [hfirst', Option.map_some, Option.some.injEq] at hfive
  obtain ⟨rate, minimum, hplan, hshort⟩ := hminimum first hfirst' hless
  have hplan : FeePlan.perUnit 1 5 = FeePlan.perUnit rate minimum := hplan
  cases hplan
  rw [hfive] at hshort
  exact absurd hshort (by decide +kernel)

/-- A purchase in two parts that is refused after the first. The check has reserved the minimum fee
for the whole order, the first part is charged all of it, and there is nothing left for the fee of
the rest. -/
theorem market_buy_refused_after_first_part :
    let c : Config Rat :=
      { Config.default with
        account := ⟨"USD", 1010⟩, fees := .perUnit 1 10, fill := ⟨0, 1 / 100, some (1 / 2)⟩ }
    let buy : Order Rat :=
      { id := 1, symbol := "SPY", quantity := 10, kind := .market, time := ⟨60⟩, filled := 0 }
    let bar (t : Int) : Action Rat := .showSnapshot (Snapshot.ofBar "SPY" (Bar.flat ⟨t⟩ 100 10))
    let actions := [bar 60, .place buy, .scan ⟨60⟩, bar 120, .scan ⟨120⟩]
    let start : Desk Rat (Usage Rat) := opening (Portfolio.ofConfig c.account) Table.empty
    let d := start.run (c.models Table.empty) actions
    c.validate.isOk = true ∧
      (start.powerChecks c Table.empty 1 actions).map PowerCheck.sufficient = [true, false] ∧
      (eventsOf d.log 1).map (fun e => (e.status, e.fillPrice, e.fillQuantity, e.fee)) =
        [(.submitted, 0, 0, 0), (.partiallyFilled, 100, 5, 10), (.invalid, 0, 0, 0)] ∧
      d.account.cash = 500 := by
  decide +kernel

end Desk

end TradingDesk
