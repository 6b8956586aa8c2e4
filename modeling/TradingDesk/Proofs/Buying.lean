import TradingDesk.Proofs.Funding
import TradingDesk.Proofs.Tradable
/- Proofs.Buying — desks that are only asked to buy.

   Where every order that a desk accepts buys, all stored orders buy whatever they
   are updated to, since an update stays on its order's side, and no position is ever
   short. Orders with a limit stay orders with a limit if every update names one, and
   orders without stay without. `Buying` is this invariant: a look at an order keeps it
   (`Visited.buying`), a step of the desk keeps it, and so it holds after every run
   (`run_buying`). What it is for is `judge_funded`: under the built-in models of a cash
   account every fill is funded. -/
namespace TradingDesk

variable {σ : Type}

/-! ## Orders to buy -/

section Kinds

variable {α : Type}

theorem OrderKind.limitPrice?_trigger (kind : OrderKind α) (reached : Bool) :
    (kind.trigger reached).limitPrice? = kind.limitPrice? := by
  cases kind <;> rfl

theorem OrderKind.stopPrice?_trigger (kind : OrderKind α) (reached : Bool) :
    (kind.trigger reached).stopPrice? = kind.stopPrice? := by
  cases kind <;> rfl

end Kinds

theorem OrderKind.Usable.trigger {kind : OrderKind Rat} (h : kind.Usable) (reached : Bool) :
    (kind.trigger reached).Usable := by
  intro price hprice
  rw [limitPrice?_trigger, stopPrice?_trigger] at hprice
  exact h price hprice

/-- A valid order names no price that cannot be traded at. -/
theorem Order.usable_of_validate {o : Order Rat} (h : o.validate.isOk = true) : o.kind.Usable := by
  have hgood : o.badPrice? = none := by
    rw [validate] at h
    split at h
    · cases h
    · split at h
      · cases h
      · split at h
        · cases h
        · assumption
  rw [badPrice?, List.find?_eq_none] at hgood
  intro price hprice
  have hmem : price ∈ o.kind.limitPrice?.toList ++ o.kind.stopPrice?.toList := by
    rw [List.mem_append, Option.mem_toList, Option.mem_toList]
    exact hprice
  have husable := hgood price hmem
  rw [Bool.not_eq_true', Bool.not_eq_false, isUsablePrice, Bool.and_eq_true] at husable
  exact of_decide_eq_true husable.2

/-- An order to buy on course, with prices that can be traded at. It has a limit, as limits and
stop-limits do, or it has none. -/
structure Order.Buys (limited : Bool) (o : Order Rat) : Prop where
  course : o.OnCourse
  buys : 0 < o.quantity
  usable : o.kind.Usable
  limit : o.kind.limitPrice?.isSome = limited

namespace Order.Buys

variable {limited : Bool} {o request : Order Rat}

theorem filed (hv : request.validate.isOk = true) (hfresh : request.filled = 0)
    (hbuys : 0 < request.quantity) (hlimit : request.kind.limitPrice?.isSome = limited) :
    (Desk.filedOrder request).Buys limited := by
  have hkind : (Desk.filedOrder request).kind = request.kind := request.addBrokerId_kind _
  refine ⟨onCourse_filed hv hfresh, ?_, ?_, ?_⟩
  · rw [Desk.filedOrder_quantity]
    exact hbuys
  · rw [hkind]
    exact usable_of_validate hv
  · rw [hkind]
    exact hlimit

theorem withKind (h : o.Buys limited) (reached : Bool) :
    (o.withKind (o.kind.trigger reached)).Buys limited := by
  refine ⟨⟨h.course.part, h.course.left, h.course.done⟩, h.buys, h.usable.trigger reached, ?_⟩
  rw [Order.withKind, OrderKind.limitPrice?_trigger]
  exact h.limit

/-- An update of an order to buy stays one, on the side that it must keep to. -/
theorem applyUpdate (h : o.Buys limited) (ho : o.status.isTerminal = false)
    (hv : (o.validateUpdate request).isOk = true)
    (hlimit : request.kind.limitPrice?.isSome = limited) :
    (o.applyUpdate (Desk.named request)).Buys limited := by
  have hside := h.course.sign_applyUpdate ho request hv
  rw [sign_pos h.buys, sign_eq_one_iff] at hside
  have hkind : (o.applyUpdate (Desk.named request)).kind =
      request.kind.trigger o.kind.isTriggered := by
    rw [applyUpdate_kind, Desk.named, addBrokerId_kind]
  refine ⟨h.course.applyUpdate ho request hv, hside, ?_, ?_⟩
  · rw [hkind]
    exact (usable_of_validate (validateUpdate_ok hv).1).trigger _
  · rw [hkind, OrderKind.limitPrice?_trigger]
    exact hlimit

theorem canceled (h : o.Buys limited) : ({ o with status := .canceled } : Order Rat).Buys limited :=
  ⟨h.course.closed (.inr rfl), h.buys, h.usable, h.limit⟩

theorem tolerance_le_remaining (h : o.Buys limited) (ho : o.status.isTerminal = false) :
    Scalar.tolerance ≤ o.remaining := by
  have hleft := h.course.left ho
  rw [remaining_of_left hleft]
  have hnonneg : 0 ≤ o.quantity - o.filled := by
    rcases h.course.part with ⟨-, hle⟩ | ⟨hle, hneg⟩
    · exact sub_nonneg.mpr hle
    · linarith [h.buys]
  rwa [abs_of_nonneg hnonneg] at hleft

theorem tolerance_le_abs_remaining (h : o.Buys limited) (ho : o.status.isTerminal = false) :
    Scalar.tolerance ≤ |o.remaining| :=
  (h.tolerance_le_remaining ho).trans (le_abs_self _)

/-- What a pass issues about an order to buy buys, and leaves an order to buy. -/
theorem issued {models : Models Rat σ} {c : FillConfig Rat} {now : Instant}
    {event : OrderEvent Rat} {kind : OrderKind Rat} (h : o.Buys limited)
    (rules : models.fill.FollowsRules c) (marks : models.fill.MarksStops)
    (ho : o.status.isTerminal = false) (hi : models.Issues now o event kind) :
    (o.withKind kind).Buys limited ∧ ((o.withKind kind).booked event).Buys limited ∧
      0 ≤ event.fillQuantity := by
  obtain ⟨reached, rfl⟩ := hi.kind_eq marks
  have hkind := h.withKind reached
  obtain ⟨hbooked, hside⟩ := h.course.issued rules ho hi
  refine ⟨hkind, ⟨⟨hbooked.part, hbooked.left, hbooked.done⟩, hkind.buys, hkind.usable,
    hkind.limit⟩, ?_⟩
  by_cases hq : event.fillQuantity = 0
  · exact hq.ge
  · have hsign := hside hq
    rw [sign_pos h.buys, sign_eq_one_iff] at hsign
    exact hsign.le

end Order.Buys

/-! ## Floors with orders to buy -/

/-- Filing an order that has a property among orders that have it leaves only such orders. -/
theorem Ledger.Refiled.forall_orders {α : Type} {l l' : Ledger α} {id : OrderId} {order : Order α}
    {pending : Bool} (h : Refiled l l' id order pending) {P : Order α → Prop}
    (hl : ∀ j o, l.get? j = some o → P o) (ho : P order) : ∀ j o, l'.get? j = some o → P o := by
  intro j o hs
  by_cases hj : j = id
  · rw [hj, h.get?_self] at hs
    exact Option.some.inj hs ▸ ho
  · rw [h.get?_of_ne hj] at hs
    exact hl j o hs

/-- What a fill buys leaves no position short where none was. -/
theorem Portfolio.quantityHeld_applyFill_nonneg {p : Portfolio Rat} {e : OrderEvent Rat}
    (hp : ∀ symbol, 0 ≤ p.quantityHeld symbol) (hq : 0 ≤ e.fillQuantity) (symbol : String) :
    0 ≤ (p.applyFill e).quantityHeld symbol := by
  cases he : e.isFill with
  | false =>
    rw [applyFill_of_not_fill he]
    exact hp symbol
  | true =>
    rw [quantityHeld_eq, quantity?_applyFill he]
    split
    · split
      · exact le_refl 0
      · exact add_nonneg (hp e.symbol) hq
    · exact hp symbol

namespace Floor

/-- All stored orders buy, with a limit or without, and no position is short. -/
structure Buying (limited : Bool) (f : Floor Rat σ) : Prop where
  orders : ∀ id o, f.ledger.get? id = some o → o.Buys limited
  longs : ∀ symbol, 0 ≤ f.account.quantityHeld symbol

variable {models : Models Rat σ} {c : FillConfig Rat} {board : Board Rat} {now : Instant}
  {id : OrderId} {f f' : Floor Rat σ} {needed limited : Bool}

theorem Visited.buying (rules : models.fill.FollowsRules c) (marks : models.fill.MarksStops)
    (h : Visited models now id f f' needed) (hf : f.ledger.WellFiled) (hb : f.Buying limited) :
    f'.Buying limited := by
  cases h with
  | stale hs hl ha hg => exact ⟨hl ▸ hb.orders, ha ▸ hb.longs⟩
  | held hl ha hg => exact ⟨hl ▸ hb.orders, ha ▸ hb.longs⟩
  | @rekinded order _ kind hs ho hi hl ha hg =>
    have hkind := ((hb.orders id order hs).issued rules marks ho hi).1
    exact ⟨hl ▸ (Ledger.setKind_refiled kind hs).forall_orders hb.orders hkind, ha ▸ hb.longs⟩
  | @booked order event kind hs ho hi hl ha hg =>
    obtain ⟨-, hbooked, hq⟩ := (hb.orders id order hs).issued rules marks ho hi
    have he : event.orderId = id := (hi.orderId rules.keepsToOrder).trans (hf id order hs)
    have hr := Ledger.setKind_record?_refiled hs he hl
    exact ⟨hr.forall_orders hb.orders hbooked,
      ha ▸ Portfolio.quantityHeld_applyFill_nonneg hb.longs hq⟩

theorem visitAll_buying (rules : models.fill.FollowsRules c) (marks : models.fill.MarksStops)
    (ids : List OrderId) (hf : f.ledger.WellFiled) (hb : f.Buying limited) :
    (f.visitAll models board now ids).1.Buying limited :=
  visitAll_keeps (P := Buying limited) (fun _ _ _ _ hv hg h => hv.buying rules marks hg h) ids hf hb

theorem before_buying (rules : models.fill.FollowsRules c) (marks : models.fill.MarksStops)
    (board : Board Rat) (now : Instant) (id : OrderId) (hf : f.ledger.WellFiled)
    (hb : f.Buying limited) : (f.before models board now id).Buying limited :=
  visitAll_buying rules marks _ hf hb

end Floor

/-! ## Desks that are only asked to buy -/

namespace Desk

/-- A run accepts an update: it asks for it at some point, and is not turned away there. -/
def Updates (models : Models Rat σ) (d : Desk Rat σ) (actions : List (Action Rat))
    (request : Order Rat) : Prop :=
  ∃ earlier later, actions = earlier ++ .update request :: later ∧
    ((d.run models earlier).update request).accepted = true

/-- Every accepted placement is of a new order to buy, with a limit or without, and every accepted
update names a kind with a limit or without just so. -/
structure OnlyBuys (limited : Bool) (models : Models Rat σ) (d : Desk Rat σ)
    (actions : List (Action Rat)) : Prop where
  placed : ∀ request, Accepts models d actions request →
    request.filled = 0 ∧ 0 < request.quantity ∧ request.kind.limitPrice?.isSome = limited
  updated : ∀ request, Updates models d actions request →
    request.kind.limitPrice?.isSome = limited

theorem OnlyBuys.of_append {models : Models Rat σ} {d : Desk Rat σ} {limited : Bool}
    {actions earlier later : List (Action Rat)} (h : OnlyBuys limited models d actions)
    (hactions : actions = earlier ++ later) : OnlyBuys limited models d earlier where
  placed request haccepts :=
    h.placed request (haccepts.of_prefix (hactions ▸ List.prefix_append earlier later))
  updated request hupdates := by
    obtain ⟨before, after, rfl, haccepted⟩ := hupdates
    refine h.updated request ⟨before, after ++ later, ?_, haccepted⟩
    rw [hactions, List.append_assoc]
    rfl

/-- The same said of what an action asks for, whether it is accepted or not. -/
def AsksToBuy (limited : Bool) : Action Rat → Prop
  | .place request =>
    request.filled = 0 ∧ 0 < request.quantity ∧ request.kind.limitPrice?.isSome = limited
  | .update request => request.kind.limitPrice?.isSome = limited
  | _ => True

instance (limited : Bool) : DecidablePred (AsksToBuy limited)
  | .place request => inferInstanceAs (Decidable (request.filled = 0 ∧ _))
  | .update request => inferInstanceAs (Decidable (request.kind.limitPrice?.isSome = limited))
  | .cancel _ | .scan _ | .showSnapshot _ | .untrack _ | .mark _ _ => .isTrue trivial

theorem OnlyBuys.of_forall {models : Models Rat σ} {d : Desk Rat σ} {limited : Bool}
    {actions : List (Action Rat)} (h : ∀ a ∈ actions, AsksToBuy limited a) :
    OnlyBuys limited models d actions where
  placed request haccepts := by
    obtain ⟨earlier, later, rfl, -⟩ := haccepts
    exact h (.place request) (by simp)
  updated request hupdates := by
    obtain ⟨earlier, later, rfl, -⟩ := hupdates
    exact h (.update request) (by simp)

variable {models : Models Rat σ} {c : FillConfig Rat} {limited : Bool}

/-- Publishing an event without a fill leaves the account as it was. -/
theorem buying_filing {d : Desk Rat σ} {l : Ledger Rat} {id : OrderId} {order : Order Rat}
    {pending : Bool} {event : OrderEvent Rat} (hd : d.Buying limited)
    (hr : Ledger.Refiled d.ledger l id order pending) (ho : order.Buys limited)
    (hq : event.fillQuantity = 0) : (d.filing l event).Buying limited :=
  ⟨hr.forall_orders hd.orders ho, Portfolio.quantityHeld_applyFill_nonneg hd.longs hq.ge⟩

theorem step_buying {d : Desk Rat σ} (rules : models.fill.FollowsRules c)
    (marks : models.fill.MarksStops) (hf : d.ledger.WellFiled)
    (hsound : ∀ id, (d.docket id).Sound id) (hd : d.Buying limited) (a : Action Rat)
    (hplaced : ∀ request, a = .place request → (d.place request).accepted = true →
      request.filled = 0 ∧ 0 < request.quantity ∧ request.kind.limitPrice?.isSome = limited)
    (hupdated : ∀ request, a = .update request → (d.update request).accepted = true →
      request.kind.limitPrice?.isSome = limited) : (d.step models a).Buying limited := by
  cases a with
  | place request =>
    cases h : d.accepts request with
    | false =>
      rw [step, place_of_not_accepts h]
      exact hd
    | true =>
      obtain ⟨l, hr, hp⟩ := place_of_accepts h
      obtain ⟨-, -, hv⟩ := accepts_iff.mp h
      obtain ⟨hfresh, hbuys, hlimit⟩ := hplaced request rfl (place_accepted_iff.mpr h)
      rw [step, hp]
      exact buying_filing hd hr (.filed hv hfresh hbuys hlimit) rfl
  | update request =>
    cases h : d.acceptsUpdate request with
    | false =>
      rw [step, update_of_not_accepts h]
      exact hd
    | true =>
      obtain ⟨stored, l, hp, hs, hv, hr, hu⟩ := update_of_accepts h
      have hopen : stored.status.isTerminal = false := by
        obtain ⟨o, ho, hopen⟩ := (hsound request.id).pending_iff.mp hp
        rw [Option.some.inj (hs.symm.trans ho)]
        exact hopen
      have hlimit := hupdated request rfl (update_accepted_iff.mpr h)
      rw [step, hu]
      exact buying_filing hd hr ((hd.orders _ _ hs).applyUpdate hopen hv hlimit) rfl
  | cancel request =>
    rcases d.cancel_cases request with h | ⟨-, h⟩ | ⟨stored, hp, hs⟩
    · rw [step, h]
      exact hd
    · rw [step, h]
      exact ⟨hd.orders, hd.longs⟩
    · obtain ⟨l, hr, hc⟩ := cancel_of_pending hp hs
      rw [step, hc]
      exact buying_filing hd hr (hd.orders _ _ hs).canceled rfl
  | scan now =>
    rw [step, scan]
    split
    · exact Floor.visitAll_buying rules marks _ hf hd
    · exact hd
  | showSnapshot s => exact hd
  | untrack symbol => exact hd
  | mark symbol price =>
    refine ⟨hd.orders, ?_⟩
    intro s
    show 0 ≤ (d.account.mark symbol price).quantityHeld s
    rw [Portfolio.quantityHeld_eq, Portfolio.quantity?_mark]
    exact hd.longs s

theorem opening_buying {account : Portfolio Rat} (memory : σ)
    (hlongs : ∀ symbol, 0 ≤ account.quantityHeld symbol) :
    (opening account memory).Buying limited where
  orders _ _ h := by cases h
  longs := hlongs

theorem run_buying {account : Portfolio Rat} {memory : σ} {actions : List (Action Rat)}
    (rules : models.fill.FollowsRules c) (marks : models.fill.MarksStops)
    (hlongs : ∀ symbol, 0 ≤ account.quantityHeld symbol)
    (hbuys : OnlyBuys limited models (opening account memory) actions) :
    ((opening account memory).run models actions).Buying limited := by
  refine run_induction (P := fun d => d.Buying limited) (opening_buying memory hlongs) ?_
  intro earlier a later hactions hd
  have hf := run_wellFiled models (opening_wellFiled account memory) earlier
  refine step_buying rules marks hf (run_sound models account memory earlier) hd a ?_ ?_
  · rintro request rfl haccepted
    exact hbuys.placed request ⟨earlier, later, hactions, haccepted⟩
  · rintro request rfl haccepted
    exact hbuys.updated request ⟨earlier, later, hactions, haccepted⟩

end Desk

/-! ## Fills of a cash account -/

section CashAccount

variable {c : Config Rat} {board : Board Rat} {account : Portfolio Rat} {security : Snapshot Rat}
  {order : Order Rat} {now : Instant} {memory memory' : Usage Rat} {e : OrderEvent Rat}
  {kind : OrderKind Rat} {limited : Bool}

/-- The built-in power check is made with the fee of the whole unfilled quantity at the reference
price. -/
theorem checkPower_eq (hleverage : c.power.leverage = 1)
    (hleft : Scalar.tolerance ≤ |order.remaining|) :
    (c.models Table.empty).checkPower account security order memory =
      (.ok (account.check 1 security order
        (c.fees.feeOf order.isUnfilled (referencePrice security order) order.remaining)),
      memory) := by
  show (c.fees.model.fee security order (referencePrice security order) order.remaining).andThen
    (fun fee => Trial.give
      (account.check (effectiveLeverage c.power.leverage) security order fee)) memory = _
  rw [FeePlan.model_fee _ _ _ _ hleft, hleverage, effectiveLeverage_of_le (le_refl 1)]
  rfl

/-- A fill that the built-in models answer with is of a part of what is left, at the price of the
rules and with the fee of the plan. -/
theorem fill_of_attempt (hleft : 0 ≤ order.remaining) (hfill : e.isFill = true)
    (h : (c.models Table.empty).attemptFill security order now memory = (.ok (e, kind), memory')) :
    c.fill.price? security order = some e.fillPrice ∧
      (0 ≤ e.fillQuantity ∧ e.fillQuantity ≤ order.remaining) ∧
      e.fee = c.fees.feeOf order.isUnfilled e.fillPrice e.fillQuantity := by
  obtain ⟨answered, ha, ⟨hquiet, rfl⟩ | ⟨hcount, fee, m, m', hfee, rfl⟩⟩ :=
    Models.attemptFill_cases h
  · rw [hquiet] at hfill
    cases hfill
  change c.fees.model.fee security order answered.fillPrice answered.fillQuantity m =
    (.ok fee, m') at hfee
  rw [FeePlan.model_fee _ _ _ _ (OrderEvent.isFill_iff.mp hcount)] at hfee
  obtain rfl := Except.ok.inj (Prod.mk.inj hfee).1
  have hnone : ¬ (OrderEvent.unchanged order now).isFill = true :=
    Bool.not_eq_true _ ▸ OrderEvent.isFill_of_zero rfl
  obtain ⟨-, rfl | ⟨price, u, hprice, rfl⟩⟩ := FillConfig.fillModel_answers_at ha
  · exact absurd hcount hnone
  · have hpart := c.fill.fillQuantity_partOf security order u
    revert hcount hpart
    generalize (c.fill.fillQuantity security order u).1 = quantity
    intro hcount hpart
    have hn : ¬ Scalar.negligible quantity = true := by
      intro hn
      rw [FillConfig.filled, if_pos hn] at hcount
      exact hnone hcount
    rw [FillConfig.filled, if_neg hn]
    refine ⟨hprice, ?_, rfl⟩
    rcases hpart with hpart | ⟨hle, hneg⟩
    · exact hpart
    · exact ⟨hleft.trans hle, hneg.trans hleft⟩

theorem lastPrice_pos_of_reach
    (h : (c.models Table.empty).reach? board order now memory = some (security, memory')) :
    0 < security.lastPrice := by
  obtain ⟨-, -, -, hexecutable⟩ := Models.reach?_eq_some h
  have hallowed : c.execution.executable security = true := (Prod.mk.inj hexecutable).1
  exact of_decide_eq_true (Bool.and_eq_true _ _ ▸ hallowed).1

/-- A fill of an order to buy that has passed the check of a cash account is funded. -/
theorem funded_of_sufficient (hbuys : order.Buys limited) (ho : order.status.isTerminal = false)
    (hlong : 0 ≤ account.quantityHeld order.symbol) (hprice : 0 < security.lastPrice)
    (hsufficient : (account.check 1 security order (c.fees.feeOf order.isUnfilled
      (referencePrice security order) order.remaining)).sufficient = true)
    (hfill : e.isFill = true)
    (h : (c.models Table.empty).attemptFill security order now memory = (.ok (e, kind), memory')) :
    Funded c security account.cash order e := by
  have hleft : 0 < order.remaining :=
    Scalar.tolerance_pos.trans_le (hbuys.tolerance_le_remaining ho)
  obtain ⟨hpriced, hquantity, hfee⟩ := fill_of_attempt hleft.le hfill h
  refine ⟨hpriced, hquantity, hfee, ?_, ?_⟩
  · exact referencePrice_pos hbuys.usable hprice
  · exact Portfolio.le_cash_of_sufficient hlong hleft hsufficient

/-- Under the built-in models of a cash account, a fill of an order to buy is funded. -/
theorem judge_funded (hleverage : c.power.leverage = 1) (hbuys : order.Buys limited)
    (ho : order.status.isTerminal = false) (hlong : 0 ≤ account.quantityHeld order.symbol)
    (hfill : e.isFill = true)
    (h : ((c.models Table.empty).judge board account order now memory).1 = .answer e kind) :
    ∃ security, board.get? order.symbol = some security ∧
      Funded c security account.cash order e := by
  obtain ⟨security, m, hreach, hanswer⟩ := Models.judge_answer h
  obtain ⟨-, hb, -, -⟩ := Models.reach?_eq_some hreach
  obtain ⟨check, m₁, m₂, hpower, hsufficient, hattempt⟩ := Models.judgeExecutable_answer hanswer
  rw [checkPower_eq hleverage (hbuys.tolerance_le_abs_remaining ho)] at hpower
  obtain rfl := Except.ok.inj (Prod.mk.inj hpower).1
  exact ⟨security, hb, funded_of_sufficient hbuys ho hlong (lastPrice_pos_of_reach hreach)
    hsufficient hfill hattempt⟩

/-- An order to buy that gets to the built-in models of a cash account, and whose fill would cost
more than the cash although it is not above the reference price, is refused. -/
theorem judge_refused (hleverage : c.power.leverage = 1) (hplan : Config.feeFault? c.fees = none)
    (hbuys : order.Buys limited) (ho : order.status.isTerminal = false)
    (hlong : 0 ≤ account.quantityHeld order.symbol)
    (hreach : (c.models Table.empty).reach? board order now memory = some (security, memory'))
    (hattempt : ((c.models Table.empty).attemptFill security order now memory').1 = .ok (e, kind))
    (hfill : e.isFill = true) (hprice : e.fillPrice ≤ referencePrice security order)
    (hcost : account.cash < Portfolio.costOf e) :
    ∃ check, ((c.models Table.empty).judge board account order now memory).1 =
      .close (refusalEvent order now check) := by
  obtain ⟨security', -, hreach', hjudge⟩ | ⟨hreach', -, -⟩ :=
    (c.models Table.empty).judge_cases board account order now memory
  case inr =>
    rw [hreach] at hreach'
    cases hreach'
  obtain ⟨rfl, hm⟩ : security' = security ∧ _ = memory' :=
    Prod.mk.inj (Option.some.inj (hreach'.symm.trans hreach))
  rw [hjudge, hm, Models.judgeExecutable,
    checkPower_eq hleverage (hbuys.tolerance_le_abs_remaining ho)]
  simp only
  split
  · next hsufficient =>
    -- then the account has what was checked, and the fill costs no more than that
    have hfunded := funded_of_sufficient hbuys ho hlong (lastPrice_pos_of_reach hreach)
      hsufficient hfill (Prod.ext hattempt rfl)
    exact absurd hcost (not_lt.mpr (hfunded.costOf_le hplan hprice))
  · exact ⟨_, rfl⟩

end CashAccount

end TradingDesk
