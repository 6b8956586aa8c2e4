import Mathlib.Algebra.BigOperators.Ring.List
import Mathlib.Algebra.Order.BigOperators.Group.List
import Mathlib.Tactic.Ring
import TradingDesk.Proofs.Progress
import TradingDesk.Proofs.Reconciled
/- Proofs.Fees — what an order is charged over its whole life.

   A fee plan tells the first fill of an order from the later ones, and it tells
   them by the fill progress: an order whose progress does not count has had no
   fill. In exact arithmetic that is right after every run. The fills of an order
   are on one side, so each of them is a part of the progress, and the progress of
   an order with a fill counts (`isUnfilled_eq`). So the first fill carries what the
   plan asks of a first one, each later fill what it asks of a later one, and no
   other event carries anything (`run_fees`), whatever was updated in between and
   however the fills were cut by the volume of bars. -/
namespace TradingDesk

variable {σ τ : Type}

/-! ## Fees of one fill -/

namespace FeePlan

/-- The fee of a fill under the plan. -/
def feeOf (plan : FeePlan Rat) (isFirst : Bool) (price quantity : Rat) : Rat :=
  match plan with
  | perOrder fee => if isFirst then fee else 0
  | perUnit rate minimum =>
    if isFirst then max (rate * |quantity|) minimum else rate * |quantity|
  | basisPoints rate => price * |quantity| * rate / 10000

/-- The model of a plan charges a fill by whether the order has had one that counts. -/
theorem model_fee (plan : FeePlan Rat) (security : Snapshot Rat) (order : Order Rat) (price : Rat)
    {quantity : Rat} (hcounts : Scalar.tolerance ≤ |quantity|) :
    (plan.model : FeeModel Rat σ).fee security order price quantity =
      Trial.give (plan.feeOf order.isUnfilled price quantity) := by
  have hn : ¬ Scalar.negligible quantity = true := by
    rw [Scalar.negligible_iff]
    exact not_lt.mpr hcounts
  rw [FeeModel.fee, if_neg hn]
  cases plan with
  | perOrder fee =>
    show (if order.isUnfilled then Trial.give fee else Trial.give 0) = _
    rw [← apply_ite]
    rfl
  | perUnit rate minimum =>
    show Trial.give (charge (perUnit rate minimum) order price quantity) = _
    simp only [charge, feeOf, Scalar.abs_rat, Scalar.max_rat]
  | basisPoints rate =>
    show Trial.give (charge (basisPoints rate) order price quantity) = _
    simp only [charge, feeOf, Scalar.abs_rat]
    rfl

/-! ## Fees of all fills -/

/-- The fees of an order's fills, of which `first` is the first, are those of the plan. A flat fee
is charged once; a fee by the unit is charged for all units, and what the first fill falls short of
the minimum is charged once; a share of the amount is charged for each amount. -/
def Bills (plan : FeePlan Rat) (first : OrderEvent Rat) (later : List (OrderEvent Rat)) : Prop :=
  match plan with
  | perOrder fee => first.fee = fee ∧ ∀ e ∈ later, e.fee = 0
  | perUnit rate minimum =>
    first.fee = max (rate * |first.fillQuantity|) minimum ∧
    (∀ e ∈ later, e.fee = rate * |e.fillQuantity|) ∧
    ((first :: later).map OrderEvent.fee).sum =
      rate * ((first :: later).map fun e => |e.fillQuantity|).sum +
        max 0 (minimum - rate * |first.fillQuantity|)
  | basisPoints rate => ∀ e ∈ first :: later, e.fee = e.fillPrice * |e.fillQuantity| * rate / 10000

variable {plan : FeePlan Rat} {first e : OrderEvent Rat} {later events : List (OrderEvent Rat)}

/-- The plan bills what it charges fill by fill. -/
theorem bills_of_fees (hfirst : first.fee = plan.feeOf true first.fillPrice first.fillQuantity)
    (hlater : ∀ e ∈ later, e.fee = plan.feeOf false e.fillPrice e.fillQuantity) :
    plan.Bills first later := by
  cases plan with
  | perOrder fee => exact ⟨hfirst, hlater⟩
  | perUnit rate minimum =>
    have hsum : (later.map OrderEvent.fee).sum =
        rate * (later.map fun e => |e.fillQuantity|).sum := by
      rw [List.map_congr_left hlater]
      exact List.sum_map_mul_left later (fun e => |e.fillQuantity|) rate
    have hexcess : max (rate * |first.fillQuantity|) minimum =
        rate * |first.fillQuantity| + max 0 (minimum - rate * |first.fillQuantity|) := by
      rw [← max_add_add_left, add_zero, add_sub_cancel]
    refine ⟨hfirst, hlater, ?_⟩
    rw [List.map_cons, List.sum_cons, List.map_cons, List.sum_cons, hsum, mul_add]
    calc first.fee + rate * (later.map fun e => |e.fillQuantity|).sum
        = rate * |first.fillQuantity| + max 0 (minimum - rate * |first.fillQuantity|) +
            rate * (later.map fun e => |e.fillQuantity|).sum := by
          rw [← hexcess]
          exact congrArg (· + _) hfirst
      _ = rate * |first.fillQuantity| + rate * (later.map fun e => |e.fillQuantity|).sum +
            max 0 (minimum - rate * |first.fillQuantity|) := by ring
  | basisPoints rate =>
    rw [Bills, List.forall_mem_cons]
    exact ⟨hfirst, hlater⟩

/-- Among the events the first fill carries the plan's fee for a first one, each later fill that for
a later one, and nothing else carries a fee or fills anything. -/
structure Covers (plan : FeePlan Rat) (events : List (OrderEvent Rat)) : Prop where
  quiet : ∀ e ∈ events, e.isFill = false → e.fee = 0 ∧ e.fillQuantity = 0
  fills : ∀ first later, events.filter OrderEvent.isFill = first :: later →
    first.fee = plan.feeOf true first.fillPrice first.fillQuantity ∧
      ∀ e ∈ later, e.fee = plan.feeOf false e.fillPrice e.fillQuantity

theorem covers_nil (plan : FeePlan Rat) : plan.Covers [] where
  quiet := List.forall_mem_nil _
  fills _ _ h := absurd h.symm (List.cons_ne_nil _ _)

theorem Covers.concat_quiet (h : plan.Covers events) (hfee : e.fee = 0) (hq : e.fillQuantity = 0) :
    plan.Covers (events ++ [e]) := by
  have he : e.isFill = false := OrderEvent.isFill_of_zero hq
  have hfills : (events ++ [e]).filter OrderEvent.isFill = events.filter OrderEvent.isFill := by
    rw [List.filter_append, List.filter_cons_of_neg (he ▸ Bool.false_ne_true), List.filter_nil,
      List.append_nil]
  refine ⟨?_, ?_⟩
  · rw [List.forall_mem_append, List.forall_mem_singleton]
    exact ⟨h.quiet, fun _ => ⟨hfee, hq⟩⟩
  · rw [hfills]
    exact h.fills

theorem Covers.concat_fill (h : plan.Covers events) (he : e.isFill = true)
    (hfee : e.fee = plan.feeOf (events.filter OrderEvent.isFill).isEmpty e.fillPrice
      e.fillQuantity) : plan.Covers (events ++ [e]) := by
  have hfills : (events ++ [e]).filter OrderEvent.isFill =
      events.filter OrderEvent.isFill ++ [e] := by
    rw [List.filter_append, List.filter_cons_of_pos he, List.filter_nil]
  refine ⟨?_, ?_⟩
  · rw [List.forall_mem_append, List.forall_mem_singleton]
    refine ⟨h.quiet, fun hquiet => ?_⟩
    rw [he] at hquiet
    cases hquiet
  · intro first later hcons
    rw [hfills] at hcons
    cases hold : events.filter OrderEvent.isFill with
    | nil =>
      rw [hold] at hcons hfee
      cases hcons
      exact ⟨hfee, List.forall_mem_nil _⟩
    | cons first' later' =>
      rw [hold] at hcons hfee
      obtain ⟨rfl, rfl⟩ : first' = first ∧ later' ++ [e] = later := List.cons.inj hcons
      obtain ⟨hfirst, hlater⟩ := h.fills first' later' hold
      refine ⟨hfirst, ?_⟩
      rw [List.forall_mem_append, List.forall_mem_singleton]
      exact ⟨hlater, hfee⟩

end FeePlan

/-! ## First fills -/

/-- Of fills on one side, each is a part of what they fill in all. -/
theorem FillsOn.partOf {side : SignType} {events : List (OrderEvent Rat)} {e : OrderEvent Rat}
    (h : FillsOn side events) (he : e ∈ events) :
    PartOf e.fillQuantity (totalFilled events) := by
  have hmem : e.fillQuantity ∈ events.map OrderEvent.fillQuantity := List.mem_map_of_mem he
  rcases le_total 0 side with hside | hside
  · have hnonneg : ∀ quantity ∈ events.map OrderEvent.fillQuantity, 0 ≤ quantity := by
      rw [List.forall_mem_map]
      intro e he
      by_cases hq : e.fillQuantity = 0
      · exact hq.ge
      · rw [← sign_nonneg_iff, h e he hq]
        exact hside
    exact .inl ⟨hnonneg _ hmem, List.single_le_sum hnonneg _ hmem⟩
  · have hnonpos : ∀ quantity ∈ events.map OrderEvent.fillQuantity, quantity ≤ 0 := by
      rw [List.forall_mem_map]
      intro e he
      by_cases hq : e.fillQuantity = 0
      · exact hq.le
      · rw [← sign_nonpos_iff, h e he hq]
        exact hside
    have hle := List.single_le_sum (l := (events.map OrderEvent.fillQuantity).map fun x => -x)
      (by simpa using hnonpos) (-e.fillQuantity) (by simpa using hmem)
    rw [← List.sum_neg] at hle
    exact .inr ⟨neg_le_neg_iff.mp hle, hnonpos _ hmem⟩

namespace Models

/-- The models with the built-in fee models of some plans. -/
def charging {α : Type} [Scalar α] (models : Models α σ) (plans : FeePlans α) : Models α σ :=
  { models with fees := fun symbol => (plans.plan symbol).model }

/-- The fee models are those of the plans. -/
def Charges (models : Models Rat σ) (plans : FeePlans Rat) : Prop :=
  ∀ symbol, models.fees symbol = (plans.plan symbol).model

variable {models : Models Rat σ} {c : FillConfig Rat} {plans : FeePlans Rat}

/-- What a pass issues about an order carries nothing, or it fills a quantity that counts and
carries the plan's fee for it. -/
theorem Issues.charged (rules : models.fill.FollowsRules c) (charges : models.Charges plans)
    {now : Instant} {order : Order Rat} {event : OrderEvent Rat} {kind : OrderKind Rat}
    (h : models.Issues now order event kind) :
    event.fee = 0 ∧ event.fillQuantity = 0 ∨
      event.isFill = true ∧ event.fee =
        (plans.plan order.symbol).feeOf order.isUnfilled event.fillPrice event.fillQuantity := by
  cases h with
  | closing message hs => exact .inl ⟨rfl, rfl⟩
  | answer hattempt =>
    obtain ⟨answered, ha, hanswer⟩ := attemptFill_cases hattempt
    have hdrawn := rules _ _ _ answered _ ha
    rcases hanswer with ⟨hquiet, rfl⟩ | ⟨hfill, fee, m, m', hfee, rfl⟩
    · -- what is no fill is as the rules answered it: without quantity and without a fee
      refine .inl ⟨?_, hdrawn.symbol_and_counts.2.resolve_right (hquiet ▸ Bool.false_ne_true)⟩
      rcases hdrawn with rfl | ⟨price, u, rfl⟩
      · rfl
      · unfold FillConfig.filled
        split <;> rfl
    · rw [charges, FeePlan.model_fee _ _ _ _ (OrderEvent.isFill_iff.mp hfill)] at hfee
      exact .inr ⟨hfill, (Except.ok.inj (Prod.mk.inj hfee).1).symm⟩

end Models

namespace Docket

variable {models : Models Rat σ} {c : FillConfig Rat} {plans : FeePlans Rat} {id : OrderId}
  {k k' : Docket Rat} {symbol : String} {plan : FeePlan Rat}

/-- The fill progress of an order on course tells whether any of its events is a fill. -/
theorem isUnfilled_eq (hc : k.OnCourse) (hb : k.Balanced 0) (hcovers : plan.Covers k.events)
    {o : Order Rat} (ho : k.order = some o) :
    o.isUnfilled = (k.events.filter OrderEvent.isFill).isEmpty := by
  obtain ⟨_, ho', -, hside⟩ := hc
  obtain rfl := Option.some.inj (ho.symm.trans ho')
  obtain ⟨_, ho', hfilled⟩ := hb
  obtain rfl := Option.some.inj (ho.symm.trans ho')
  rw [zero_add] at hfilled
  rw [Bool.eq_iff_iff, Order.isUnfilled, Scalar.negligible_iff, List.isEmpty_iff,
    List.filter_eq_nil_iff, hfilled]
  constructor
  · intro hsmall e he hfill
    have hcounts := OrderEvent.isFill_iff.mp hfill
    linarith [(hside.partOf he).abs_le]
  · intro hnone
    have hzero : totalFilled k.events = 0 := by
      apply List.sum_eq_zero
      rw [List.forall_mem_map]
      intro e he
      exact (hcovers.quiet e he (Bool.not_eq_true _ ▸ hnone e he)).2
    rw [hzero, abs_zero]
    exact Scalar.tolerance_pos

/-- The order is on the symbol, and the plan covers its events. -/
def Charged (plan : FeePlan Rat) (symbol : String) (k : Docket Rat) : Prop :=
  plan.Covers k.events ∧ ∃ o, k.order = some o ∧ o.symbol = symbol

theorem Turn.charged (rules : models.fill.FollowsRules c) (charges : models.Charges plans)
    (h : Turn models id k k') (hc : k.OnCourse) (hb : k.Balanced 0)
    (hk : k.Charged (plans.plan symbol) symbol) : k'.Charged (plans.plan symbol) symbol := by
  obtain ⟨hcovers, o, ho, hsymbol⟩ := hk
  cases h with
  | place => cases ho
  | update request time hv =>
    cases ho
    exact ⟨hcovers.concat_quiet rfl rfl, _, rfl, (Order.applyUpdate_symbol _ _).trans hsymbol⟩
  | cancel time =>
    cases ho
    exact ⟨hcovers.concat_quiet rfl rfl, _, rfl, hsymbol⟩
  | rekind hopen hi =>
    cases ho
    exact ⟨hcovers, _, rfl, hsymbol⟩
  | @book stored asked pending events now event issued kind ha hi hid hkind =>
    cases ho
    obtain rfl := hi.asked_eq rules.keepsToOrder hid hkind
    refine ⟨?_, _, rfl, hsymbol⟩
    rcases hi.charged rules charges with ⟨hfee, hq⟩ | ⟨hfill, hfee⟩
    · exact hcovers.concat_quiet hfee hq
    · apply hcovers.concat_fill hfill
      rw [hfee, hsymbol, isUnfilled_eq hc hb hcovers rfl]
  | drop hdone => exact ⟨hcovers, o, ho, hsymbol⟩

theorem charged_placed (plan : FeePlan Rat) (request : Order Rat) (time : Instant) :
    (⟨some (Desk.filedOrder request), true,
      [OrderEvent.of (Desk.filedOrder request) time .submitted]⟩ : Docket Rat).Charged plan
        request.symbol :=
  ⟨plan.covers_nil.concat_quiet rfl rfl, _, rfl, request.addBrokerId_symbol _⟩

theorem balanced_placed {request : Order Rat} (hfresh : request.filled = 0) (time : Instant) :
    (⟨some (Desk.filedOrder request), true,
      [OrderEvent.of (Desk.filedOrder request) time .submitted]⟩ : Docket Rat).Balanced 0 := by
  have hnone : totalFilled [OrderEvent.of (Desk.filedOrder request) time .submitted] = 0 :=
    totalFilled_concat_zero Scalar.addsExactly_rat [] rfl
  refine ⟨_, rfl, ?_⟩
  rw [Desk.filedOrder_filled, hfresh, hnone, add_zero]

theorem charged_of_turns (rules : models.fill.FollowsRules c) (charges : models.Charges plans)
    (h : Relation.ReflTransGen (Turn models id) k k') (hs : k.Sound id) (hc : k.OnCourse)
    (hb : k.Balanced 0) (hk : k.Charged (plans.plan symbol) symbol) :
    k'.Charged (plans.plan symbol) symbol := by
  induction h with
  | refl => exact hk
  | tail hturns hturn ih =>
    exact hturn.charged rules charges (onCourse_of_turns rules hturns hs hc)
      (balanced_of_turns Scalar.addsExactly_rat hturns hb) ih

end Docket

/-! ## Whole runs -/

namespace Desk

/-- The fees of an order over its whole life, under the built-in fill rules and fee plans. After
every run, the fills of an accepted order that was placed without a fill are billed by the plan of
its symbol; and every other event of it carries no fee and no fill, and leaves an account as it
is. -/
theorem run_fees (c : FillConfig Rat) (plans : FeePlans Rat) (models : Models Rat τ)
    (account : Portfolio Rat) (memory : Usage Rat × τ) (actions : List (Action Rat))
    (request : Order Rat)
    (haccepts : Accepts ((models.withFill c.fillModel).charging plans) (opening account memory)
      actions request) (hfresh : request.filled = 0) :
    let suite := (models.withFill c.fillModel).charging plans
    let events := eventsOf ((opening account memory).run suite actions).log request.id
    (∀ first later, events.filter OrderEvent.isFill = first :: later →
      (plans.plan request.symbol).Bills first later) ∧
    ∀ e ∈ events, e.isFill = false →
      e.fee = 0 ∧ e.fillQuantity = 0 ∧ ∀ p : Portfolio Rat, p.applyFill e = p := by
  intro suite events
  have rules : suite.fill.FollowsRules c := models.withFill_followsRules c
  have charges : suite.Charges plans := fun _ => rfl
  obtain ⟨time, hturns⟩ := run_turns_of_accepted haccepts
  have hcharged := Docket.charged_of_turns rules charges hturns (Docket.sound_placed request time)
    (Docket.onCourse_placed (validate_of_accepts haccepts) hfresh time)
    (Docket.balanced_placed hfresh time)
    (Docket.charged_placed (plans.plan request.symbol) request time)
  obtain ⟨hcovers, -⟩ := hcharged
  constructor
  · intro first later hfills
    obtain ⟨hfirst, hlater⟩ := hcovers.fills first later hfills
    exact FeePlan.bills_of_fees hfirst hlater
  · intro e he hquiet
    obtain ⟨hfee, hq⟩ := hcovers.quiet e he hquiet
    exact ⟨hfee, hq, fun p => Portfolio.applyFill_of_not_fill hquiet⟩

/-- An order with a fee by the unit that is filled over three bars, the first of which falls short
of the minimum, and resized in between. -/
theorem run_fees_of_partial_fills :
    let c : FillConfig Rat := ⟨0, 1 / 100, some (1 / 2)⟩
    let plans : FeePlans Rat := ⟨.basisPoints 5, Table.empty.insert "SPY" (.perUnit (1 / 10) 2)⟩
    let models : Models Rat (Usage Rat) := Config.default.models Table.empty
    let suite := (models.withFill c.fillModel).charging plans
    let start : Portfolio Rat := Portfolio.ofCash "USD" 50000
    let buy : Order Rat :=
      { id := 7, symbol := "SPY", quantity := 40, kind := .market, time := ⟨0⟩, filled := 0 }
    let bar (t : Int) (volume : Rat) : Action Rat :=
      .showSnapshot (Snapshot.ofBar "SPY" (Bar.flat ⟨t⟩ 100 volume))
    let rest := [.scan ⟨60⟩, .update { buy with quantity := 60 }, bar 120 0, .scan ⟨120⟩,
      bar 180 60, .scan ⟨180⟩, bar 240 100, .scan ⟨240⟩]
    let actions := bar 60 24 :: .place buy :: rest
    let events := eventsOf ((opening start (Table.empty, Table.empty)).run suite actions).log buy.id
    Accepts suite (opening start (Table.empty, Table.empty)) actions buy ∧
      events.map (fun e => (e.status, e.fillQuantity, e.fee)) =
        [(.submitted, 0, 0), (.partiallyFilled, 12, 2), (.submitted, 0, 0),
          (.partiallyFilled, 30, 3), (.filled, 18, 9 / 5)] ∧
      (events.filter OrderEvent.isFill).length = 3 ∧
      plans.plan buy.symbol = .perUnit (1 / 10) 2 ∧
      (∀ first later, events.filter OrderEvent.isFill = first :: later →
        (plans.plan buy.symbol).Bills first later) ∧
      ∀ e ∈ events, e.isFill = false →
        e.fee = 0 ∧ e.fillQuantity = 0 ∧ ∀ p : Portfolio Rat, p.applyFill e = p := by
  intro c plans models suite start buy bar rest actions events
  have haccepts : Accepts suite (opening start (Table.empty, Table.empty)) actions buy :=
    ⟨[bar 60 24], rest, rfl, by decide +kernel⟩
  have h := run_fees c plans models start (Table.empty, Table.empty) actions buy haccepts rfl
  -- at the default transparency the run itself would be unfolded
  refine ⟨haccepts, by decide +kernel, by decide +kernel, by decide +kernel, ?_⟩
  with_reducible exact h

end Desk

end TradingDesk
