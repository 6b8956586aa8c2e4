import TradingDesk.Proofs.Buying
import TradingDesk.Proofs.FillStage
/- Proofs.PositivePrice — which fills have a positive price.

   Without slippage every price of the rules is one that the market or the order names,
   so it is positive where these are (`price?_pos`). Slippage is added to that at the end,
   and only where the order has no limit (`price?_eq_map`). It is bounded by nothing:
   a sale at market loses it from its price even when that leaves less than nothing. A
   fill has a positive price exactly if it buys, is limited, or is priced above the
   slippage before that is taken off (`dispatch_fillPrice_pos_iff`). -/
namespace TradingDesk

/-- The last price is positive, and so are the open and the close of the bar if there is one. -/
structure Snapshot.Priced (security : Snapshot Rat) : Prop where
  last : 0 < security.lastPrice
  bar : ∀ bar, security.bar = some bar → 0 < bar.opening ∧ 0 < bar.close

namespace Snapshot.Priced

variable {security : Snapshot Rat} {stop limit price : Rat}

theorem range_opening (h : security.Priced) (isBuy : Bool) :
    0 < (security.range isBuy).opening := by
  unfold range
  split
  · next bar hbar => exact (h.bar bar hbar).1
  · exact touch_pos h.last isBuy

theorem opening (h : security.Priced) : 0 < security.opening := by
  unfold Snapshot.opening
  cases hbar : security.bar with
  | none => exact h.last
  | some bar => exact (h.bar bar hbar).1

theorem close (h : security.Priced) : 0 < security.close := by
  unfold Snapshot.close
  cases hbar : security.bar with
  | none => exact h.last
  | some bar => exact (h.bar bar hbar).2

theorem stopCross (h : security.Priced) (hstop : 0 < stop) (isBuy : Bool) :
    0 < security.stopCross isBuy stop := by
  have hopening := h.range_opening isBuy
  unfold Snapshot.stopCross
  rw [Scalar.max_rat, Scalar.min_rat]
  split
  · exact lt_max_of_lt_left hopening
  · exact lt_min hopening hstop

theorem limitCross? (h : security.Priced) (hlimit : 0 < limit) {isBuy : Bool}
    (hcross : security.limitCross? isBuy limit = some price) : 0 < price := by
  have hopening := h.range_opening isBuy
  cases isBuy with
  | true =>
    simp only [Snapshot.limitCross?, if_true, Scalar.min_rat, Option.ite_none_right_eq_some,
      Option.some.injEq] at hcross
    exact hcross.2 ▸ lt_min hopening hlimit
  | false =>
    simp only [Snapshot.limitCross?, Bool.false_eq_true, if_false, Scalar.max_rat,
      Option.ite_none_right_eq_some, Option.some.injEq] at hcross
    exact hcross.2 ▸ lt_max_of_lt_left hopening

end Snapshot.Priced

namespace FillConfig

variable {c : FillConfig Rat} {security : Snapshot Rat} {order : Order Rat} {price : Rat}

/-- The same rules without slippage. -/
def withoutSlippage (c : FillConfig Rat) : FillConfig Rat := { c with slippageTicks := 0 }

theorem slippage_withoutSlippage (c : FillConfig Rat) : c.withoutSlippage.slippage = 0 :=
  zero_mul c.tickSize

/-- Without slippage the rules only name positive prices. -/
theorem price?_pos (hpriced : security.Priced) (husable : order.kind.Usable)
    (hslippage : c.slippage = 0) (h : c.price? security order = some price) : 0 < price := by
  cases hk : order.kind with
  | market =>
    simp only [price?, hk, marketPrice?, slipped_of_none hslippage,
      Option.ite_none_right_eq_some, Option.some.injEq] at h
    exact h.2 ▸ Snapshot.touch_pos hpriced.last order.isBuy
  | limit limit =>
    simp only [price?, hk] at h
    exact hpriced.limitCross? (husable limit (.inl (by rw [hk]; rfl))) h
  | stopMarket stop =>
    simp only [price?, hk, stopMarketPrice?, slipped_of_none hslippage,
      Option.ite_none_right_eq_some, Option.some.injEq] at h
    exact h.2 ▸ hpriced.stopCross (husable stop (.inr (by rw [hk]; rfl))) order.isBuy
  | stopLimit stop limit triggered =>
    simp only [price?, hk] at h
    split at h
    · exact hpriced.limitCross? (husable limit (.inl (by rw [hk]; rfl))) h
    · split at h
      · simp only [triggerPrice?, Option.ite_none_right_eq_some, Option.some.injEq] at h
        exact h.2 ▸ hpriced.stopCross (husable stop (.inr (by rw [hk]; rfl))) order.isBuy
      · cases h
  | marketOnOpen =>
    simp only [price?, hk, crossPrice?, slipped_of_none hslippage, Option.ite_none_right_eq_some,
      Option.some.injEq] at h
    exact h.2 ▸ hpriced.opening
  | marketOnClose =>
    simp only [price?, hk, crossPrice?, slipped_of_none hslippage, Option.ite_none_right_eq_some,
      Option.some.injEq] at h
    exact h.2 ▸ hpriced.close

/-- Slippage comes last, and moves the prices of orders without a limit. -/
theorem price?_eq_map (c : FillConfig Rat) (security : Snapshot Rat) (order : Order Rat) :
    c.price? security order =
      (c.withoutSlippage.price? security order).map fun price =>
        if order.kind.limitPrice?.isSome then price else c.slipped order.isBuy price := by
  have hnone := slipped_of_none c.slippage_withoutSlippage
  cases hk : order.kind with
  | market =>
    simp only [price?, hk, marketPrice?, hnone, OrderKind.limitPrice?]
    split <;> rfl
  | limit limit => simp [price?, hk, OrderKind.limitPrice?]
  | stopMarket stop =>
    simp only [price?, hk, stopMarketPrice?, hnone, OrderKind.limitPrice?]
    split <;> rfl
  | stopLimit stop limit triggered => simp [price?, hk, OrderKind.limitPrice?]
  | marketOnOpen =>
    simp only [price?, hk, crossPrice?, hnone, OrderKind.limitPrice?]
    split <;> rfl
  | marketOnClose =>
    simp only [price?, hk, crossPrice?, hnone, OrderKind.limitPrice?]
    split <;> rfl

/-- A positive price stays positive with slippage exactly if the order buys, is limited, or is
priced above the slippage. -/
theorem slipped_pos_iff (hslippage : 0 ≤ c.slippage) (hprice : 0 < price) :
    (0 < if order.kind.limitPrice?.isSome then price else c.slipped order.isBuy price) ↔
      0 < order.quantity ∨ order.kind.limitPrice?.isSome = true ∨ c.slippage < price := by
  by_cases hlimit : order.kind.limitPrice?.isSome = true
  · rw [if_pos hlimit]
    exact iff_of_true hprice (.inr (.inl hlimit))
  · rw [if_neg hlimit, or_iff_right hlimit, slipped]
    by_cases hbuy : 0 < order.quantity
    · rw [Order.isBuy_of_pos hbuy, if_pos rfl]
      exact iff_of_true (add_pos_of_pos_of_nonneg hprice hslippage) (.inl hbuy)
    · rw [if_neg (mt Order.isBuy_iff.mp hbuy), or_iff_right hbuy, sub_pos]

/-- Two fills of one quantity differ in their price alone. -/
theorem filled_fillPrice {now : Instant} {quantity : Rat} (price' : Rat)
    (h : (filled order now price quantity).isFill = true) :
    filled order now price' quantity =
      { filled order now price quantity with fillPrice := price' } := by
  unfold filled at h ⊢
  split
  · next hnone =>
    rw [if_pos hnone, OrderEvent.isFill_of_zero rfl] at h
    cases h
  · rfl

end FillConfig

/-- A configuration that a desk can work with has ticks of a positive size. -/
theorem Config.tickSize_pos {c : Config Rat} (h : c.validate.isOk = true) :
    0 < c.fill.tickSize := by
  by_contra hnone
  have hfault : c.fault? ≠ none := by
    unfold fault?
    rw [if_pos (not_lt.mp hnone)]
    split <;> exact Option.some_ne_none _
  rw [validate] at h
  split at h
  · cases h
  · contradiction

theorem Config.slippage_nonneg {c : Config Rat} (h : c.validate.isOk = true) :
    0 ≤ c.fill.slippage :=
  mul_nonneg (Nat.cast_nonneg _) (tickSize_pos h).le

/-- Which fills have a positive price. Under settings that a desk can work with, at positive prices
of the market and for a valid order of any kind, the rules always answer, and without slippage they
would answer the same but for the price of a fill, which is then positive. With slippage it is
positive exactly if the order buys, is limited, or would be filled above the slippage without it. -/
theorem FillConfig.dispatch_fillPrice_pos_iff (c : Config Rat) (hvalid : c.validate.isOk = true)
    (security : Snapshot Rat) (hpriced : security.Priced) (order : Order Rat)
    (horder : order.validate.isOk = true) (now : Instant) (u : Usage Rat) :
    ∃ event unslipped kind u',
      c.fill.fillModel.dispatch security order now u = (.ok (event, kind), u') ∧
      c.fill.withoutSlippage.fillModel.dispatch security order now u =
        (.ok (unslipped, kind), u') ∧
      (event.isFill = true →
        unslipped = { event with fillPrice := unslipped.fillPrice } ∧
        0 < unslipped.fillPrice ∧
        (0 < event.fillPrice ↔ 0 < order.quantity ∨ order.kind.limitPrice?.isSome = true ∨
          c.fill.slippage < unslipped.fillPrice)) := by
  have hmoved := c.fill.price?_eq_map security order
  rw [dispatch_eq_outcome, dispatch_eq_outcome, outcome, outcome]
  cases hprice : c.fill.withoutSlippage.price? security order with
  | none =>
    rw [hprice, Option.map_none] at hmoved
    rw [hmoved]
    refine ⟨_, _, _, _, rfl, rfl, ?_⟩
    intro hfill
    rw [OrderEvent.isFill_of_zero rfl] at hfill
    cases hfill
  | some price =>
    rw [hprice, Option.map_some] at hmoved
    rw [hmoved]
    refine ⟨_, _, _, _, rfl, rfl, ?_⟩
    intro hfill
    have hpositive : 0 < price := price?_pos hpriced (Order.usable_of_validate horder)
      c.fill.slippage_withoutSlippage hprice
    have hslipped := fillPrice_filled Scalar.tolerance_not_le_abs_zero hfill
    have hsame := filled_fillPrice price hfill
    have hunslipped : (filled order now price
        (c.fill.withoutSlippage.fillQuantity security order u).1).fillPrice = price :=
      congrArg OrderEvent.fillPrice hsame
    refine ⟨?_, ?_, ?_⟩
    · rw [hunslipped]
      exact hsame
    · rw [hunslipped]
      exact hpositive
    · rw [hslipped, hunslipped]
      exact slipped_pos_iff (Config.slippage_nonneg hvalid) hpositive

/-- A sale whose stop is passed by a gap, cut short by the volume and half taken by slippage. -/
theorem FillConfig.dispatch_fillPrice_pos_iff_of_gap :
    let c : Config Rat := { Config.default with fill := ⟨25, 1 / 100, some (1 / 2)⟩ }
    let bar : Bar Rat := ⟨⟨60⟩, 1 / 2, 1, 2 / 5, 9 / 10, 12⟩
    let security := Snapshot.ofBar "SPY" bar
    let sale : Order Rat :=
      { id := 1, symbol := "SPY", quantity := -10, kind := .stopMarket (3 / 4), time := ⟨0⟩
        filled := 0 }
    let event := (OrderEvent.of sale ⟨60⟩ .partiallyFilled).withFill (1 / 4) (-6)
    let u : Usage Rat := Table.empty
    c.validate.isOk = true ∧ security.Priced ∧ sale.validate.isOk = true ∧
      c.fill.fillModel.dispatch security sale ⟨60⟩ u =
        (.ok (event, sale.kind), u.insert "SPY" ⟨⟨60⟩, 6⟩) ∧
      event.isFill = true ∧ c.fill.slippage = 1 / 4 ∧
      ∃ unslipped : OrderEvent Rat,
        unslipped = { event with fillPrice := unslipped.fillPrice } ∧
        (0 < event.fillPrice ↔ 0 < sale.quantity ∨ sale.kind.limitPrice?.isSome = true ∨
          c.fill.slippage < unslipped.fillPrice) := by
  intro c bar security sale event u
  have hvalid : c.validate.isOk = true := by decide +kernel
  have hpriced : security.Priced :=
    ⟨by decide +kernel, fun bar' hbar => Option.some.inj hbar ▸ by decide +kernel⟩
  have horder : sale.validate.isOk = true := by decide +kernel
  have hdispatch : c.fill.fillModel.dispatch security sale ⟨60⟩ u =
      (.ok (event, sale.kind), u.insert "SPY" ⟨⟨60⟩, 6⟩) := by decide +kernel
  have hfill : event.isFill = true := by decide +kernel
  obtain ⟨event', unslipped, kind, u', h, -, hiff⟩ :=
    dispatch_fillPrice_pos_iff c hvalid security hpriced sale horder ⟨60⟩ u
  rw [hdispatch, Prod.mk.injEq, Except.ok.injEq, Prod.mk.injEq] at h
  obtain ⟨⟨rfl, -⟩, -⟩ := h
  obtain ⟨hsame, -, hpositive⟩ := hiff hfill
  exact ⟨hvalid, hpriced, horder, hdispatch, hfill, by decide +kernel, unslipped, hsame, hpositive⟩

/-- A sale at half of what slippage takes: the seller is filled at less than nothing, and pays to be
rid of the position. -/
theorem FillConfig.sale_fills_below_zero :
    let c : Config Rat := { Config.default with fill := ⟨100, 1 / 100, none⟩ }
    let security := Snapshot.ofBar "SPY" (Bar.flat ⟨60⟩ (1 / 2 : Rat) 1000)
    let sale : Order Rat :=
      { id := 1, symbol := "SPY", quantity := -10, kind := .market, time := ⟨0⟩, filled := 0 }
    let event := (OrderEvent.of sale ⟨60⟩ .filled).withFill (-1 / 2) (-10)
    c.validate.isOk = true ∧ security.Priced ∧ sale.validate.isOk = true ∧
      c.fill.fillModel.dispatch security sale ⟨60⟩ Table.empty =
        (.ok (event, .market), Table.empty) ∧
      event.isFill = true ∧ ¬ 0 < event.fillPrice ∧
      ((Portfolio.ofCash "USD" 100).applyFill event).cash = 95 :=
  ⟨by decide +kernel,
    ⟨by decide +kernel, fun bar hbar => Option.some.inj hbar ▸ by decide +kernel⟩,
    by decide +kernel, by decide +kernel, by decide +kernel, by decide +kernel, by decide +kernel⟩

end TradingDesk
