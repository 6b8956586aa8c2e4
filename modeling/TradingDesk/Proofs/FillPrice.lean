import TradingDesk.Proofs.Exact
import TradingDesk.Proofs.Rules
/- Proofs.FillPrice — between which prices orders are filled.

   A fill has the price of its order's condition (`price?_of_isFill`), and that price is
   a touch, an open, a close, or the open moved as far as a limit or a stop. So without
   slippage no order trades outside the bar that it sees (`price?_within_bar`). A limit
   keeps to its side of the price whatever is seen (`price?_withinLimit`), and so does a
   stop from the other side (`price?_of_stopMarket`). -/
namespace TradingDesk

/-! ## The two sides -/

theorem Order.isBuy_iff {α : Type} [Scalar α] {order : Order α} :
    order.isBuy = true ↔ 0 < order.quantity := by
  rw [isBuy, direction]
  split
  · next hbuy => simp [hbuy]
  · next hbuy => split <;> simp [hbuy]

theorem Order.isBuy_of_pos {α : Type} [Scalar α] {order : Order α} (h : 0 < order.quantity) :
    order.isBuy = true :=
  isBuy_iff.mpr h

theorem Order.isBuy_of_neg {order : Order Rat} (h : order.quantity < 0) : order.isBuy = false := by
  rw [← Bool.not_eq_true, isBuy_iff]
  exact h.not_gt

theorem withinLimit_buy {price limit : Rat} : withinLimit true price limit = true ↔ price ≤ limit :=
  decide_eq_true_iff

theorem withinLimit_sell {price limit : Rat} :
    withinLimit false price limit = true ↔ limit ≤ price :=
  decide_eq_true_iff

/-! ## Prices of a range -/

/-- The open lies between the extremes. -/
structure TradingRange.Ordered (r : TradingRange Rat) : Prop where
  low_le : r.low ≤ r.opening
  le_high : r.opening ≤ r.high

namespace Snapshot

variable {security : Snapshot Rat} {isBuy : Bool} {limit stop price : Rat}

theorem range_of_bar {α : Type} [Scalar α] {security : Snapshot α} {bar : Bar α}
    (hbar : security.bar = some bar) (isBuy : Bool) :
    security.range isBuy = ⟨bar.opening, bar.low, bar.high⟩ := by
  rw [range, hbar]

theorem touch_of_no_quote (hquote : security.quote = none) (isBuy : Bool) :
    security.touch isBuy = security.lastPrice := by
  simp only [touch, askPrice, bidPrice, hquote, ite_self]

/-- A limit that is crossed trades within the range. -/
theorem limitCross?_within_range (hrange : (security.range isBuy).Ordered)
    (h : security.limitCross? isBuy limit = some price) :
    (security.range isBuy).low ≤ price ∧ price ≤ (security.range isBuy).high := by
  obtain ⟨hlow, hhigh⟩ := hrange
  cases isBuy with
  | true =>
    simp only [limitCross?, if_true, Scalar.min_rat, Option.ite_none_right_eq_some,
      Option.some.injEq] at h
    obtain ⟨hcross, rfl⟩ := h
    exact ⟨le_min hlow hcross, (min_le_left _ _).trans hhigh⟩
  | false =>
    simp only [limitCross?, Bool.false_eq_true, if_false, Scalar.max_rat,
      Option.ite_none_right_eq_some, Option.some.injEq] at h
    obtain ⟨hcross, rfl⟩ := h
    exact ⟨hlow.trans (le_max_left _ _), max_le hhigh hcross⟩

/-- A stop that is reached trades within the range. -/
theorem stopCross_within_range (hrange : (security.range isBuy).Ordered)
    (h : security.reachesStop isBuy stop = true) :
    (security.range isBuy).low ≤ security.stopCross isBuy stop ∧
      security.stopCross isBuy stop ≤ (security.range isBuy).high := by
  obtain ⟨hlow, hhigh⟩ := hrange
  cases isBuy with
  | true =>
    have hreached : stop ≤ (security.range true).high := of_decide_eq_true h
    simp only [stopCross, if_true, Scalar.max_rat]
    exact ⟨hlow.trans (le_max_left _ _), max_le hhigh hreached⟩
  | false =>
    have hreached : (security.range false).low ≤ stop := of_decide_eq_true h
    simp only [stopCross, Bool.false_eq_true, if_false, Scalar.min_rat]
    exact ⟨le_min hlow hreached, (min_le_left _ _).trans hhigh⟩

/-- A limit never trades at a worse price. -/
theorem limitCross?_withinLimit (h : security.limitCross? isBuy limit = some price) :
    withinLimit isBuy price limit = true := by
  cases isBuy with
  | true =>
    simp only [limitCross?, if_true, Scalar.min_rat, Option.ite_none_right_eq_some,
      Option.some.injEq] at h
    obtain ⟨-, rfl⟩ := h
    exact withinLimit_buy.mpr (min_le_right _ _)
  | false =>
    simp only [limitCross?, Bool.false_eq_true, if_false, Scalar.max_rat,
      Option.ite_none_right_eq_some, Option.some.injEq] at h
    obtain ⟨-, rfl⟩ := h
    exact withinLimit_sell.mpr (le_max_right _ _)

end Snapshot

/-! ## Prices of an order -/

namespace FillConfig

section Fills

variable {α : Type} [Scalar α] {c : FillConfig α} {security : Snapshot α} {order : Order α}
  {now : Instant} {event : OrderEvent α} {kind : OrderKind α}

/-- The event of a fill has the price that it was drawn up for. -/
theorem fillPrice_filled (hzero : ¬ (Scalar.tolerance : α) ≤ Scalar.abs 0) {price quantity : α}
    (h : (filled order now price quantity).isFill = true) :
    (filled order now price quantity).fillPrice = price := by
  unfold filled at h ⊢
  split
  · next hnone =>
    have hunchanged : (OrderEvent.unchanged order now).isFill = false := decide_eq_false hzero
    rw [if_pos hnone, hunchanged] at h
    cases h
  · rfl

/-- A fill has the price of its order's condition. -/
theorem price?_of_isFill (hzero : ¬ (Scalar.tolerance : α) ≤ Scalar.abs 0)
    (h : c.fillModel.Answers security order now event kind) (hfill : event.isFill = true) :
    c.price? security order = some event.fillPrice := by
  obtain ⟨-, rfl | ⟨price, u, hprice, rfl⟩⟩ := fillModel_answers_at h
  · have hunchanged : (OrderEvent.unchanged order now).isFill = false := decide_eq_false hzero
    rw [hunchanged] at hfill
    cases hfill
  · rw [fillPrice_filled hzero hfill]
    exact hprice

end Fills

variable {c : FillConfig Rat} {security : Snapshot Rat} {order : Order Rat}
  {limit stop price : Rat}

theorem slipped_of_none (hnone : c.slippage = 0) (isBuy : Bool) (price : Rat) :
    c.slipped isBuy price = price := by
  rw [slipped, hnone, add_zero, sub_zero, ite_self]

/-- Without slippage, an order that sees a bar and no quote trades within the bar. -/
theorem price?_within_bar {bar : Bar Rat} (hbar : security.bar = some bar)
    (hquote : security.quote = none) (hlast : security.lastPrice = bar.close)
    (hopening : bar.low ≤ bar.opening ∧ bar.opening ≤ bar.high)
    (hclose : bar.low ≤ bar.close ∧ bar.close ≤ bar.high) (hslippage : c.slippage = 0)
    (h : c.price? security order = some price) : bar.low ≤ price ∧ price ≤ bar.high := by
  have hrange := Snapshot.range_of_bar hbar order.isBuy
  have hordered : (security.range order.isBuy).Ordered := hrange ▸ ⟨hopening.1, hopening.2⟩
  have hcrossed : ∀ limit, security.limitCross? order.isBuy limit = some price →
      bar.low ≤ price ∧ price ≤ bar.high := by
    intro limit hcross
    have hwithin := Snapshot.limitCross?_within_range hordered hcross
    rwa [hrange] at hwithin
  have hreached : ∀ stop, security.reachesStop order.isBuy stop = true →
      bar.low ≤ security.stopCross order.isBuy stop ∧
        security.stopCross order.isBuy stop ≤ bar.high := by
    intro stop hreach
    have hwithin := Snapshot.stopCross_within_range hordered hreach
    rwa [hrange] at hwithin
  cases hk : order.kind with
  | market =>
    simp only [price?, hk, marketPrice?, slipped_of_none hslippage,
      Snapshot.touch_of_no_quote hquote, hlast, Option.ite_none_right_eq_some,
      Option.some.injEq] at h
    exact h.2 ▸ hclose
  | limit limit =>
    simp only [price?, hk] at h
    exact hcrossed limit h
  | stopMarket stop =>
    simp only [price?, hk, stopMarketPrice?, slipped_of_none hslippage,
      Option.ite_none_right_eq_some, Option.some.injEq] at h
    exact h.2 ▸ hreached stop h.1
  | stopLimit stop limit triggered =>
    simp only [price?, hk] at h
    split at h
    · exact hcrossed limit h
    · split at h
      · next hreach =>
        simp only [triggerPrice?, Option.ite_none_right_eq_some, Option.some.injEq] at h
        exact h.2 ▸ hreached stop hreach
      · cases h
  | marketOnOpen =>
    simp only [price?, hk, crossPrice?, slipped_of_none hslippage, Snapshot.opening, hbar,
      Option.map_some, Option.getD_some, Option.ite_none_right_eq_some, Option.some.injEq] at h
    exact h.2 ▸ hopening
  | marketOnClose =>
    simp only [price?, hk, crossPrice?, slipped_of_none hslippage, Snapshot.close, hbar,
      Option.map_some, Option.getD_some, Option.ite_none_right_eq_some, Option.some.injEq] at h
    exact h.2 ▸ hclose

/-- An order with a limit never trades at a worse price. -/
theorem price?_withinLimit (hlimit : order.kind.limitPrice? = some limit)
    (h : c.price? security order = some price) : withinLimit order.isBuy price limit = true := by
  cases hk : order.kind with
  | limit bound =>
    simp only [hk, OrderKind.limitPrice?, Option.some.injEq] at hlimit
    simp only [price?, hk, hlimit] at h
    exact Snapshot.limitCross?_withinLimit h
  | stopLimit stop bound triggered =>
    simp only [hk, OrderKind.limitPrice?, Option.some.injEq] at hlimit
    simp only [price?, hk, hlimit] at h
    split at h
    · exact Snapshot.limitCross?_withinLimit h
    · split at h
      · -- the snapshot that reaches the stop: its price is within the limit or there is none
        simp only [triggerPrice?, Option.ite_none_right_eq_some, Option.some.injEq] at h
        exact h.2 ▸ h.1
      · cases h
  | _ => simp [hk, OrderKind.limitPrice?] at hlimit

/-- A stop-market order never trades at a better price than its stop, which slippage can only move
further away. -/
theorem price?_of_stopMarket (hk : order.kind = .stopMarket stop) (hslippage : 0 ≤ c.slippage)
    (h : c.price? security order = some price) :
    if order.isBuy then stop ≤ price else price ≤ stop := by
  simp only [price?, hk, stopMarketPrice?, Option.ite_none_right_eq_some, Option.some.injEq] at h
  obtain ⟨-, rfl⟩ := h
  cases order.isBuy with
  | true =>
    simp only [slipped, Snapshot.stopCross, if_true, Scalar.max_rat]
    exact (le_max_right _ _).trans (le_add_of_nonneg_right hslippage)
  | false =>
    simp only [slipped, Snapshot.stopCross, Bool.false_eq_true, if_false, Scalar.min_rat]
    exact (sub_le_self _ hslippage).trans (min_le_right _ _)

/-- Where the rules fill an order. On the snapshot of a bar that opens and closes within its
extremes, in any session and without slippage, a fill of any kind of order trades within the bar,
whatever the bar has left. On any snapshot, and with any slippage, a fill of an order with a limit
is not worse than the limit, and a fill of a stop-market order not better than the stop. -/
theorem dispatch_fillPrice_within (c : FillConfig Rat) (security : Snapshot Rat)
    (order : Order Rat) (now : Instant) (u u' : Usage Rat) (event : OrderEvent Rat)
    (kind : OrderKind Rat)
    (h : c.fillModel.dispatch security order now u = (.ok (event, kind), u'))
    (hfill : event.isFill = true) :
    (∀ symbol bar session, security = { Snapshot.ofBar symbol bar with session := session } →
      bar.low ≤ bar.opening ∧ bar.opening ≤ bar.high →
      bar.low ≤ bar.close ∧ bar.close ≤ bar.high → c.slippage = 0 →
      bar.low ≤ event.fillPrice ∧ event.fillPrice ≤ bar.high) ∧
    (0 ≤ c.slippage →
      (∀ limit, order.kind.limitPrice? = some limit →
        (0 < order.quantity → event.fillPrice ≤ limit) ∧
          (order.quantity < 0 → limit ≤ event.fillPrice)) ∧
      ∀ stop, order.kind = .stopMarket stop →
        (0 < order.quantity → stop ≤ event.fillPrice) ∧
          (order.quantity < 0 → event.fillPrice ≤ stop)) := by
  have hprice : c.price? security order = some event.fillPrice :=
    price?_of_isFill Scalar.tolerance_not_le_abs_zero ⟨u, u', h⟩ hfill
  refine ⟨?_, fun hslippage => ⟨?_, ?_⟩⟩
  · rintro symbol bar session rfl hopening hclose hslippage
    exact price?_within_bar rfl rfl rfl hopening hclose hslippage hprice
  · intro limit hlimit
    have hwithin := price?_withinLimit hlimit hprice
    constructor
    · intro hbuy
      rw [Order.isBuy_of_pos hbuy] at hwithin
      exact withinLimit_buy.mp hwithin
    · intro hsell
      rw [Order.isBuy_of_neg hsell] at hwithin
      exact withinLimit_sell.mp hwithin
  · intro stop hk
    have hbeyond := price?_of_stopMarket hk hslippage hprice
    constructor
    · intro hbuy
      rwa [Order.isBuy_of_pos hbuy, if_pos rfl] at hbeyond
    · intro hsell
      rwa [Order.isBuy_of_neg hsell, if_neg Bool.false_ne_true] at hbeyond

/-- A sale whose stop is passed by a gap that its limit allows, cut short by the bar's volume. -/
theorem dispatch_fillPrice_within_of_gap :
    let c : FillConfig Rat := ⟨0, 1 / 100, some (1 / 2)⟩
    let bar : Bar Rat := ⟨⟨60⟩, 189 / 2, 96, 93, 95, 12⟩
    let security := { Snapshot.ofBar "SPY" bar with session := .closing }
    let sale : Order Rat :=
      { id := 1, symbol := "SPY", quantity := -10, kind := .stopLimit 95 94 false, time := ⟨0⟩
        filled := 0 }
    let event := (OrderEvent.of sale ⟨60⟩ .partiallyFilled).withFill (189 / 2) (-6)
    let u : Usage Rat := Table.empty
    c.fillModel.dispatch security sale ⟨60⟩ u =
        (.ok (event, .stopLimit 95 94 true), u.insert "SPY" ⟨⟨60⟩, 6⟩) ∧
      event.isFill = true ∧ c.slippage = 0 ∧
      (bar.low ≤ event.fillPrice ∧ event.fillPrice ≤ bar.high) ∧ 94 ≤ event.fillPrice := by
  intro c bar security sale event u
  have h : c.fillModel.dispatch security sale ⟨60⟩ u =
      (.ok (event, .stopLimit 95 94 true), u.insert "SPY" ⟨⟨60⟩, 6⟩) := by decide +kernel
  have hfill : event.isFill = true := by decide +kernel
  have hslippage : c.slippage = 0 := by decide +kernel
  obtain ⟨hbar, hkind⟩ := dispatch_fillPrice_within c security sale ⟨60⟩ u _ event _ h hfill
  refine ⟨h, hfill, hslippage, ?_, ?_⟩
  · exact hbar "SPY" bar .closing rfl (by decide +kernel) (by decide +kernel) hslippage
  · exact ((hkind hslippage.ge).1 94 rfl).2 (by decide +kernel)

end FillConfig

end TradingDesk
