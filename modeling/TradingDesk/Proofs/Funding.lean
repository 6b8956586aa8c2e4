import TradingDesk.Proofs.Fees
import TradingDesk.Proofs.FillPrice
import TradingDesk.Proofs.Gates
import TradingDesk.Proofs.Margin
/- Proofs.Funding — what the power check makes sure of when an order to buy is filled.

   A cash account that holds no short positions has at most its cash available, and
   all of an order to buy is new exposure. So an order that passes the check is
   funded: its whole unfilled quantity at the reference price, with the fee for that,
   is in the cash (`Funded`). What the fill then costs is another matter, because the
   fill rules price it on their own. At the reference price or below, it costs no more
   than was checked, since a part of the quantity at a lower price carries no greater
   fee (`Funded.costOf_le`). A limit is never traded above; every other kind may be,
   and `TradesAbove` says when. -/
namespace TradingDesk

/-! ## Reference prices -/

section Prices

variable {c : FillConfig Rat} {security : Snapshot Rat} {order : Order Rat} {price : Rat}

/-- Where there is a last price a side trades at that, or at a quote that is passed over unless it
is positive. -/
theorem Snapshot.touch_pos (h : 0 < security.lastPrice) (isBuy : Bool) :
    0 < security.touch isBuy := by
  have hquoted : ∀ quoted : Rat, 0 < if 0 < quoted then quoted else security.lastPrice := by
    intro quoted
    split
    · assumption
    · exact h
  unfold touch askPrice bidPrice
  cases security.quote with
  | none => cases isBuy <;> exact h
  | some q => cases isBuy <;> exact hquoted _

/-- Every price that the kind of the order names can be traded at. -/
def OrderKind.Usable (kind : OrderKind Rat) : Prop :=
  ∀ price, kind.limitPrice? = some price ∨ kind.stopPrice? = some price → 0 < price

theorem referencePrice_pos (husable : order.kind.Usable) (hprice : 0 < security.lastPrice) :
    0 < referencePrice security order := by
  unfold referencePrice
  split
  · next limit hlimit => exact husable limit (.inl hlimit)
  · split
    · next stop hstop => exact husable stop (.inr hstop)
    · exact Snapshot.touch_pos hprice order.isBuy

/-- Whether the rules fill an order to buy above the price that its funds are checked at: through
slippage, through an open beyond its stop, or because a cross is not at the ask. -/
def FillConfig.TradesAbove (c : FillConfig Rat) (security : Snapshot Rat) (order : Order Rat) :
    Prop :=
  match order.kind with
  | .market => 0 < c.slippage
  | .limit _ | .stopLimit .. => False
  | .stopMarket stop => stop < max (security.range true).opening stop + c.slippage
  | .marketOnOpen => security.askPrice < security.opening + c.slippage
  | .marketOnClose => security.askPrice < security.close + c.slippage

instance (c : FillConfig Rat) (security : Snapshot Rat) (order : Order Rat) :
    Decidable (c.TradesAbove security order) := by
  unfold FillConfig.TradesAbove
  split <;> infer_instance

/-- An order to buy at a limit never trades above it. -/
theorem FillConfig.price?_le_limit {limit : Rat} (hbuy : 0 < order.quantity)
    (hlimit : order.kind.limitPrice? = some limit) (h : c.price? security order = some price) :
    price ≤ limit := by
  have hwithin := price?_withinLimit hlimit h
  rw [Order.isBuy_of_pos hbuy] at hwithin
  exact withinLimit_buy.mp hwithin

theorem FillConfig.reference_lt_price?_iff (hbuy : 0 < order.quantity)
    (h : c.price? security order = some price) :
    referencePrice security order < price ↔ c.TradesAbove security order := by
  have hlimit : ∀ limit, order.kind.limitPrice? = some limit →
      ¬ referencePrice security order < price := by
    intro limit hlimit
    rw [referencePrice, hlimit, not_lt]
    exact price?_le_limit hbuy hlimit h
  have hbuy := Order.isBuy_of_pos hbuy
  have hcross : ∀ session cross, c.crossPrice? security order session cross = some price →
      price = cross + c.slippage := by
    intro session cross h
    simp only [crossPrice?, slipped, hbuy, if_true, Option.ite_none_right_eq_some,
      Option.some.injEq] at h
    exact h.2.symm
  cases hk : order.kind with
  | market =>
    simp only [price?, hk, marketPrice?, slipped, hbuy, Snapshot.touch, if_true] at h
    split at h
    · cases h
      simp [TradesAbove, hk, referencePrice, OrderKind.limitPrice?, OrderKind.stopPrice?, hbuy,
        Snapshot.touch]
    · cases h
  | limit bound =>
    simp only [TradesAbove, hk, iff_false]
    exact hlimit bound (by rw [hk]; rfl)
  | stopMarket stop =>
    simp only [price?, hk, stopMarketPrice?, slipped, hbuy, Snapshot.stopCross, if_true,
      Scalar.max_rat] at h
    split at h
    · cases h
      simp only [TradesAbove, hk, referencePrice, OrderKind.limitPrice?, OrderKind.stopPrice?]
    · cases h
  | stopLimit stop bound triggered =>
    simp only [TradesAbove, hk, iff_false]
    exact hlimit bound (by rw [hk]; rfl)
  | marketOnOpen =>
    simp only [price?, hk] at h
    rw [hcross _ _ h]
    simp [TradesAbove, hk, referencePrice, OrderKind.limitPrice?, OrderKind.stopPrice?, hbuy,
      Snapshot.touch]
  | marketOnClose =>
    simp only [price?, hk] at h
    rw [hcross _ _ h]
    simp [TradesAbove, hk, referencePrice, OrderKind.limitPrice?, OrderKind.stopPrice?, hbuy,
      Snapshot.touch]

end Prices

/-! ## The power check of a cash account -/

namespace Portfolio

variable {p : Portfolio Rat} {security : Snapshot Rat} {order : Order Rat} {fee : Rat}

/-- Positions tie up at least what they are marked at. -/
theorem available_le_cash (p : Portfolio Rat) : p.available 1 ≤ p.cash := by
  have hfree : ∀ free ∈ p.positions.values.map (freeValue 1), free ≤ 0 := by
    rw [List.forall_mem_map]
    intro held _
    rw [freeValue, div_one]
    exact sub_nonpos.mpr (le_abs_self _)
  calc p.available 1
      = p.cash + (p.positions.values.map (freeValue 1)).sum := p.available_eq_sum 1
    _ ≤ p.cash + 0 :=
        add_le_add_right ((List.sum_le_card_nsmul _ 0 hfree).trans_eq (nsmul_zero _)) _
    _ = p.cash := add_zero _

/-- Without a short position, all that is left of an order to buy is new exposure. -/
theorem opening_of_long (hlong : 0 ≤ p.quantityHeld order.symbol) (hleft : 0 < order.remaining) :
    p.opening order = order.remaining := by
  have hnone : reducing (p.quantityHeld order.symbol) order.remaining = 0 := by
    rw [reducing_eq, if_neg]
    rintro ⟨-, hagainst⟩
    exact hagainst (iff_of_false hlong.not_gt hleft.not_gt)
  rw [opening, hnone, sub_zero, Scalar.abs_rat, abs_of_pos hleft]

/-- A cash account that affords an order to buy has its unfilled amount and its fee in cash. -/
theorem le_cash_of_sufficient (hlong : 0 ≤ p.quantityHeld order.symbol)
    (hleft : 0 < order.remaining) (h : (p.check 1 security order fee).sufficient = true) :
    order.remaining * referencePrice security order + fee ≤ p.cash := by
  have hopening := opening_of_long hlong hleft
  rw [sufficient_iff (hopening.symm ▸ hleft), required, hopening, div_one] at h
  exact h.trans p.available_le_cash

end Portfolio

/-! ## Fees of parts -/

/-- Under a plan that a configuration may have, a part of a purchase at a lower price carries no
greater fee. -/
theorem FeePlan.feeOf_le {plan : FeePlan Rat} (hplan : Config.feeFault? plan = none) (first : Bool)
    {price price' quantity quantity' : Rat} (hprice : price ≤ price') (hprice' : 0 ≤ price')
    (hquantity : 0 ≤ quantity) (hle : quantity ≤ quantity') :
    plan.feeOf first price quantity ≤ plan.feeOf first price' quantity' := by
  have hquantity' : 0 ≤ quantity' := hquantity.trans hle
  cases plan with
  | perOrder fee => exact le_refl _
  | perUnit rate minimum =>
    have hrate : 0 ≤ rate := by
      apply not_lt.mp
      intro hn
      simp [Config.feeFault?, hn] at hplan
    have hunits : rate * quantity ≤ rate * quantity' := mul_le_mul_of_nonneg_left hle hrate
    simp only [feeOf, abs_of_nonneg hquantity, abs_of_nonneg hquantity']
    split
    · exact max_le_max hunits (le_refl _)
    · exact hunits
  | basisPoints rate =>
    have hrate : 0 ≤ rate := by
      apply not_lt.mp
      intro hn
      simp [Config.feeFault?, hn] at hplan
    simp only [feeOf, abs_of_nonneg hquantity, abs_of_nonneg hquantity']
    have hamount : price * quantity ≤ price' * quantity' :=
      calc price * quantity ≤ price' * quantity := mul_le_mul_of_nonneg_right hprice hquantity
        _ ≤ price' * quantity' := mul_le_mul_of_nonneg_left hle hprice'
    apply div_le_div_of_nonneg_right _ (by norm_num)
    exact mul_le_mul_of_nonneg_right hamount hrate

/-! ## Funded fills -/

/-- What is known of a fill of an order to buy when the order has passed the power check of a cash
account: what it fills and at which price and fee, and that the account has what was checked. -/
structure Funded (c : Config Rat) (security : Snapshot Rat) (cash : Rat) (order : Order Rat)
    (e : OrderEvent Rat) : Prop where
  priced : c.fill.price? security order = some e.fillPrice
  quantity : 0 ≤ e.fillQuantity ∧ e.fillQuantity ≤ order.remaining
  fee : e.fee = c.fees.feeOf order.isUnfilled e.fillPrice e.fillQuantity
  reference : 0 < referencePrice security order
  checked : order.remaining * referencePrice security order +
    c.fees.feeOf order.isUnfilled (referencePrice security order) order.remaining ≤ cash

/-- A funded fill at the reference price or below is paid from the cash. -/
theorem Funded.costOf_le {c : Config Rat} {security : Snapshot Rat} {cash : Rat}
    {order : Order Rat} {e : OrderEvent Rat} (h : Funded c security cash order e)
    (hplan : Config.feeFault? c.fees = none)
    (hprice : e.fillPrice ≤ referencePrice security order) : Portfolio.costOf e ≤ cash := by
  obtain ⟨hnonneg, hle⟩ := h.quantity
  have hfee := FeePlan.feeOf_le hplan order.isUnfilled hprice h.reference.le hnonneg hle
  have hamount : e.fillQuantity * e.fillPrice ≤ order.remaining * referencePrice security order :=
    calc e.fillQuantity * e.fillPrice
        ≤ e.fillQuantity * referencePrice security order := mul_le_mul_of_nonneg_left hprice hnonneg
      _ ≤ order.remaining * referencePrice security order :=
          mul_le_mul_of_nonneg_right hle h.reference.le
  calc Portfolio.costOf e
      = e.fillQuantity * e.fillPrice +
          c.fees.feeOf order.isUnfilled e.fillPrice e.fillQuantity := by
        rw [Portfolio.costOf, h.fee]
    _ ≤ order.remaining * referencePrice security order +
          c.fees.feeOf order.isUnfilled (referencePrice security order) order.remaining :=
        add_le_add hamount hfee
    _ ≤ cash := h.checked

end TradingDesk
