import Mathlib.Algebra.Order.Ring.Abs
import TradingDesk.Proofs.Accounting
/- Proofs.Margin — what the power check makes sure of in an account with leverage.

   The check compares what an order opens with what the account has available: its total
   value less what its positions tie up. A fill at the mark of its symbol moves value
   between cash and position, so it takes its fee and what the position ties up more than
   before, and nothing else (`available_applyFill`). The position does not grow by more
   than what the order opens (`abs_add_remaining_le`), whether it is added to, opened or
   taken through zero. So an order that the check lets pass leaves the account with
   something available, or nothing, but not with less (`available_nonneg_of_sufficient`). -/
namespace TradingDesk

theorem effectiveLeverage_of_le {leverage : Rat} (h : 1 ≤ leverage) :
    effectiveLeverage leverage = leverage := by
  rw [effectiveLeverage, Scalar.max_rat, max_eq_left h]

namespace Portfolio

variable {p : Portfolio Rat} {symbol : String} {price leverage fee : Rat} {e : OrderEvent Rat}
  {security : Snapshot Rat} {order : Order Rat}

/-! ## What a fill leaves available -/

/-- The position in a symbol, if there is one, is marked at a price. -/
def MarkedAt (p : Portfolio Rat) (symbol : String) (price : Rat) : Prop :=
  ∀ held, p.positions.get? symbol = some held → held.marketPrice = price

/-- What a position adds to what is available: its value less what it ties up. -/
def freeValue (leverage : Rat) (held : Position Rat) : Rat :=
  held.marketValue - |held.marketValue| / leverage

theorem available_eq_sum (p : Portfolio Rat) (leverage : Rat) :
    p.available leverage = p.cash + (p.positions.values.map (freeValue leverage)).sum := by
  have htied : (p.positions.values.map fun held => Scalar.abs held.marketValue / leverage) =
      p.positions.values.map fun held => |held.marketValue| / leverage :=
    List.map_congr_left fun held _ => by rw [Scalar.abs_rat]
  have hsplit : (p.positions.values.map (freeValue leverage)).sum =
      (p.positions.values.map Position.marketValue).sum -
        (p.positions.values.map fun held => |held.marketValue| / leverage).sum := by
    rw [eq_sub_iff_add_eq, ← List.sum_map_add]
    refine congrArg List.sum (List.map_congr_left fun held _ => ?_)
    exact sub_add_cancel _ _
  rw [available, totalValue, used, Scalar.sum_rat, Scalar.sum_rat, htied, hsplit, add_sub_assoc]

/-- In the listing of the open positions. -/
theorem available_eq_holdings (p : Portfolio Rat) (leverage : Rat) :
    p.available leverage =
      p.totalValue - (p.holdings.map fun h => |h.position.marketValue| / leverage).sum := by
  have htied : (p.positions.values.map fun held => Scalar.abs held.marketValue / leverage) =
      p.holdings.map fun h => |h.position.marketValue| / leverage := by
    rw [holdings, Table.values, List.map_map, List.map_map]
    refine List.map_congr_left fun entry _ => ?_
    exact congrArg (· / leverage) (Scalar.abs_rat _)
  rw [available, used, Scalar.sum_rat, htied]

/-- A fill files a position of the quantity that it makes, marked at its price. -/
theorem positions_applyFill (he : e.isFill = true) :
    ∃ held : Position Rat, held.quantity = p.quantityHeld e.symbol + e.fillQuantity ∧
      held.marketPrice = e.fillPrice ∧
      (p.applyFill e).positions = (p.hold e.symbol held).positions := by
  have hheld := p.position_quantity e.symbol
  rcases applyFill_cases (p := p) he with ⟨-, h⟩ | ⟨-, h⟩
  · exact ⟨(p.position e.symbol).join e.fillQuantity e.fillPrice,
      congrArg (· + e.fillQuantity) hheld, rfl, h ▸ rfl⟩
  · exact ⟨(p.position e.symbol).reduce e.fillQuantity e.fillPrice,
      congrArg (· + e.fillQuantity) hheld, rfl, h ▸ rfl⟩

/-- The position in a symbol is worth its quantity at the mark. -/
theorem marketValue_of_markedAt (h : p.MarkedAt symbol price) :
    (p.position symbol).marketValue = p.quantityHeld symbol * price := by
  have hquantity := p.position_quantity symbol
  unfold position at hquantity ⊢
  cases hheld : p.positions.get? symbol with
  | none =>
    rw [hheld] at hquantity
    rw [← hquantity]
    exact (mul_zero _).trans (zero_mul price).symm
  | some held =>
    rw [hheld] at hquantity
    rw [← hquantity, ← h held hheld]
    rfl

/-- A fill at the mark of its symbol takes its fee from what is available, and what the position
ties up more than before. -/
theorem available_applyFill (he : e.isFill = true) (hmark : p.MarkedAt e.symbol e.fillPrice)
    (hleft : p.quantityHeld e.symbol + e.fillQuantity = 0 ∨
      Scalar.tolerance ≤ |p.quantityHeld e.symbol + e.fillQuantity|) (leverage : Rat) :
    (p.applyFill e).available leverage = p.available leverage - e.fee -
      (|(p.quantityHeld e.symbol + e.fillQuantity) * e.fillPrice| -
        |p.quantityHeld e.symbol * e.fillPrice|) / leverage := by
  obtain ⟨held, hquantity, hprice, hpositions⟩ := positions_applyFill (p := p) he
  have hvalue : held.marketValue =
      (p.quantityHeld e.symbol + e.fillQuantity) * e.fillPrice := by
    rw [Position.marketValue, hquantity, hprice]
  have hdropped : held.isFlat = true → freeValue leverage held = 0 := by
    intro hflat
    rw [Position.isFlat_iff, hquantity] at hflat
    have hnone := hleft.resolve_right (not_le.mpr hflat)
    rw [freeValue, hvalue, hnone, zero_mul, abs_zero, zero_div, sub_zero]
  have hflat : freeValue leverage Position.flat = 0 := by
    rw [freeValue, show Position.flat.marketValue = (0 : Rat) from zero_mul 0, abs_zero, zero_div,
      sub_zero]
  have hmoved := sum_hold p e.symbol (freeValue leverage) hflat hdropped
  rw [available_eq_sum, available_eq_sum, cash_applyFill he, hpositions, costOf]
  rw [freeValue, freeValue, hvalue, marketValue_of_markedAt hmark] at hmoved
  rw [sub_div]
  linarith

/-! ## What an order opens -/

theorem reducing_eq (held quantity : Rat) :
    reducing held quantity =
      if held ≠ 0 ∧ ¬ (held < 0 ↔ quantity < 0) then min |quantity| |held| else 0 := by
  have hzero : Scalar.isZero held = true ↔ held = 0 := by
    rw [Scalar.isZero, Bool.and_eq_true, decide_eq_true_iff, decide_eq_true_iff, le_antisymm_iff]
  have hcond : (!Scalar.isZero held && !Scalar.sameSign held quantity) = true ↔
      held ≠ 0 ∧ ¬ (held < 0 ↔ quantity < 0) := by
    rw [Bool.and_eq_true, Bool.not_eq_true', Bool.not_eq_true', ← Bool.not_eq_true,
      ← Bool.not_eq_true, hzero, Scalar.sameSign_iff]
  simp only [reducing, hcond, Scalar.abs_rat, Scalar.min_rat]

/-- What a quantity opens beyond a position is in the position after it, which is no larger than
that and the position before. -/
theorem opened_bounds (held quantity : Rat) :
    |quantity| - reducing held quantity ≤ |held + quantity| ∧
      |held + quantity| ≤ |held| + (|quantity| - reducing held quantity) := by
  rw [reducing_eq]
  split
  · next h =>
    -- against the position: the one is taken off the other
    have hsize : |held + quantity| = |(|quantity| - |held|)| := by
      rcases lt_or_ge held 0 with hheld | hheld
      · have hq : 0 ≤ quantity := not_lt.mp fun hq => h.2 (iff_of_true hheld hq)
        rw [abs_of_neg hheld, abs_of_nonneg hq, sub_neg_eq_add, add_comm]
      · have hq : quantity < 0 := not_le.mp fun hq => h.2 (iff_of_false hheld.not_gt hq.not_gt)
        rw [abs_of_nonneg hheld, abs_of_neg hq, ← abs_neg, neg_add, sub_eq_add_neg, add_comm]
    rw [hsize]
    rcases le_total |quantity| |held| with hle | hle
    · rw [min_eq_left hle, sub_self, abs_of_nonpos (sub_nonpos.mpr hle)]
      exact ⟨by linarith, by linarith [abs_nonneg quantity]⟩
    · rw [min_eq_right hle, abs_of_nonneg (sub_nonneg.mpr hle)]
      exact ⟨le_refl _, le_add_of_nonneg_left (abs_nonneg held)⟩
  · next h =>
    have hsize : |held + quantity| = |held| + |quantity| := by
      rw [abs_add_eq_add_abs_iff]
      rw [not_and_not_right] at h
      rcases lt_trichotomy held 0 with hheld | rfl | hheld
      · exact .inr ⟨hheld.le, ((h hheld.ne).mp hheld).le⟩
      · exact (le_total 0 quantity).imp (fun hq => ⟨le_refl 0, hq⟩) fun hq => ⟨le_refl 0, hq⟩
      · exact .inl ⟨hheld.le, not_lt.mp fun hq => hheld.not_gt ((h hheld.ne').mpr hq)⟩
    rw [hsize, sub_zero]
    exact ⟨le_add_of_nonneg_left (abs_nonneg held), le_refl _⟩

theorem reducing_nonneg (held quantity : Rat) : 0 ≤ reducing held quantity := by
  rw [reducing_eq]
  split
  · exact le_min (abs_nonneg _) (abs_nonneg _)
  · exact le_refl 0

theorem opening_le_abs_remaining (p : Portfolio Rat) (order : Order Rat) :
    p.opening order ≤ |order.remaining| := by
  rw [opening, Scalar.abs_rat]
  exact sub_le_self _ (reducing_nonneg _ _)

theorem opening_le_abs_add (p : Portfolio Rat) (order : Order Rat) :
    p.opening order ≤ |p.quantityHeld order.symbol + order.remaining| := by
  rw [opening, Scalar.abs_rat]
  exact (opened_bounds _ _).1

theorem abs_add_remaining_le (p : Portfolio Rat) (order : Order Rat) :
    |p.quantityHeld order.symbol + order.remaining| ≤
      |p.quantityHeld order.symbol| + p.opening order := by
  rw [opening, Scalar.abs_rat]
  exact (opened_bounds _ _).2

/-! ## The check -/

/-- An order that opens something fails the check only for want of what it requires. -/
theorem sufficient_iff_not_lt {α : Type} [Scalar α] {p : Portfolio α} {leverage fee : α}
    {security : Snapshot α} {order : Order α} (hopens : ¬ p.opening order ≤ 0) :
    (p.check leverage security order fee).sufficient = true ↔
      ¬ p.available leverage < p.required leverage security order fee := by
  simp only [check, if_neg hopens]
  split
  · next hshort => exact iff_of_false Bool.false_ne_true (not_not_intro hshort)
  · next hshort => exact iff_of_true rfl hshort

/-- An order that opens something passes the check exactly if what it requires is available. -/
theorem sufficient_iff (hopens : 0 < p.opening order) :
    (p.check leverage security order fee).sufficient = true ↔
      p.required leverage security order fee ≤ p.available leverage := by
  rw [sufficient_iff_not_lt (not_le.mpr hopens)]
  exact not_lt

/-- The power check is sound for what the account then books. Whatever positions an account has and
whatever its leverage: if an order that opens new exposure passes the check, and all that is left of
it is then filled at the price it was checked at with the fee it was checked with, the total value
of the account still covers what its positions tie up. -/
theorem available_nonneg_of_sufficient (p : Portfolio Rat) (leverage : Rat)
    (security : Snapshot Rat) (order : Order Rat) (fee : Rat) (now : Instant)
    (hleverage : 1 ≤ leverage) (hprice : 0 < referencePrice security order)
    (hmark : ∀ held, p.holding? order.symbol = some held →
      held.position.marketPrice = referencePrice security order)
    (hopens : Scalar.tolerance ≤ p.opening order)
    (hsufficient : (p.check (effectiveLeverage leverage) security order fee).sufficient = true) :
    let fill := (OrderEvent.of order now .filled).withFill (referencePrice security order)
      order.remaining
    let p' := p.applyFill { fill with fee := fee }
    0 ≤ p'.totalValue - (p'.holdings.map fun h => |h.position.marketValue| / leverage).sum := by
  intro fill p'
  have hmarked : p.MarkedAt order.symbol (referencePrice security order) := by
    intro held hheld
    exact hmark ⟨order.symbol, held⟩ (by rw [holding?, hheld]; rfl)
  have hcounts : Scalar.tolerance ≤ |p.quantityHeld order.symbol + order.remaining| :=
    hopens.trans (p.opening_le_abs_add order)
  have hfill : OrderEvent.isFill { fill with fee := fee } = true :=
    OrderEvent.isFill_iff.mpr (hopens.trans (p.opening_le_abs_remaining order))
  rw [effectiveLeverage_of_le hleverage,
    sufficient_iff (Scalar.tolerance_pos.trans_le hopens)] at hsufficient
  have hpos : 0 < leverage := one_pos.trans_le hleverage
  have htied : (|(p.quantityHeld order.symbol + order.remaining) *
      referencePrice security order| - |p.quantityHeld order.symbol *
        referencePrice security order|) / leverage ≤
      p.opening order * referencePrice security order / leverage := by
    apply div_le_div_of_nonneg_right _ hpos.le
    rw [abs_mul, abs_mul, abs_of_pos hprice, ← sub_mul]
    exact mul_le_mul_of_nonneg_right (by linarith [p.abs_add_remaining_le order]) hprice.le
  have hmoved : p'.available leverage = _ :=
    available_applyFill hfill hmarked (.inr hcounts) leverage
  rw [← available_eq_holdings, hmoved]
  calc 0 ≤ p.available leverage - p.required leverage security order fee :=
        sub_nonneg.mpr hsufficient
    _ = p.available leverage - fee -
          p.opening order * referencePrice security order / leverage := by
        rw [required]
        ring
    _ ≤ _ := sub_le_sub_left htied _

/-- A sale that takes a position through zero, in an account with another position that is short,
and with as much available as it requires. -/
theorem available_nonneg_of_sufficient_of_flip :
    let fill (symbol : String) (quantity price : Rat) : Posting :=
      .event ⟨1, symbol, ⟨60⟩, .filled, price, quantity, 1, none, false⟩
    let p := (ofCash "USD" 1380).postAll
      [fill "SPY" 10 100, fill "QQQ" (-4) 50, .mark "SPY" 110]
    let security := Snapshot.ofPrice "SPY" ⟨120⟩ (110 : Rat)
    let sale : Order Rat :=
      { id := 2, symbol := "SPY", quantity := -25, kind := .market, time := ⟨120⟩, filled := 0 }
    let event := { (OrderEvent.of sale ⟨120⟩ .filled).withFill (referencePrice security sale)
      sale.remaining with fee := 3 }
    let p' := p.applyFill event
    (1 : Rat) ≤ 2 ∧ 0 < referencePrice security sale ∧
      (∀ held, p.holding? "SPY" = some held →
        held.position.marketPrice = referencePrice security sale) ∧
      p.opening sale = 15 ∧ Scalar.tolerance ≤ p.opening sale ∧
      (p.check (effectiveLeverage 2) security sale 3).sufficient = true ∧
      p.required 2 security sale 3 = 828 ∧ p.available 2 = 828 ∧
      p'.holdings.map (fun h => (h.symbol, h.position.quantity)) = [("QQQ", -4), ("SPY", -15)] ∧
      p'.totalValue = 1475 ∧
      0 ≤ p'.totalValue - (p'.holdings.map fun h => |h.position.marketValue| / 2).sum := by
  intro fill p security sale event p'
  have hprice : 0 < referencePrice security sale := by decide +kernel
  have hmark : ∀ held, p.holding? "SPY" = some held →
      held.position.marketPrice = referencePrice security sale := by
    intro held hheld
    have hmarked : (p.holding? "SPY").map (fun h => h.position.marketPrice) =
        some (referencePrice security sale) := by decide +kernel
    rw [hheld] at hmarked
    exact Option.some.inj hmarked
  have hopens : Scalar.tolerance ≤ p.opening sale := by decide +kernel
  have hsufficient : (p.check (effectiveLeverage 2) security sale 3).sufficient = true := by
    decide +kernel
  refine ⟨by decide, hprice, hmark, by decide +kernel, hopens, hsufficient, by decide +kernel,
    by decide +kernel, by decide +kernel, by decide +kernel, ?_⟩
  have h := available_nonneg_of_sufficient p 2 security sale 3 ⟨120⟩ (by decide) hprice hmark hopens
    hsufficient
  -- at the default transparency the account itself would be unfolded
  with_reducible exact h

end Portfolio

end TradingDesk
