import TradingDesk.Proofs.Margin
/- Proofs.Affordable — which orders are affordable when another one is.

   What an order opens beyond a position grows with its unfilled quantity, past the point
   at which it stops reducing the position (`opened_mono`). What it requires grows with
   that and with its fee (`required_mono`), and what an account has available grows with
   its cash; leverage moves both the other way (`available_mono`). So the verdict of the
   power check is monotone in all of them together (`sufficient_mono`). An order that only
   reduces a position opens nothing, and no state of the account stops it. -/
namespace TradingDesk

theorem effectiveLeverage_pos (leverage : Rat) : 0 < effectiveLeverage leverage := by
  rw [effectiveLeverage, Scalar.max_rat]
  exact one_pos.trans_le (le_max_right _ _)

theorem effectiveLeverage_mono {leverage leverage' : Rat} (h : leverage ≤ leverage') :
    effectiveLeverage leverage ≤ effectiveLeverage leverage' := by
  rw [effectiveLeverage, effectiveLeverage, Scalar.max_rat, Scalar.max_rat]
  exact max_le_max h (le_refl 1)

namespace Portfolio

variable {p p' : Portfolio Rat} {leverage leverage' fee fee' : Rat}
  {security security' : Snapshot Rat} {order order' : Order Rat}

/-! ## What an order opens -/

theorem reducing_le_abs (held quantity : Rat) : reducing held quantity ≤ |quantity| := by
  rw [reducing_eq]
  split
  · exact min_le_left _ _
  · exact abs_nonneg quantity

theorem opening_nonneg (p : Portfolio Rat) (order : Order Rat) : 0 ≤ p.opening order := by
  rw [opening, Scalar.abs_rat]
  exact sub_nonneg.mpr (reducing_le_abs _ _)

/-- A part of a quantity opens no more than the quantity does. -/
theorem opened_mono (held : Rat) {part whole : Rat} (h : PartOf part whole) :
    |part| - reducing held part ≤ |whole| - reducing held whole := by
  rcases eq_or_ne part 0 with rfl | hne
  · calc |(0 : Rat)| - reducing held 0
        ≤ 0 := by rw [abs_zero]; exact sub_nonpos.mpr (reducing_nonneg held 0)
      _ ≤ |whole| - reducing held whole := sub_nonneg.mpr (reducing_le_abs held whole)
  · have hle : |part| ≤ |whole| := h.abs_le
    have hside : part < 0 ↔ whole < 0 := by
      rw [← sign_eq_neg_one_iff, h.sign_eq hne, sign_eq_neg_one_iff]
    simp only [reducing_eq, hside]
    split
    · -- against the position, which is used up first
      rcases le_total |part| |held| with hpart | hpart
      · rw [min_eq_left hpart, sub_self]
        exact sub_nonneg.mpr (min_le_left _ _)
      · rw [min_eq_right hpart, min_eq_right (hpart.trans hle)]
        exact sub_le_sub_right hle _
    · exact sub_le_sub_right hle 0

theorem opening_mono (hpositions : p'.positions = p.positions)
    (hsymbol : order'.symbol = order.symbol) (hpart : PartOf order'.remaining order.remaining) :
    p'.opening order' ≤ p.opening order := by
  have hheld : p'.quantityHeld order'.symbol = p.quantityHeld order.symbol := by
    rw [quantityHeld, quantityHeld, hpositions, hsymbol]
  rw [opening, opening, hheld, Scalar.abs_rat, Scalar.abs_rat]
  exact opened_mono _ hpart

/-- An order against a position that is as large opens nothing. -/
theorem opening_eq_zero (hagainst : p.quantityHeld order.symbol * order.remaining < 0)
    (hcovered : |order.remaining| ≤ |p.quantityHeld order.symbol|) : p.opening order = 0 := by
  have hopposite : ¬ (p.quantityHeld order.symbol < 0 ↔ order.remaining < 0) := by
    rcases mul_neg_iff.mp hagainst with ⟨hlong, hsale⟩ | ⟨hshort, hpurchase⟩
    · exact fun h => hlong.not_gt (h.mpr hsale)
    · exact fun h => hpurchase.not_gt (h.mp hshort)
  rw [opening, reducing_eq, if_pos ⟨left_ne_zero_of_mul hagainst.ne, hopposite⟩,
    min_eq_left hcovered, Scalar.abs_rat, sub_self]

/-! ## What is required and what is available -/

theorem required_mono (hleverage : 0 < leverage) (hle : leverage ≤ leverage')
    (hopens : p'.opening order' ≤ p.opening order)
    (hprice : 0 < referencePrice security order)
    (hsame : referencePrice security' order' = referencePrice security order) (hfee : fee' ≤ fee) :
    p'.required leverage' security' order' fee' ≤ p.required leverage security order fee := by
  have hamount : 0 ≤ p.opening order * referencePrice security order :=
    mul_nonneg (opening_nonneg p order) hprice.le
  rw [required, required, hsame]
  apply add_le_add _ hfee
  calc p'.opening order' * referencePrice security order / leverage'
      ≤ p.opening order * referencePrice security order / leverage' :=
        div_le_div_of_nonneg_right (mul_le_mul_of_nonneg_right hopens hprice.le)
          (hleverage.trans_le hle).le
    _ ≤ p.opening order * referencePrice security order / leverage :=
        div_le_div_of_nonneg_left hamount hleverage hle

theorem available_mono (hpositions : p'.positions = p.positions) (hcash : p.cash ≤ p'.cash)
    (hleverage : 0 < leverage) (hle : leverage ≤ leverage') :
    p.available leverage ≤ p'.available leverage' := by
  rw [available_eq_sum, available_eq_sum, hpositions]
  apply add_le_add hcash
  apply List.sum_le_sum
  intro held _
  exact sub_le_sub_left (div_le_div_of_nonneg_left (abs_nonneg _) hleverage hle) _

/-! ## The verdict -/

theorem sufficient_of_opening_nonpos (h : p.opening order ≤ 0) :
    (p.check leverage security order fee).sufficient = true := by
  rw [check, if_pos h]

/-- The verdict of the power check is monotone, and only new exposure can be refused. If an order
is found affordable, so is every order on its symbol at the same positive reference price of which
as much or less is left on the same side, for no greater fee, with as much cash or more beside the
same positions, and with as much leverage or more. And an order against a position that is as large
is affordable in every account with that position, at whatever leverage and fee. -/
theorem sufficient_mono (p p' : Portfolio Rat) (leverage leverage' : Rat)
    (security security' : Snapshot Rat) (order order' : Order Rat) (fee fee' : Rat) :
    (p'.positions = p.positions → p.cash ≤ p'.cash → leverage ≤ leverage' → fee' ≤ fee →
      order'.symbol = order.symbol → PartOf order'.remaining order.remaining →
      0 < referencePrice security order →
      referencePrice security' order' = referencePrice security order →
      (p.check (effectiveLeverage leverage) security order fee).sufficient = true →
      (p'.check (effectiveLeverage leverage') security' order' fee').sufficient = true) ∧
    (p.quantityHeld order.symbol * order.remaining < 0 →
      |order.remaining| ≤ |p.quantityHeld order.symbol| →
      (p.check (effectiveLeverage leverage) security order fee).sufficient = true) := by
  constructor
  · intro hpositions hcash hle hfee hsymbol hpart hprice hsame hsufficient
    have hopens : p'.opening order' ≤ p.opening order := opening_mono hpositions hsymbol hpart
    rcases (opening_nonneg p' order').eq_or_lt' with hnone | hnew
    · exact sufficient_of_opening_nonpos hnone.le
    · rw [sufficient_iff (hnew.trans_le hopens)] at hsufficient
      rw [sufficient_iff hnew]
      have hpos := effectiveLeverage_pos leverage
      have hlarger := effectiveLeverage_mono hle
      calc p'.required (effectiveLeverage leverage') security' order' fee'
          ≤ p.required (effectiveLeverage leverage) security order fee :=
            required_mono hpos hlarger hopens hprice hsame hfee
        _ ≤ p.available (effectiveLeverage leverage) := hsufficient
        _ ≤ p'.available (effectiveLeverage leverage') :=
            available_mono hpositions hcash hpos hlarger
  · intro hagainst hcovered
    exact sufficient_of_opening_nonpos (opening_eq_zero hagainst hcovered).le

/-- A sale through zero that takes all that is available; a limit order at the same price, partly
filled, in an account with more of everything; and a sale of the position alone from an account that
is deep in debt. -/
theorem sufficient_mono_of_flip :
    let fill (symbol : String) (quantity price : Rat) : Posting :=
      .event ⟨1, symbol, ⟨60⟩, .filled, price, quantity, 1, none, false⟩
    let account (cash : Rat) := (ofCash "USD" cash).postAll
      [fill "SPY" 10 100, fill "QQQ" (-4) 50, .mark "SPY" 110]
    let security := Snapshot.ofPrice "SPY" ⟨120⟩ (110 : Rat)
    let later := Snapshot.ofBar "SPY" (Bar.flat ⟨180⟩ (104 : Rat) 50)
    let sale (quantity filled : Rat) (kind : OrderKind Rat) : Order Rat :=
      { id := 2, symbol := "SPY", quantity := quantity, kind := kind, time := ⟨120⟩
        filled := filled }
    let all := sale (-25) 0 .market
    let rest := sale (-30) (-12) (.limit 110)
    let exit := sale (-10) 0 .market
    let debtor := account (-90000)
    (account 1380).required 2 security all 3 = (account 1380).available 2 ∧
      (account 1400).positions = (account 1380).positions ∧
      PartOf rest.remaining all.remaining ∧
      referencePrice later rest = referencePrice security all ∧
      ((account 1380).check (effectiveLeverage 2) security all 3).sufficient = true ∧
      ((account 1400).check (effectiveLeverage 3) later rest 1).sufficient = true ∧
      debtor.available 1 < 0 ∧
      (debtor.check (effectiveLeverage 1) security exit 500).sufficient = true := by
  intro fill account security later sale all rest exit debtor
  have hpositions : (account 1400).positions = (account 1380).positions := by decide +kernel
  have hpart : PartOf rest.remaining all.remaining := .inr (by decide +kernel)
  have hsame : referencePrice later rest = referencePrice security all := by decide +kernel
  have hsufficient :
      ((account 1380).check (effectiveLeverage 2) security all 3).sufficient = true := by
    decide +kernel
  refine ⟨by decide +kernel, hpositions, hpart, hsame, hsufficient, ?_, by decide +kernel, ?_⟩
  · exact (sufficient_mono (account 1380) (account 1400) 2 3 security later all rest 3 1).1
      hpositions (by decide +kernel) (by decide) (by decide) rfl hpart (by decide +kernel) hsame
      hsufficient
  · exact (sufficient_mono debtor debtor 1 1 security security exit exit 500 500).2
      (by decide +kernel) (by decide +kernel)

end Portfolio

end TradingDesk
