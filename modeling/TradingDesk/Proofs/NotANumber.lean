import TradingDesk.Proofs.Floating
import TradingDesk.Proofs.Margin
import TradingDesk.Proofs.Run
/- Proofs.NotANumber — the power check where amounts are not numbers.

   The check refuses an order that requires more than there is available. In floating
   point that is not the same as approving only what requires no more: an amount that is
   not a number is neither more nor less than another, so an order that opens exposure is
   approved when what it requires is no more than what is available, and also when either
   is not a number (`check_sufficient_iff`). It takes one operand for that: a fee, the
   reference price, the cash, or a mark of any position. Cash that is not a number stays
   none through every fill, so from there on the check approves every order of a run
   (`run_sufficient`). -/
namespace TradingDesk

/-- A sum is a number only if all its terms are. -/
theorem Floating.isNumber_of_sum {xs : List Float} (h : Scalar.isNumber (Scalar.sum xs) = true) :
    ∀ x ∈ xs, Scalar.isNumber x = true := by
  have hfold : ∀ (xs : List Float) (start : Float),
      Scalar.isNumber (xs.foldl (· + ·) start) = true →
        Scalar.isNumber start = true ∧ ∀ x ∈ xs, Scalar.isNumber x = true := by
    intro xs
    induction xs with
    | nil => exact fun start h => ⟨h, List.forall_mem_nil _⟩
    | cons x xs ih =>
      intro start h
      obtain ⟨hsum, hrest⟩ := ih _ h
      obtain ⟨hstart, hx⟩ := isNumber_of_add hsum
      exact ⟨hstart, List.forall_mem_cons.mpr ⟨hx, hrest⟩⟩
  exact (hfold xs _ h).2

namespace Portfolio

variable {p : Portfolio Float} {leverage fee : Float} {security : Snapshot Float}
  {order : Order Float}

/-! ## One check -/

theorem isNumber_of_required
    (h : Scalar.isNumber (p.required leverage security order fee) = true) :
    Scalar.isNumber fee = true ∧ Scalar.isNumber (referencePrice security order) = true := by
  obtain ⟨hmargin, hfee⟩ := Floating.isNumber_of_add h
  exact ⟨hfee, (Floating.isNumber_of_mul (Floating.isNumber_of_div hmargin).1).2⟩

theorem isNumber_of_available (h : Scalar.isNumber (p.available leverage) = true) :
    Scalar.isNumber p.cash = true ∧ ∀ held ∈ p.positions.values,
      Scalar.isNumber held.quantity = true ∧ Scalar.isNumber held.marketPrice = true := by
  obtain ⟨hcash, hvalue⟩ := Floating.isNumber_of_add (Floating.isNumber_of_sub h).1
  refine ⟨hcash, fun held hmem => Floating.isNumber_of_mul ?_⟩
  exact Floating.isNumber_of_sum hvalue _ (List.mem_map_of_mem hmem)

/-- What the power check makes sure of, for all floating-point amounts, the infinite ones and those
that are not numbers included. It approves an order that opens exposure exactly if the order
requires no more than is available, or if one of the two is not a number. What the order requires
is a number only if the fee and the reference price are; what is available, only if the cash and
the quantity and the mark of every position are. -/
theorem check_sufficient_iff (p : Portfolio Float) (leverage : Float) (security : Snapshot Float)
    (order : Order Float) (fee : Float) (hopens : ¬ p.opening order ≤ 0) :
    let required := p.required (effectiveLeverage leverage) security order fee
    let available := p.available (effectiveLeverage leverage)
    ((p.check (effectiveLeverage leverage) security order fee).sufficient = true ↔
      required ≤ available ∨
        ¬ (Scalar.isNumber required = true ∧ Scalar.isNumber available = true)) ∧
    (Scalar.isNumber required = true →
      Scalar.isNumber fee = true ∧ Scalar.isNumber (referencePrice security order) = true) ∧
    (Scalar.isNumber available = true →
      Scalar.isNumber p.cash = true ∧ ∀ held ∈ p.positions.values,
        Scalar.isNumber held.quantity = true ∧ Scalar.isNumber held.marketPrice = true) := by
  intro required available
  refine ⟨?_, isNumber_of_required, isNumber_of_available⟩
  rw [sufficient_iff_not_lt hopens, Floating.not_lt_iff, and_comm]

/-- Two positions at finite marks whose values are infinite on either side leave an amount that is
not a number: the account affords what it has no cash for. -/
theorem check_sufficient_iff_of_overflow :
    let held (quantity : Float) : Position Float := ⟨quantity, 1, 1e200⟩
    let p := { Portfolio.ofCash "USD" (100 : Float) with
      positions := (Table.empty.insert "QQQ" (held 1e200)).insert "IWM" (held (-1e200)) }
    let security := Snapshot.ofPrice "SPY" ⟨60⟩ (50 : Float)
    let order : Order Float :=
      { id := 1, symbol := "SPY", quantity := 10, kind := .market, time := ⟨0⟩, filled := 0 }
    let required := p.required (effectiveLeverage 2) security order 1
    ¬ p.opening order ≤ 0 ∧ required = 251 ∧
      Scalar.isNumber (p.available (effectiveLeverage 2)) = false ∧
      ¬ required ≤ p.available (effectiveLeverage 2) ∧
      (p.check (effectiveLeverage 2) security order 1).sufficient = true := by
  intro held p security order required
  have hopens : ¬ p.opening order ≤ 0 := by decide +kernel
  have hnone : Scalar.isNumber (p.available (effectiveLeverage 2)) = false := by decide +kernel
  refine ⟨hopens, by decide +kernel, hnone, by decide +kernel, ?_⟩
  refine (check_sufficient_iff p 2 security order 1 hopens).1.mpr (.inr fun h => ?_)
  exact absurd h.2 (Bool.not_eq_true _ ▸ hnone)

/-- A fee that is not a number: the account affords more than its cash. -/
theorem check_approves_unknown_fee :
    let p := Portfolio.ofCash "USD" (100 : Float)
    let security := Snapshot.ofBar "SPY" (Bar.flat ⟨60⟩ (100 : Float) 1000)
    let order : Order Float :=
      { id := 1, symbol := "SPY", quantity := 10, kind := .market, time := ⟨0⟩, filled := 0 }
    let fee : Float := 0 / 0
    let leverage : Float := effectiveLeverage 1
    let required := p.required leverage security order fee
    order.validate.isOk = true ∧ order.filled = 0 ∧ 0 < p.opening order ∧
      Scalar.isNumber fee = false ∧ Scalar.isNumber required = false ∧
      p.available leverage = 100 ∧
      (p.check leverage security order fee).sufficient = true ∧
      ¬ required ≤ p.available leverage := by
  decide +kernel

/-! ## From then on -/

/-- Cash that is not a number affords every order. -/
theorem sufficient_of_cash (hcash : Scalar.isNumber p.cash = false) (leverage : Float)
    (security : Snapshot Float) (order : Order Float) (fee : Float) :
    (p.check leverage security order fee).sufficient = true := by
  have hless : ¬ p.available leverage < p.required leverage security order fee := by
    refine Floating.not_lt_iff.mpr (.inr fun h => ?_)
    exact absurd (isNumber_of_available h.1).1 (Bool.not_eq_true _ ▸ hcash)
  simp only [check, if_neg hless]
  split <;> rfl

/-- A fill leaves cash that is a number only if the cash, what was paid and the fee are numbers. -/
theorem isNumber_of_cash_applyFill {e : OrderEvent Float} (he : e.isFill = true)
    (h : Scalar.isNumber (p.applyFill e).cash = true) :
    Scalar.isNumber p.cash = true ∧ Scalar.isNumber (e.fillQuantity * e.fillPrice) = true ∧
      Scalar.isNumber e.fee = true := by
  rw [cash_applyFill_of_fill he] at h
  obtain ⟨hcash, hcost⟩ := Floating.isNumber_of_sub h
  exact ⟨hcash, Floating.isNumber_of_add hcost⟩

theorem cash_applyFill_unknown (hcash : Scalar.isNumber p.cash = false) (e : OrderEvent Float) :
    Scalar.isNumber (p.applyFill e).cash = false := by
  cases he : e.isFill with
  | false => rwa [applyFill_of_not_fill he]
  | true =>
    rw [← Bool.not_eq_true]
    exact fun h => absurd (isNumber_of_cash_applyFill he h).1 (Bool.not_eq_true _ ▸ hcash)

end Portfolio

variable {σ : Type} {models : Models Float σ}

theorem Floor.Visited.cash_unknown {now : Instant} {id : OrderId} {f f' : Floor Float σ}
    {needed : Bool} (h : Visited models now id f f' needed)
    (hcash : Scalar.isNumber f.account.cash = false) :
    Scalar.isNumber f'.account.cash = false := by
  cases h with
  | stale hs hl ha hg => rwa [ha]
  | held hl ha hg => rwa [ha]
  | rekinded hs ho hi hl ha hg => rwa [ha]
  | booked hs ho hi hl ha hg =>
    rw [ha]
    exact Portfolio.cash_applyFill_unknown hcash _

namespace Desk

variable {d : Desk Float σ}

theorem Stepped.cash_unknown {a : Action Float} {f : Floor Float σ} (h : Stepped models d a f)
    (hf : d.ledger.WellFiled) (hcash : Scalar.isNumber d.account.cash = false) :
    Scalar.isNumber f.account.cash = false := by
  cases h with
  | idle => exact hcash
  | filed hr ho he ht => exact Portfolio.cash_applyFill_unknown hcash _
  | unmarked hn => exact hcash
  | passed =>
    exact Floor.visitAll_keeps (P := fun g => Scalar.isNumber g.account.cash = false)
      (fun _ _ _ _ hv _ h => hv.cash_unknown h) _ hf hcash
  | marked => exact hcash

/-- One amount that is not a number opens the gate for good: once the cash of a desk is none, its
account affords every order after every run, whatever the models. -/
theorem run_sufficient (hf : d.ledger.WellFiled)
    (hcash : Scalar.isNumber d.account.cash = false) (actions : List (Action Float))
    (leverage : Float) (security : Snapshot Float) (order : Order Float) (fee : Float) :
    ((d.run models actions).account.check leverage security order fee).sufficient = true := by
  have hrun : Scalar.isNumber (d.run models actions).account.cash = false :=
    run_keeps (P := fun d => Scalar.isNumber d.account.cash = false)
      (fun _ a _ he h => (step_stepped models he a).cash_unknown he h) hf hcash
  exact Portfolio.sufficient_of_cash hrun leverage security order fee

end Desk

end TradingDesk
