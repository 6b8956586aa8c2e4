import Mathlib.Algebra.Order.Field.Rat
import Mathlib.Data.Sign.Basic
import Mathlib.Tactic.Linarith
import TradingDesk.Scalar.Exact
/- Proofs.Exact — the scalar operations over the rationals.

   Over the rationals the operations of a scalar are the familiar ones: every
   value is a number, no difference cancels, and magnitude, minimum and maximum
   are those of the ordered field. `PartOf` says of two rationals that the first
   is a part of the second, on its side of zero; fills are parts of what is left
   of an order, and fill progress is a part of its quantity. -/
namespace TradingDesk

namespace Scalar

theorem isNegative_iff {x : Rat} : isNegative x = true ↔ x < 0 := decide_eq_true_iff

theorem abs_rat (x : Rat) : Scalar.abs x = |x| := by
  unfold Scalar.abs
  split
  · next h => exact (abs_of_neg (isNegative_iff.mp h)).symm
  · next h => exact (abs_of_nonneg (not_lt.mp fun hx => h (isNegative_iff.mpr hx))).symm

theorem isNumber_rat (x : Rat) : isNumber x = true := decide_eq_true (le_refl x)

theorem min_rat (x y : Rat) : Scalar.min x y = Min.min x y := by
  rw [Scalar.min, isNumber_rat, if_pos rfl]
  split
  · next h => exact (min_eq_right h).symm
  · next h => exact (min_eq_left (not_le.mp h).le).symm

theorem max_rat (x y : Rat) : Scalar.max x y = Max.max x y := by
  rw [Scalar.max, isNumber_rat, if_pos rfl]
  split
  · next h => exact (max_eq_right h).symm
  · next h => exact (max_eq_left (not_le.mp h).le).symm

theorem tolerance_pos : (0 : Rat) < tolerance := by decide +kernel

theorem tolerance_not_le_abs_zero : ¬ (tolerance : Rat) ≤ Scalar.abs 0 := by
  rw [abs_rat, abs_zero, not_le]
  exact tolerance_pos

theorem negligible_iff {x : Rat} : negligible x = true ↔ |x| < tolerance := by
  rw [negligible, decide_eq_true_iff, abs_rat]

theorem sameSign_iff {x y : Rat} : sameSign x y = true ↔ (x < 0 ↔ y < 0) := by
  rw [sameSign, isNumber_rat, isNumber_rat, Bool.true_and, Bool.true_and, beq_iff_eq]
  exact decide_eq_decide

/-- Apart from zero, the same sign is the same side. -/
theorem sign_eq_of_sameSign {x y : Rat} (h : sameSign x y = true) (hx : x ≠ 0) (hy : y ≠ 0) :
    SignType.sign x = SignType.sign y := by
  have h := sameSign_iff.mp h
  rcases lt_or_gt_of_ne hx with hx | hx
  · rw [sign_neg hx, sign_neg (h.mp hx)]
  · have hy' : ¬ y < 0 := fun hn => absurd (h.mpr hn) (not_lt.mpr hx.le)
    rw [sign_pos hx, sign_pos (lt_of_le_of_ne (not_lt.mp hy') (Ne.symm hy))]

theorem ne_zero_of_tolerance_le {x : Rat} (h : tolerance ≤ |x|) : x ≠ 0 :=
  abs_pos.mp (tolerance_pos.trans_le h)

/-- A quantity larger than another one stays on its side when that is taken away. -/
theorem sign_sub_of_abs_lt {x y : Rat} (h : |y| < |x|) :
    SignType.sign (x - y) = SignType.sign x := by
  have hy := abs_lt.mp h
  rcases lt_trichotomy x 0 with hx | rfl | hx
  · rw [abs_of_neg hx] at hy
    rw [sign_neg hx, sign_neg (by linarith)]
  · rw [abs_zero] at h
    exact absurd h (not_lt.mpr (abs_nonneg y))
  · rw [abs_of_pos hx] at hy
    rw [sign_pos hx, sign_pos (by linarith)]

/-- A quantity that is added to one on the other side takes it through zero when it is larger. -/
theorem through_zero_iff {x y : Rat} (hopposite : ¬ (x < 0 ↔ y < 0)) (hne : x + y ≠ 0) :
    ¬ (x + y < 0 ↔ x < 0) ↔ |x| < |y| := by
  rcases lt_or_ge x 0 with hx | hx
  · have hy : 0 ≤ y := not_lt.mp fun hy => hopposite (iff_of_true hx hy)
    rw [abs_of_neg hx, abs_of_nonneg hy, iff_true_right hx, not_lt, neg_lt_iff_pos_add']
    exact hne.symm.le_iff_lt
  · have hy : y < 0 := not_le.mp fun hy => hopposite (iff_of_false hx.not_gt hy.not_gt)
    rw [abs_of_nonneg hx, abs_of_neg hy, iff_false_right hx.not_gt, not_not, lt_neg_iff_add_neg]

theorem sum_rat (xs : List Rat) : Scalar.sum xs = xs.sum := by
  rw [Scalar.sum, neg_zero, ← List.sum_eq_foldl]

theorem cancels_rat (x y : Rat) : cancels x y = false := by
  rw [cancels, isNumber_rat (x - y), Bool.not_true, Bool.and_false]

end Scalar

/-! ## Parts -/

/-- `part` lies between zero and `whole`. -/
def PartOf (part whole : Rat) : Prop := 0 ≤ part ∧ part ≤ whole ∨ whole ≤ part ∧ part ≤ 0

namespace PartOf

variable {part part' whole whole' : Rat}

theorem zero (whole : Rat) : PartOf 0 whole :=
  (le_total 0 whole).imp (fun h => ⟨le_refl 0, h⟩) fun h => ⟨h, le_refl 0⟩

theorem refl (whole : Rat) : PartOf whole whole :=
  (le_total 0 whole).imp (fun h => ⟨h, le_refl whole⟩) fun h => ⟨le_refl whole, h⟩

theorem abs_le (h : PartOf part whole) : |part| ≤ |whole| := by
  rcases h with ⟨h, hw⟩ | ⟨hw, h⟩
  · exact abs_le_abs_of_nonneg h hw
  · exact abs_le_abs_of_nonpos h hw

theorem abs_sub (h : PartOf part whole) : |whole - part| = |whole| - |part| := by
  rcases h with ⟨h, hw⟩ | ⟨hw, h⟩
  · rw [abs_of_nonneg h, abs_of_nonneg (h.trans hw), abs_of_nonneg (sub_nonneg.mpr hw)]
  · rw [abs_of_nonpos h, abs_of_nonpos (hw.trans h), abs_of_nonpos (sub_nonpos.mpr hw)]
    linarith

theorem sign_eq (h : PartOf part whole) (hne : part ≠ 0) :
    SignType.sign part = SignType.sign whole := by
  rcases h with ⟨h, hw⟩ | ⟨hw, h⟩
  · have hp : 0 < part := lt_of_le_of_ne h (Ne.symm hne)
    rw [sign_pos hp, sign_pos (hp.trans_le hw)]
  · have hp : part < 0 := lt_of_le_of_ne h hne
    rw [sign_neg hp, sign_neg (hw.trans_lt hp)]

theorem trans (h : PartOf part part') (h' : PartOf part' whole) : PartOf part whole := by
  rcases h with ⟨h, hp⟩ | ⟨hp, h⟩ <;> rcases h' with ⟨h', hw⟩ | ⟨hw, h'⟩
  · exact .inl ⟨h, hp.trans hw⟩
  · exact .inr ⟨by linarith, by linarith⟩
  · exact .inl ⟨by linarith, by linarith⟩
  · exact .inr ⟨hw.trans hp, h⟩

/-- What is left of a whole is a part of it. -/
theorem rest (h : PartOf part whole) : PartOf (whole - part) whole := by
  rcases h with ⟨h, hw⟩ | ⟨hw, h⟩
  · exact .inl ⟨sub_nonneg.mpr hw, sub_le_self whole h⟩
  · exact .inr ⟨by linarith, sub_nonpos.mpr hw⟩

/-- A part and a part of the rest make a part. -/
theorem add (h : PartOf part whole) (h' : PartOf part' (whole - part)) :
    PartOf (part + part') whole := by
  rcases h with ⟨h, hw⟩ | ⟨hw, h⟩ <;> rcases h' with ⟨h', hw'⟩ | ⟨hw', h'⟩
  · exact .inl ⟨by linarith, by linarith⟩
  · exact .inl ⟨by linarith, by linarith⟩
  · exact .inr ⟨by linarith, by linarith⟩
  · exact .inr ⟨by linarith, by linarith⟩

/-- A part fits into another whole on its side that is as large. -/
theorem resize (h : PartOf part whole) (hs : whole' < 0 ↔ whole < 0) (hle : |part| ≤ |whole'|) :
    PartOf part whole' := by
  rcases h with ⟨h, hw⟩ | ⟨hw, h⟩
  · have hw' : 0 ≤ whole' := not_lt.mp fun hn => absurd (hs.mp hn) (not_lt.mpr (h.trans hw))
    rw [abs_of_nonneg h, abs_of_nonneg hw'] at hle
    exact .inl ⟨h, hle⟩
  · rcases eq_or_lt_of_le h with rfl | hp
    · exact .zero whole'
    · have hw' : whole' < 0 := hs.mpr (hw.trans_lt hp)
      rw [abs_of_neg hp, abs_of_neg hw'] at hle
      exact .inr ⟨by linarith, h⟩

end PartOf

end TradingDesk
