import TradingDesk.Proofs.Floating
import TradingDesk.Document.Number
/- Proofs.Rounding — what is read from a numeral is a number.

   A numeral is read in steps: its digits become a floating-point number, which is
   multiplied or divided by powers of ten. A product or a quotient of numbers is a number
   unless a zero or an infinity meets another (`Floating.isNumber_mul`,
   `Floating.isNumber_div`), so it is enough that no power of ten in range is rounded to
   zero or to infinity (`isProper_tenTo`). For that the rounding of a significand is
   followed to its end: a shift to fifty-three digits, the rounding, and a second shift
   where it carried (`roundWithAccuracy_normal`). -/
namespace TradingDesk

open Decimal

namespace Floating

open Float.Model (Format UnpackedFloat totalExponent)
open Float.Model.UnpackedFloat

/-! ## Rounding -/

theorem mantissa_shiftRight (a : ExtendedMantissa) (n : Nat) :
    (a >>> n).mantissa = a.mantissa / 2 ^ n := by
  show (Nat.repeat ExtendedMantissa.shiftRightOne n a).mantissa = _
  induction n with
  | zero => exact (Nat.div_one _).symm
  | succ n ih =>
    show (Nat.repeat ExtendedMantissa.shiftRightOne n a).mantissa / 2 = _
    rw [ih, Nat.div_div_eq_div_mul, Nat.pow_succ]

theorem roundedMantissa_bounds (a : ExtendedMantissa) :
    a.mantissa ≤ a.roundedMantissa ∧ a.roundedMantissa ≤ a.mantissa + 1 := by
  unfold ExtendedMantissa.roundedMantissa
  cases a.accuracy with
  | exact => simp [Accuracy.roundToNearestEven]
  | inexact o => cases o <;> (simp [Accuracy.roundToNearestEven]; try omega)

theorem mantissa_shiftToTargetExponent (spec : Format) (m : Nat) (e : Int) (a : Accuracy) :
    let k := (spec.targetExponent (totalExponent m e) - e).toNat
    (shiftToTargetExponent spec m e a).1.mantissa = m / 2 ^ k ∧
      (shiftToTargetExponent spec m e a).2 = e + k := by
  intro k
  refine ⟨?_, rfl⟩
  show (ExtendedMantissa.ofMantissaAndAccuracy m a >>> k).mantissa = _
  rw [mantissa_shiftRight]
  cases a with
  | exact => rfl
  | inexact o => cases o <;> rfl

/-- The significand that rounding starts from has all the digits of a normal number, and the number
is in the range of normal numbers. Rounding up may carry into one more digit. -/
theorem roundWithAccuracy_normal {m : Nat} {e : Int} (s : Sign) (a : Accuracy) (hm : 2 ^ 52 ≤ m)
    (he : -1021 ≤ totalExponent m e) :
    ∃ n k hn, roundWithAccuracy .binary64 s m e a = .finite s n k hn ∧ 2 ^ 52 ≤ n ∧ n < 2 ^ 53 ∧
      totalExponent m e - 53 ≤ k ∧ k ≤ totalExponent m e - 52 := by
  have htarget : ∀ t : Int, -1021 ≤ t → Format.binary64.targetExponent t = t - 53 := by
    intro t ht
    simp only [Format.targetExponent, Format.minExponent, Format.mantissaBits]
    omega
  have hlog : 52 ≤ m.log2 := (Nat.le_log2 (by omega)).mpr hm
  obtain ⟨hm₁, he₁⟩ := mantissa_shiftToTargetExponent .binary64 m e a
  have hk : (totalExponent m e - 53 - e).toNat = m.log2 - 52 := by
    simp only [totalExponent]
    omega
  rw [htarget _ he, hk] at hm₁ he₁
  have hlow : 2 ^ 52 ≤ m / 2 ^ (m.log2 - 52) := by
    rw [Nat.le_div_iff_mul_le (by positivity), ← Nat.pow_add, Nat.add_sub_cancel' hlog]
    exact Nat.log2_self_le (by omega)
  have hhigh : m / 2 ^ (m.log2 - 52) < 2 ^ 53 := by
    rw [Nat.div_lt_iff_lt_mul (by positivity), ← Nat.pow_add]
    exact Nat.lt_log2_self.trans_le (Nat.pow_le_pow_right (by decide) (by omega))
  obtain ⟨hr₁, hr₂⟩ := roundedMantissa_bounds (shiftToTargetExponent .binary64 m e a).1
  rw [hm₁] at hr₁ hr₂
  generalize hr : (shiftToTargetExponent .binary64 m e a).1.roundedMantissa = r at hr₁ hr₂
  generalize hf : (shiftToTargetExponent .binary64 m e a).2 = f at he₁
  have hround : roundWithAccuracy .binary64 s m e a =
      if h : (shiftToTargetExponent .binary64 r f .exact).1.mantissa = 0 then .zero s
      else .finite s _ (shiftToTargetExponent .binary64 r f .exact).2 (Nat.pos_of_ne_zero h) := by
    rw [← hr, ← hf]
    rfl
  obtain ⟨hm₂, he₂⟩ := mantissa_shiftToTargetExponent .binary64 r f .exact
  have hlogr : r.log2 = if r = 2 ^ 53 then 53 else 52 := by
    split
    · next h => rw [h, Nat.log2_two_pow]
    · refine (Nat.log2_eq_iff (by omega)).mpr ⟨by omega, by omega⟩
  have hf : f = totalExponent m e - 53 := by
    simp only [totalExponent]
    omega
  have htotal : totalExponent r f = r.log2 + 1 + f := rfl
  rw [htarget _ (by split at hlogr <;> omega)] at hm₂ he₂
  have hk₂ : (totalExponent r f - 53 - f).toNat = if r = 2 ^ 53 then 1 else 0 := by
    rw [htotal, hlogr]
    split <;> omega
  rw [hk₂] at hm₂ he₂
  have hmantissa : (shiftToTargetExponent .binary64 r f .exact).1.mantissa ≠ 0 := by
    rw [hm₂]
    split <;> omega
  refine ⟨_, _, _, hround.trans (dif_neg hmantissa), ?_⟩
  rw [hm₂, he₂]
  split <;> omega

/-- A number with the digits and the exponent of a normal number is put together as a finite one. -/
theorem isProper_ofParts_normal {m : Nat} {e : Int} (s : Sign) (hpos : 0 < m) (hm : 2 ^ 52 ≤ m)
    (hm' : m < 2 ^ 53) (he : -1074 ≤ e) (he' : e ≤ 971) :
    IsProper (ofParts (.finite s m e hpos)) := by
  have hlog : m.log2 = 52 := (Nat.log2_eq_iff (by omega)).mpr ⟨by omega, by omega⟩
  have hbias : Format.binary64.exponentBias = 1023 := rfl
  have hsmall : ¬ 2 ^ 11 ≤ (e + (1023 : Nat) + (52 : Nat)).toNat + 1 := by omega
  have hpack : (UnpackedFloat.finite s m e hpos).pack .binary64 =
      packComponents .binary64 s (BitVec.ofNat _ (e + (1023 : Nat) + (52 : Nat)).toNat)
        (BitVec.ofNat _ m) := by
    simp only [pack, hbias]
    rw [if_neg hsmall, if_pos (by rw [hlog]; rfl)]
  unfold IsProper
  rw [parts_ofParts, hpack]
  simp only [unpack, unpackExponent_packComponents, unpackMantissa_packComponents]
  have hexponent : (BitVec.ofNat 11 (e + (1023 : Nat) + (52 : Nat)).toNat).toNat =
      (e + (1023 : Nat) + (52 : Nat)).toNat := by
    rw [BitVec.toNat_ofNat, Nat.mod_eq_of_lt (by omega)]
  generalize BitVec.ofNat _ m = fraction
  rw [if_neg, if_neg]
  · refine ⟨_, _, _, ?_, rfl⟩
    rw [BitVec.toNat_append, Nat.pos_iff_ne_zero]
    simp
  · intro h
    have h := congrArg BitVec.toNat h
    rw [hexponent] at h
    simp at h
    omega
  · intro h
    have h := congrArg BitVec.toNat h
    rw [hexponent] at h
    simp at h
    omega

/-! ## Whole numbers and powers of ten -/

theorem ofScientific_ne (spec : Format) (m : Nat) (e : Int) :
    UnpackedFloat.ofScientific spec m e ≠ .notANumber := by
  unfold UnpackedFloat.ofScientific
  split
  · exact fun h => by cases h
  split
  · exact fun h => by cases h
  split
  · exact fun h => by cases h
  split
  · exact roundWithAccuracy_ne _ _ _ _ _
  · exact roundWithAccuracy_ne _ _ _ _ _

theorem isNumber_ofNat (n : Nat) : Scalar.isNumber (Float.ofNat n) = true := by
  show Scalar.isNumber (Float.ofScientific n false 0) = true
  unfold Float.ofScientific
  split
  · have hone : 0 < Float.ofBits 0x3FF0000000000000 ∧
        (Float.ofBits 0x3FF0000000000000).isFinite = true := by decide +kernel
    exact isNumber_mul (isNumber_ofParts.mpr (normalize_ne _ _ _ _))
      (isProper_of_pos hone.1 hone.2)
  · exact isNumber_ofParts.mpr (ofScientific_ne _ _ _)

theorem log2_two_pow_mul (k : Nat) {n : Nat} (hn : n ≠ 0) : (2 ^ k * n).log2 = k + n.log2 := by
  induction k with
  | zero => simp
  | succ k ih =>
    rw [Nat.pow_succ, Nat.mul_comm (2 ^ k) 2, Nat.mul_assoc, Nat.log2_two_mul (by positivity), ih]
    omega

theorem log2_pow_ten_lt {n : Nat} (h : n ≤ 307) : (10 ^ n).log2 < 1020 := by
  have hpow : ∀ k l, 10 ^ k < 2 ^ l → n ≤ k → (10 ^ n).log2 < l :=
    fun k l hk h => (Nat.log2_lt (by positivity)).mpr
      ((Nat.pow_le_pow_right (by decide) h).trans_lt hk)
  exact hpow 307 1020 (by decide +kernel) h

theorem isProper_ofScientific_pow {n : Nat} (h : n ≤ 307) :
    IsProper (ofParts (UnpackedFloat.ofScientific .binary64 1 (Int.ofNat n))) := by
  have hround : UnpackedFloat.ofScientific .binary64 1 (Int.ofNat n) =
      roundWithAccuracy .binary64 .positive (2 ^ 53 * 10 ^ n) (-53) .exact := by
    unfold UnpackedFloat.ofScientific
    rw [dif_neg (by omega), if_neg (by simp; omega), if_neg (by simp; omega), if_pos (by simp)]
    rfl
  have hlog : (2 ^ 53 * 10 ^ n).log2 = 53 + (10 ^ n).log2 := log2_two_pow_mul 53 (by positivity)
  have hpow : (10 ^ n).log2 < 1020 := log2_pow_ten_lt h
  have htotal : totalExponent (2 ^ 53 * 10 ^ n) (-53) = (2 ^ 53 * 10 ^ n).log2 + 1 + -53 := rfl
  rw [hlog] at htotal
  have hdigits : 2 ^ 52 ≤ 2 ^ 53 * 10 ^ n := (Nat.le_log2 (by positivity)).mp (by omega)
  have hnormal : -1021 ≤ totalExponent (2 ^ 53 * 10 ^ n) (-53) := by omega
  obtain ⟨m, e, hm, hfinite, hlow, hhigh, he, he'⟩ :=
    roundWithAccuracy_normal .positive .exact hdigits hnormal
  rw [hround, hfinite]
  exact isProper_ofParts_normal _ _ hlow hhigh (by omega) (by omega)

end Floating

theorem isProper_tenTo {n : Nat} (h : n ≤ largestPower) : Floating.IsProper (tenTo n) := by
  -- The last power is beyond the bound on logarithms, so it is computed like the smallest ones.
  have hexact : ∀ n : Fin 23, 0 < tenTo n ∧ (tenTo n).isFinite = true := by decide +kernel
  have hlast : 0 < tenTo 308 ∧ (tenTo 308).isFinite = true := by decide +kernel
  rcases Nat.lt_or_ge n 23 with hn | hn
  · exact Floating.isProper_of_pos (hexact ⟨n, hn⟩).1 (hexact ⟨n, hn⟩).2
  rcases Nat.eq_or_lt_of_le h with rfl | hn'
  · exact Floating.isProper_of_pos hlast.1 hlast.2
  · have hmodel : tenTo n = Floating.ofParts
        (Float.Model.UnpackedFloat.ofScientific .binary64 1 (Int.ofNat n)) := by
      unfold tenTo Float.ofScientific
      rw [dif_neg (by omega)]
      rfl
    rw [hmodel]
    exact Floating.isProper_ofScientific_pow (Nat.le_of_lt_succ hn')

/-! ## Numerals -/

theorem isNumber_scaleDown {x : Float} (hx : Scalar.isNumber x = true) (n : Nat) :
    Scalar.isNumber (scaleDown x n) = true := by
  unfold scaleDown
  split
  · next hn => exact Floating.isNumber_div hx (isProper_tenTo hn)
  split
  · have hfirst := Floating.isNumber_div hx (isProper_tenTo (Nat.le_refl largestPower))
    exact Floating.isNumber_div hfirst (isProper_tenTo (by omega))
  · decide +kernel

theorem isNumber_of_scaleUp? {x y : Float} {n : Nat} (h : scaleUp? x n = some y) :
    Scalar.isNumber y = true := by
  simp only [scaleUp?, Option.ite_none_right_eq_some] at h
  obtain ⟨-, hfinite, hy⟩ := h
  cases hy
  exact Floating.isNumber_of_isFinite hfinite

theorem Scaled.isNumber_of_float? {d : Scaled} {x : Float} (h : d.float? = some x) :
    Scalar.isNumber x = true := by
  unfold Scaled.float? at h
  split at h
  · cases h
    decide +kernel
  split at h
  · exact isNumber_of_scaleUp? h
  · cases h
    exact isNumber_scaleDown (Floating.isNumber_ofNat _) _

theorem Numeral.isNumber_of_float? {n : Numeral} {x : Float} (h : n.float? = some x) :
    Scalar.isNumber x = true := by
  obtain ⟨y, hy, rfl⟩ := Option.map_eq_some_iff.mp h
  have hnumber := Scaled.isNumber_of_float? hy
  split
  · exact Floating.isNumber_neg hnumber
  · exact hnumber

/-- A document that is read as a floating-point number at all is read as a number. -/
theorem Document.isNumber_of_float? {d : Document} {x : Float} (h : d.float? = some x) :
    Scalar.isNumber x = true := by
  cases d with
  | number n => exact Numeral.isNumber_of_float? h
  | _ => cases h

end TradingDesk
