import Mathlib
import TradingDesk.Scalar.Floating
/- Proofs.Floating — the laws that double precision keeps.

   An operation takes its operands apart into sign, mantissa and exponent, works on these,
   and puts the result together again. So a fact about the parts becomes a fact about the
   numbers once it is known what the two ways round leave alone: a change of sign goes
   through both (`parts_neg`, `ofParts_neg`). It turns the order round (`neg_le_neg_iff`)
   and comes out of a sum (`add_neg`), but for a sum that is zero, which forgets the signs
   of its terms. What is not a number comes out of every operation as it went in
   (`isNumber_of_add` and those after it), and is the one thing that is neither less than
   a number nor at least as great (`not_lt_iff`). -/
namespace TradingDesk

open Float.Model (Format UnpackedFloat)
open Float.Model.UnpackedFloat

namespace Floating

/-- A number as its sign, mantissa and exponent. -/
def parts (x : Float) : UnpackedFloat := x.toModel.unpack

/-- The number that is put together from parts. -/
def ofParts (f : UnpackedFloat) : Float := ⟨Float.Model.pack f⟩

theorem ofParts_parts (x : Float) : ofParts (parts x) = x :=
  Float.toBits_inj.mp (UInt64.toBitVec_inj.mp (pack_unpack_of_valid x.toModel.valid))

theorem parts_ofParts (f : UnpackedFloat) :
    parts (ofParts f) = unpack .binary64 (f.pack .binary64) := rfl

theorem parts_inj {x y : Float} (h : parts x = parts y) : x = y := by
  rw [← ofParts_parts x, h, ofParts_parts]

theorem add_eq (x y : Float) : x + y = ofParts (.add .binary64 (parts x) (parts y)) := rfl

theorem sub_eq (x y : Float) : x - y = ofParts (.sub .binary64 (parts x) (parts y)) := rfl

theorem neg_eq (x : Float) : -x = ofParts (parts x).neg := rfl

theorem le_iff {x y : Float} : x ≤ y ↔ (parts x).le (parts y) = true := by
  show decide _ = true ↔ _
  rw [decide_eq_true_iff]
  exact Iff.rfl

theorem lt_iff {x y : Float} : x < y ↔ (parts x).lt (parts y) = true := by
  show decide _ = true ↔ _
  rw [decide_eq_true_iff]
  exact Iff.rfl

theorem parts_zero : parts 0 = .zero .positive := rfl

theorem parts_nan : parts (ofParts .notANumber) = .notANumber :=
  @unpack_packedNaN .binary64

/-! ## A change of sign -/

/-- Of the bits of a number a change of sign flips the one for the sign. -/
theorem pack_neg {f : UnpackedFloat} (hf : f ≠ .notANumber) :
    ∃ s e m, f.pack .binary64 = packComponents .binary64 s e m ∧
      f.neg.pack .binary64 = packComponents .binary64 (-s) e m := by
  cases f with
  | notANumber => exact absurd rfl hf
  | infinity s => exact ⟨s, _, _, rfl, rfl⟩
  | zero s => exact ⟨s, _, _, rfl, rfl⟩
  | finite s m e hm =>
    simp only [neg, pack]
    split
    · exact ⟨s, _, _, rfl, rfl⟩
    · split
      · exact ⟨s, _, _, rfl, rfl⟩
      · exact ⟨s, _, _, rfl, rfl⟩

theorem unpack_neg (s : Sign) (e : BitVec 11) (m : BitVec 52) :
    unpack .binary64 (packComponents .binary64 (-s) e m) =
      (unpack .binary64 (packComponents .binary64 s e m)).neg := by
  simp only [unpack, unpackExponent_packComponents, unpackMantissa_packComponents,
    unpackSign_packComponents, Sign.ofBitVec_toBitVec]
  split
  · split <;> rfl
  · split
    · split <;> rfl
    · rfl

theorem parts_ofParts_neg (f : UnpackedFloat) :
    parts (ofParts f.neg) = (parts (ofParts f)).neg := by
  by_cases hf : f = .notANumber
  · rw [hf, show UnpackedFloat.notANumber.neg = .notANumber from rfl, parts_nan]
    rfl
  · obtain ⟨s, e, m, hpack, hneg⟩ := pack_neg hf
    rw [parts_ofParts, parts_ofParts, hpack, hneg]
    exact unpack_neg s e m

theorem parts_neg (x : Float) : parts (-x) = (parts x).neg := by
  rw [neg_eq, parts_ofParts_neg, ofParts_parts]

theorem ofParts_neg (f : UnpackedFloat) : ofParts f.neg = -ofParts f :=
  parts_inj (by rw [parts_ofParts_neg, parts_neg])

theorem sign_neg_neg (s : Sign) : - -s = s := by cases s <;> rfl

theorem parts_neg_neg (f : UnpackedFloat) : f.neg.neg = f := by
  cases f with
  | notANumber => rfl
  | infinity s => exact congrArg infinity (sign_neg_neg s)
  | zero s => exact congrArg UnpackedFloat.zero (sign_neg_neg s)
  | finite s m e hm => simp only [neg, sign_neg_neg]

theorem neg_neg (x : Float) : - -x = x :=
  parts_inj (by rw [parts_neg, parts_neg, parts_neg_neg])

/-! ## Order -/

theorem sign_compare_swap (s t : Sign) : compare t s = (compare s t).swap := by
  cases s <;> cases t <;> rfl

theorem sign_compare_neg (s t : Sign) : compare (-s) (-t) = compare t s := by
  cases s <;> cases t <;> rfl

theorem compare_swap (a b : UnpackedFloat) : b.compare a = (a.compare b).map Ordering.swap := by
  cases a <;> cases b <;>
    grind [UnpackedFloat.compare, cases Sign, Ordering.swap, Ordering.swap_then, Int.compare_swap,
      Nat.compare_swap, sign_compare_swap]

theorem compare_neg (a b : UnpackedFloat) : a.neg.compare b.neg = b.compare a := by
  have hpositive : -Sign.positive = Sign.negative := rfl
  have hnegative : -Sign.negative = Sign.positive := rfl
  cases a <;> cases b <;>
    grind [UnpackedFloat.compare, neg, cases Sign, Ordering.swap_then, Int.compare_swap,
      Nat.compare_swap, sign_compare_neg]

/-- The order does not tell the two zeros apart. -/
theorem compare_zero (a : UnpackedFloat) (s : Sign) :
    a.compare (.zero s) = a.compare (.zero .positive) := by
  cases a with
  | notANumber => rfl
  | infinity t => cases t <;> rfl
  | zero t => rfl
  | finite t m e hm => cases t <;> rfl

theorem compare_eq_none_iff {a b : UnpackedFloat} :
    a.compare b = none ↔ a = .notANumber ∨ b = .notANumber := by
  cases a <;> cases b <;> grind [UnpackedFloat.compare, cases Sign]

theorem neg_le_neg_iff {x y : Float} : -x ≤ -y ↔ y ≤ x := by
  rw [le_iff, le_iff, parts_neg, parts_neg, UnpackedFloat.le, compare_neg, UnpackedFloat.le]

theorem neg_pos_iff {x : Float} : 0 < -x ↔ x < 0 := by
  have hcompare : (parts 0).compare (parts (-x)) = (parts x).compare (parts 0) :=
    calc (parts 0).compare (parts (-x))
        = (UnpackedFloat.zero .negative).neg.compare (parts x).neg := by rw [parts_neg]; rfl
      _ = (parts x).compare (.zero .negative) := compare_neg _ _
      _ = (parts x).compare (parts 0) := compare_zero _ _
  rw [lt_iff, lt_iff, UnpackedFloat.lt, UnpackedFloat.lt, hcompare]

theorem lt_asymm {x y : Float} (h : x < y) : ¬ y < x := by
  rw [lt_iff, UnpackedFloat.lt] at h ⊢
  rw [compare_swap, eq_of_beq h]
  decide

/-! ## What is not a number -/

theorem isNumber_iff {x : Float} : Scalar.isNumber x = true ↔ parts x ≠ .notANumber := by
  have hself : (parts x).compare (parts x) ≠ none ↔ parts x ≠ .notANumber := by
    rw [ne_eq, compare_eq_none_iff, or_self]
  -- what compares with itself at all is level with itself
  have hswap := compare_swap (parts x) (parts x)
  rw [Scalar.isNumber, decide_eq_true_iff, ← hself]
  refine le_iff.trans ?_
  rw [UnpackedFloat.le]
  cases h : (parts x).compare (parts x) with
  | none => decide
  | some o =>
    rw [h] at hswap
    cases o with
    | lt => exact absurd hswap (by decide)
    | eq => decide
    | gt => exact absurd hswap (by decide)

/-- What is put together from parts of a number is one: too large a number becomes infinite. -/
theorem parts_ofParts_ne {f : UnpackedFloat} (hf : f ≠ .notANumber) :
    parts (ofParts f) ≠ .notANumber := by
  intro h
  rw [parts_ofParts, unpack_eq_notANumber_iff_of_valid valid_pack] at h
  have hbits : isNaNBits (f.pack .binary64) = true := by
    rw [h]
    exact isNaNBits_packedNaN
  -- of the values that have all ones for an exponent, only an infinity has no mantissa
  obtain ⟨hexponent, hmantissa⟩ := of_decide_eq_true hbits
  cases f with
  | notANumber => exact hf rfl
  | infinity s => exact hmantissa unpackMantissa_packComponents
  | zero s =>
    rw [pack, packedZero, unpackExponent_packComponents] at hexponent
    exact absurd hexponent (by decide)
  | finite s m e hm =>
    simp only [pack] at hexponent hmantissa
    split at hexponent
    · next hlarge =>
      rw [if_pos hlarge] at hmantissa
      exact hmantissa unpackMantissa_packComponents
    · next hfits =>
      split at hexponent
      · rw [unpackExponent_packComponents] at hexponent
        have hmax := congrArg BitVec.toNat hexponent
        simp [Format.binary64] at hmax hfits
        omega
      · rw [unpackExponent_packComponents] at hexponent
        exact absurd hexponent (by decide)

theorem isNumber_ofParts {f : UnpackedFloat} :
    Scalar.isNumber (ofParts f) = true ↔ f ≠ .notANumber := by
  rw [isNumber_iff]
  constructor
  · rintro h rfl
    exact h parts_nan
  · exact parts_ofParts_ne

/-- Two values compare with each other unless one is not a number. -/
theorem compare_parts_eq_none_iff {x y : Float} :
    (parts x).compare (parts y) = none ↔
      ¬ (Scalar.isNumber x = true ∧ Scalar.isNumber y = true) := by
  rw [isNumber_iff, isNumber_iff, compare_eq_none_iff, ne_eq, ne_eq, ← not_or, not_not]

/-- What is not less is at least as great, unless one is not a number. -/
theorem not_lt_iff {x y : Float} :
    ¬ x < y ↔ y ≤ x ∨ ¬ (Scalar.isNumber x = true ∧ Scalar.isNumber y = true) := by
  rw [← compare_parts_eq_none_iff, lt_iff, le_iff, UnpackedFloat.lt, UnpackedFloat.le,
    compare_swap (parts x) (parts y)]
  cases (parts x).compare (parts y) with
  | none => simp
  | some o => cases o <;> decide

/-- What is not at most as great is greater, unless one is not a number. -/
theorem not_le_iff {x y : Float} :
    ¬ x ≤ y ↔ y < x ∨ ¬ (Scalar.isNumber x = true ∧ Scalar.isNumber y = true) := by
  rw [← compare_parts_eq_none_iff, lt_iff, le_iff, UnpackedFloat.lt, UnpackedFloat.le,
    compare_swap (parts x) (parts y)]
  cases (parts x).compare (parts y) with
  | none => simp
  | some o => cases o <;> decide

theorem isNumber_of_le {x y : Float} (h : x ≤ y) :
    Scalar.isNumber x = true ∧ Scalar.isNumber y = true := by
  by_contra hnone
  exact not_le_iff.mpr (.inr hnone) h

theorem isNumber_of_lt {x y : Float} (h : x < y) :
    Scalar.isNumber x = true ∧ Scalar.isNumber y = true := by
  by_contra hnone
  exact not_lt_iff.mpr (.inr hnone) h

/-- An operation that gives no number when an operand is none. -/
structure Absorbs (op : UnpackedFloat → UnpackedFloat → UnpackedFloat) : Prop where
  left : ∀ f, op .notANumber f = .notANumber
  right : ∀ f, op f .notANumber = .notANumber

theorem Absorbs.operands {op : UnpackedFloat → UnpackedFloat → UnpackedFloat} (hop : Absorbs op)
    {x y : Float} (h : Scalar.isNumber (ofParts (op (parts x) (parts y))) = true) :
    Scalar.isNumber x = true ∧ Scalar.isNumber y = true := by
  rw [isNumber_ofParts] at h
  constructor
  · refine isNumber_iff.mpr fun hx => h ?_
    rw [hx, hop.left]
  · refine isNumber_iff.mpr fun hy => h ?_
    rw [hy, hop.right]

theorem add_absorbs : Absorbs (add .binary64) := ⟨fun _ => rfl, fun f => by cases f <;> rfl⟩

theorem sub_absorbs : Absorbs (sub .binary64) := ⟨fun _ => rfl, fun f => by cases f <;> rfl⟩

theorem mul_absorbs : Absorbs (mul .binary64) := ⟨fun _ => rfl, fun f => by cases f <;> rfl⟩

theorem div_absorbs : Absorbs (div .binary64) := ⟨fun _ => rfl, fun f => by cases f <;> rfl⟩

variable {x y : Float}

theorem isNumber_of_add (h : Scalar.isNumber (x + y) = true) :
    Scalar.isNumber x = true ∧ Scalar.isNumber y = true := add_absorbs.operands h

theorem isNumber_of_sub (h : Scalar.isNumber (x - y) = true) :
    Scalar.isNumber x = true ∧ Scalar.isNumber y = true := sub_absorbs.operands h

theorem isNumber_of_mul (h : Scalar.isNumber (x * y) = true) :
    Scalar.isNumber x = true ∧ Scalar.isNumber y = true := mul_absorbs.operands h

theorem isNumber_of_div (h : Scalar.isNumber (x / y) = true) :
    Scalar.isNumber x = true ∧ Scalar.isNumber y = true := div_absorbs.operands h

theorem neg_notANumber (h : parts x = .notANumber) : -x = x :=
  parts_inj (by rw [parts_neg, h]; rfl)

theorem isNumber_neg (h : Scalar.isNumber x = true) : Scalar.isNumber (-x) = true := by
  refine isNumber_iff.mpr fun hneg => isNumber_iff.mp h ?_
  rw [parts_neg] at hneg
  rw [← parts_neg_neg (parts x), hneg]
  rfl

theorem isNumber_of_isFinite (h : x.isFinite = true) : Scalar.isNumber x = true := by
  have hparts : (parts x).isFinite = true := h
  refine isNumber_iff.mpr fun hx => ?_
  rw [hx] at hparts
  cases hparts

/-! ## Sign and magnitude -/

theorem msb_packComponents (s : Sign) (e : BitVec 11) (m : BitVec 52) :
    (packComponents .binary64 s e m).msb = (s == .negative) := by
  have hsign : (packComponents .binary64 s e m).msb = s.toBitVec.msb := by
    show ((s.toBitVec ++ e : BitVec 12) ++ m).msb = _
    rw [BitVec.msb_append, BitVec.msb_append]
    rfl
  rw [hsign]
  cases s <;> rfl

theorem isNegative_ofParts (f : UnpackedFloat) :
    Scalar.isNegative (ofParts f) = (f.pack .binary64).msb := by
  rw [BitVec.msb_eq_decide]
  rfl

/-- A number and its negation have opposite signs, zeros included. -/
theorem isNegative_neg (h : Scalar.isNumber x = true) :
    Scalar.isNegative (-x) = !Scalar.isNegative x := by
  obtain ⟨s, e, m, hpack, hneg⟩ := pack_neg (isNumber_iff.mp h)
  rw [neg_eq, isNegative_ofParts, hneg]
  conv => rhs; rw [← ofParts_parts x]
  rw [isNegative_ofParts, hpack, msb_packComponents, msb_packComponents]
  cases s <;> rfl

theorem abs_neg (x : Float) : Scalar.abs (-x) = Scalar.abs x := by
  by_cases h : Scalar.isNumber x = true
  · rw [Scalar.abs, Scalar.abs, isNegative_neg h]
    cases Scalar.isNegative x with
    | true => rfl
    | false => exact neg_neg x
  · rw [neg_notANumber (not_not.mp (mt isNumber_iff.mpr h))]

/-! ## Sums -/

theorem round_neg (spec : Format) (s : Sign) (m : Nat) (e : Int) :
    UnpackedFloat.round spec (-s) m e = (UnpackedFloat.round spec s m e).neg := by
  simp only [UnpackedFloat.round, roundWithAccuracy]
  split <;> rfl

theorem normalize_neg (spec : Format) {m : Int} (hm : m ≠ 0) (e : Int) (s : Sign) :
    UnpackedFloat.normalize spec (-m) e s = (UnpackedFloat.normalize spec m e s).neg := by
  rcases Int.lt_or_gt_of_ne hm with hlt | hgt
  · have hm : compare m 0 = .lt := Int.compare_eq_lt.mpr hlt
    have hneg : compare (-m) 0 = .gt := Int.compare_eq_gt.mpr (Int.neg_pos_of_neg hlt)
    simp only [UnpackedFloat.normalize, hm, hneg]
    exact round_neg spec .negative _ _
  · have hm : compare m 0 = .gt := Int.compare_eq_gt.mpr hgt
    have hneg : compare (-m) 0 = .lt := Int.compare_eq_lt.mpr (Int.neg_neg_of_pos hgt)
    simp only [UnpackedFloat.normalize, hm, hneg, Int.neg_neg]
    exact round_neg spec .positive _ _

theorem apply_neg (s : Sign) (n : Int) : (-s).apply n = -s.apply n := by
  cases s with
  | negative => exact (Int.neg_neg n).symm
  | positive => rfl

/-- Adding the negations gives the negation of the sum, unless both sums are zero. -/
theorem add_neg (spec : Format) (a b : UnpackedFloat) :
    add spec a.neg b.neg = (add spec a b).neg ∨
      (∃ s, add spec a b = .zero s) ∧ ∃ s, add spec a.neg b.neg = .zero s := by
  cases a with
  | notANumber => exact .inl rfl
  | infinity s =>
    cases b with
    | infinity t => cases s <;> cases t <;> exact .inl rfl
    | _ => exact .inl rfl
  | zero s =>
    cases b with
    | zero t => cases s <;> cases t <;> exact .inr ⟨⟨_, rfl⟩, ⟨_, rfl⟩⟩
    | _ => exact .inl rfl
  | finite s m e hm =>
    cases b with
    | finite t n k hn =>
      simp only [neg, add, apply_neg, ← Int.neg_add]
      generalize s.apply _ + t.apply _ = sum
      by_cases hsum : sum = 0
      · rw [hsum]
        exact .inr ⟨⟨_, rfl⟩, ⟨_, rfl⟩⟩
      · exact .inl (normalize_neg spec hsum _ _)
    | _ => exact .inl rfl

theorem sub_eq_add_neg (spec : Format) (a b : UnpackedFloat) :
    sub spec a b = add spec a b.neg := by
  cases a with
  | finite s m e hm =>
    cases b with
    | finite t n k hn => simp only [neg, add, sub, apply_neg, Int.sub_eq_add_neg]
    | _ => rfl
  | _ => cases b <;> rfl

theorem roundWithAccuracy_ne (spec : Format) (s : Sign) (m : Nat) (e : Int) (a : Accuracy) :
    roundWithAccuracy spec s m e a ≠ .notANumber := by
  simp only [roundWithAccuracy]
  split <;> exact fun h => by cases h

theorem normalize_ne (spec : Format) (m : Int) (e : Int) (s : Sign) :
    UnpackedFloat.normalize spec m e s ≠ .notANumber := by
  unfold UnpackedFloat.normalize
  split
  · exact roundWithAccuracy_ne _ _ _ _ _
  · exact fun h => by cases h
  · exact roundWithAccuracy_ne _ _ _ _ _

theorem add_ne (spec : Format) {a b : UnpackedFloat} (ha : a.isFinite = true)
    (hb : b.isFinite = true) : add spec a b ≠ .notANumber := by
  cases a with
  | notANumber => cases ha
  | infinity s => cases ha
  | zero s =>
    cases b with
    | notANumber => cases hb
    | infinity t => cases hb
    | zero t => cases s <;> cases t <;> exact fun h => by cases h
    | finite t n k hn => exact fun h => by cases h
  | finite s m e hm =>
    cases b with
    | notANumber => cases hb
    | infinity t => cases hb
    | zero t => exact fun h => by cases h
    | finite t n k hn => exact normalize_ne _ _ _ _

/-- The difference of finite numbers may be infinite, but it is a number. -/
theorem isNumber_sub (hx : Scalar.isFinite x = true) (hy : Scalar.isFinite y = true) :
    Scalar.isNumber (x - y) = true := by
  have hneg : (parts y).neg.isFinite = true := by
    have hy : (parts y).isFinite = true := hy
    cases h : parts y <;> rw [h] at hy <;> exact hy
  rw [sub_eq, sub_eq_add_neg, isNumber_ofParts]
  exact add_ne _ hx hneg

/-! ## Products and quotients -/

theorem mul_eq (x y : Float) : x * y = ofParts (.mul .binary64 (parts x) (parts y)) := rfl

theorem div_eq (x y : Float) : x / y = ofParts (.div .binary64 (parts x) (parts y)) := rfl

/-- A number that is neither zero nor infinite. -/
def IsProper (x : Float) : Prop := ∃ s m e hm, parts x = .finite s m e hm

theorem isProper_of_pos (hpos : 0 < x) (hfinite : x.isFinite = true) : IsProper x := by
  have hparts : (parts x).isFinite = true := hfinite
  rw [lt_iff, parts_zero] at hpos
  cases hx : parts x with
  | notANumber => rw [hx] at hparts; cases hparts
  | infinity s => rw [hx] at hparts; cases hparts
  | zero s => rw [hx] at hpos; cases hpos
  | finite s m e hm => exact ⟨s, m, e, hm, hx⟩

-- only a zero and an infinity have no product, and only their likes have no quotient

theorem isNumber_mul (hx : Scalar.isNumber x = true) (hy : IsProper y) :
    Scalar.isNumber (x * y) = true := by
  obtain ⟨s, m, e, hm, hy⟩ := hy
  rw [mul_eq, isNumber_ofParts, hy]
  cases hparts : parts x with
  | notANumber => exact absurd hparts (isNumber_iff.mp hx)
  | infinity s => exact fun h => by cases h
  | zero s => exact fun h => by cases h
  | finite t n k hn => exact roundWithAccuracy_ne _ _ _ _ _

theorem isNumber_div (hx : Scalar.isNumber x = true) (hy : IsProper y) :
    Scalar.isNumber (x / y) = true := by
  obtain ⟨s, m, e, hm, hy⟩ := hy
  rw [div_eq, isNumber_ofParts, hy]
  cases hparts : parts x with
  | notANumber => exact absurd hparts (isNumber_iff.mp hx)
  | infinity s => exact fun h => by cases h
  | zero s => exact fun h => by cases h
  | finite t n k hn => exact roundWithAccuracy_ne _ _ _ _ _

/-! ## Zeros -/

theorem isZero_iff : Scalar.isZero x = true ↔ ∃ s, parts x = .zero s := by
  have hlevel : Scalar.isZero x = true ↔
      (parts x).le (.zero .positive) = true ∧
        (UnpackedFloat.zero .positive).le (parts x) = true := by
    rw [Scalar.isZero, Bool.and_eq_true, decide_eq_true_iff, decide_eq_true_iff]
    exact and_congr le_iff le_iff
  rw [hlevel]
  cases parts x with
  | notANumber => simp [UnpackedFloat.le, UnpackedFloat.compare]
  | infinity s => cases s <;> simp [UnpackedFloat.le, UnpackedFloat.compare]
  | zero s => simp [UnpackedFloat.le, UnpackedFloat.compare]
  | finite s m e hm => cases s <;> simp [UnpackedFloat.le, UnpackedFloat.compare]

theorem isZero_ofParts_zero (s : Sign) : Scalar.isZero (ofParts (.zero s)) = true :=
  isZero_iff.mpr ⟨s, @unpack_packedZero .binary64 s⟩

theorem eq_of_isZero (h : Scalar.isZero x = true) : x = 0 ∨ x = -0 := by
  obtain ⟨s, hs⟩ := isZero_iff.mp h
  cases s with
  | positive => exact .inl (parts_inj hs)
  | negative => exact .inr (parts_inj hs)

theorem lt_tolerance (h : x ≤ 0) : x < Scalar.tolerance := by
  have htolerance : ∃ m e hm, parts Scalar.tolerance = .finite .positive m e hm := ⟨_, _, _, rfl⟩
  obtain ⟨m, e, hm, htolerance⟩ := htolerance
  rw [le_iff, parts_zero] at h
  rw [lt_iff, htolerance]
  cases hx : parts x with
  | notANumber => rw [hx] at h; cases h
  | infinity s =>
    rw [hx] at h
    cases s with
    | negative => rfl
    | positive => cases h
  | zero s => rfl
  | finite s n k hn =>
    rw [hx] at h
    cases s with
    | negative => rfl
    | positive => cases h

theorem negligible_of_isZero (h : Scalar.isZero x = true) : Scalar.negligible x = true := by
  rcases eq_of_isZero h with rfl | rfl
  · decide +kernel
  · decide +kernel

/-! ## Differences and the tolerance -/

theorem sub_zero_of_isFinite (h : Scalar.isFinite x = true) : x - 0 = x := by
  have hparts : (parts x).isFinite = true := h
  have hsub : UnpackedFloat.sub .binary64 (parts x) (.zero .positive) = parts x := by
    cases hx : parts x with
    | notANumber => rfl
    | infinity s => rfl
    | zero s => cases s <;> rfl
    | finite s m e hm => rfl
  rw [sub_eq, parts_zero, hsub, ofParts_parts]

/-- A finite number less itself is zero. -/
theorem isZero_sub_self (h : Scalar.isFinite x = true) : Scalar.isZero (x - x) = true := by
  have hparts : (parts x).isFinite = true := h
  rw [sub_eq]
  cases hx : parts x with
  | notANumber => rw [hx] at hparts; cases hparts
  | infinity s => rw [hx] at hparts; cases hparts
  | zero s => cases s <;> exact isZero_ofParts_zero _
  | finite s m e hm =>
    simp only [UnpackedFloat.sub, Int.sub_self]
    exact isZero_ofParts_zero _

theorem isNumber_abs (h : Scalar.isNumber x = true) : Scalar.isNumber (Scalar.abs x) = true := by
  rw [Scalar.abs]
  split
  · exact isNumber_neg h
  · exact h

/-- What counts reaches the tolerance. -/
theorem tolerance_le_abs (h : Scalar.isFinite x = true) (hx : Scalar.negligible x = false) :
    Scalar.tolerance ≤ Scalar.abs x := by
  have htolerance : Scalar.isNumber (Scalar.tolerance : Float) = true := by decide +kernel
  have hnumber := isNumber_abs (isNumber_of_isFinite h)
  rcases not_lt_iff.mp (of_decide_eq_false hx) with hle | hnone
  · exact hle
  · exact absurd ⟨hnumber, htolerance⟩ hnone

/-- What reaches the tolerance counts. -/
theorem negligible_of_tolerance_le (h : Scalar.tolerance ≤ Scalar.abs x) :
    Scalar.negligible x = false :=
  decide_eq_false (not_lt_iff.mpr (.inl h))

end Floating

end TradingDesk
