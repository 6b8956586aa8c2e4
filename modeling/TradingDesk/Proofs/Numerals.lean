import Mathlib.Data.List.Basic
import Mathlib.Data.List.TakeWhile
import TradingDesk.Document.Number
import TradingDesk.Document.Reading
/- Proofs.Numerals — what is written of a number reads as the same numeral.

   A numeral is well formed if there are digits wherever digits belong and no zero stands
   before other whole digits (`Numeral.WellFormed`). The layouts write no other numerals
   (`Layout.wellFormed_numeral`): a zero with a power of ten would be followed by zeros,
   but the shortest digits are never of that form, because zero lies in no basin but its
   own (`Basin.holds_zero`). A reader takes a well-formed numeral off the front of a text
   digit for digit, where nothing follows that the number could go on with
   (`numeral_append`). -/
namespace TradingDesk

namespace Decimal

/-! ## Runs of digits -/

/-- A run of digits, at least one. -/
structure IsRun (ds : List Char) : Prop where
  ne_nil : ds ≠ []
  digit : ∀ c ∈ ds, c.isDigit = true

/-- The digits of a whole number: a zero stands first only if it stands alone. -/
structure IsWhole (ds : List Char) : Prop extends IsRun ds where
  leading : ∀ d ds', ds ≠ '0' :: d :: ds'

theorem isRun_toDigits (n : Nat) : IsRun (Nat.toDigits 10 n) :=
  ⟨Nat.toDigits_ne_nil, fun _ hc => Nat.isDigit_of_mem_toDigits (by decide) (by decide) hc⟩

/-- The first digit of a number other than zero is not zero. -/
theorem head?_toDigits {n : Nat} (hn : n ≠ 0) : (Nat.toDigits 10 n).head? ≠ some '0' := by
  induction n using Nat.strongRecOn with
  | ind n ih =>
    rcases Nat.lt_or_ge n 10 with hlt | hge
    · rw [Nat.toDigits_of_lt_base hlt, List.head?_singleton]
      exact fun h => hn (Nat.digitChar_eq_zero.mp (Option.some.inj h))
    · rw [Nat.toDigits_of_base_le (by decide) hge,
        List.head?_append_of_ne_nil _ Nat.toDigits_ne_nil]
      exact ih (n / 10) (by omega) (by omega)

theorem isWhole_toDigits (n : Nat) : IsWhole (Nat.toDigits 10 n) := by
  refine ⟨isRun_toDigits n, fun d ds h => ?_⟩
  rcases Nat.eq_zero_or_pos n with rfl | hpos
  · cases h
  · exact head?_toDigits (Nat.pos_iff_ne_zero.mp hpos) (congrArg List.head? h)

theorem digitsNat_toDigits (n : Nat) : digitsNat (Nat.toDigits 10 n) = n :=
  Nat.ofDigitChars_eq_foldl.symm.trans Nat.ofDigitChars_ten_toDigits

theorem IsRun.append {ds ds' : List Char} (h : IsRun ds) (h' : ∀ c ∈ ds', c.isDigit = true) :
    IsRun (ds ++ ds') :=
  ⟨List.append_ne_nil_of_left_ne_nil h.ne_nil _, List.forall_mem_append.mpr ⟨h.digit, h'⟩⟩

theorem IsRun.take {ds : List Char} (h : IsRun ds) {n : Nat} (hn : 0 < n) : IsRun (ds.take n) := by
  refine ⟨fun hnil => ?_, fun c hc => h.digit c (List.mem_of_mem_take hc)⟩
  rcases List.take_eq_nil_iff.mp hnil with hzero | hds
  · omega
  · exact h.ne_nil hds

theorem IsRun.drop {ds : List Char} (h : IsRun ds) {n : Nat} (hn : n < ds.length) :
    IsRun (ds.drop n) :=
  ⟨fun hnil => absurd (List.drop_eq_nil_iff.mp hnil) (by omega),
    fun c hc => h.digit c (List.mem_of_mem_drop hc)⟩

theorem zeros_digit (n : Nat) : ∀ c ∈ List.replicate n '0', c.isDigit = true := by
  intro c hc
  rw [List.eq_of_mem_replicate hc]
  rfl

/-- A numeral of the form that documents have: nothing is missing where digits belong. -/
structure Numeral.WellFormed (n : Numeral) : Prop where
  whole : IsWhole n.whole
  fraction : ∀ ds ∈ n.fraction, IsRun ds
  exponent : ∀ e ∈ n.exponent, IsRun e.digits

/-! ## What is written -/

theorem Numeral.wellFormed_ofNat (n : Nat) : (Numeral.ofNat n).WellFormed :=
  ⟨isWhole_toDigits n, fun _ h => (by cases h), fun _ h => (by cases h)⟩

/-- A decimal zero has no power of ten. -/
def Scaled.IsPlain (d : Scaled) : Prop := d.coefficient = 0 → d.exponent = 0

theorem Layout.wellFormed_pointed (layout : Layout) (negative : Bool) {d : Scaled}
    (hplain : d.IsPlain) : (layout.pointed negative d).WellFormed := by
  have hrun := isRun_toDigits d.coefficient
  unfold pointed
  dsimp only
  split
  · refine ⟨⟨hrun.append (zeros_digit _), fun c cs h => ?_⟩, fun ds hds => ?_,
      fun _ h => by cases h⟩
    · by_cases hzero : d.coefficient = 0
      · rw [hzero, hplain hzero] at h
        cases h
      · have hhead := congrArg List.head? h
        rw [List.head?_append_of_ne_nil _ hrun.ne_nil] at hhead
        exact head?_toDigits hzero hhead
    · split at hds
      · cases hds
        exact ⟨by simp, by simp⟩
      · cases hds
  · next hexponent =>
    have hzero : d.coefficient ≠ 0 := fun hzero => by
      have := hplain hzero
      omega
    split
    · refine ⟨⟨hrun.take (by omega), fun c cs h => ?_⟩, fun ds hds => ?_, fun _ h => by cases h⟩
      · have hhead := congrArg List.head? h
        rw [List.head?_take, if_neg (by omega)] at hhead
        exact head?_toDigits hzero hhead
      · cases hds
        exact hrun.drop (by omega)
    · refine ⟨⟨⟨by simp, by simp⟩, by simp⟩, fun ds hds => ?_, fun _ h => by cases h⟩
      cases hds
      exact ⟨List.append_ne_nil_of_right_ne_nil _ hrun.ne_nil,
        List.forall_mem_append.mpr ⟨zeros_digit _, hrun.digit⟩⟩

theorem Layout.wellFormed_powered (negative : Bool) (d : Scaled) :
    (Layout.powered negative d).WellFormed := by
  have hrun := isRun_toDigits d.coefficient
  unfold powered
  dsimp only
  refine ⟨⟨hrun.take (by decide), fun c cs h => ?_⟩, ?_, ?_⟩
  · have hlength := congrArg List.length h
    simp at hlength
    omega
  · intro ds hds
    split at hds
    · cases hds
    · next hlength =>
      cases hds
      have := List.length_pos_of_ne_nil hrun.ne_nil
      exact hrun.drop (by omega)
  · intro e he
    cases he
    exact isRun_toDigits _

theorem Layout.wellFormed_setOut (layout : Layout) (negative : Bool) {d : Scaled}
    (hplain : d.IsPlain) : (layout.setOut negative d).WellFormed := by
  unfold setOut
  split
  · exact wellFormed_pointed layout negative hplain
  · dsimp only
    split
    · exact wellFormed_pointed layout negative hplain
    · exact wellFormed_powered negative d

/-! ## The shortest digits -/

theorem Basin.low_pos {significand : Nat} (h : significand ≠ 0) (exponent : Int) :
    0 < (Basin.of significand exponent).low := by
  have hfactor : 0 < if 0 ≤ exponent - 2 then Nat.pow 2 (exponent - 2).toNat else 1 := by
    split
    · exact Nat.pow_pos (by decide)
    · decide
  refine Nat.mul_pos ?_ hfactor
  split <;> omega

theorem scaleTen_zero (shift : Int) : ∃ den, 0 < den ∧ scaleTen 0 1 shift = (0, den) := by
  unfold scaleTen
  split
  · exact ⟨1, Nat.one_pos, by rw [Nat.zero_mul]⟩
  · exact ⟨_, Nat.mul_pos Nat.one_pos (Nat.pow_pos (by decide)), rfl⟩

/-- Zero is in no basin but its own. -/
theorem Basin.holds_zero {b : Basin} (h : 0 < b.low) (step : Int) : b.holds 0 step = false := by
  obtain ⟨den, hden, hscale⟩ := scaleTen_zero step
  have hlow : 0 < b.low * den := Nat.mul_pos h hden
  unfold holds
  rw [hscale]
  dsimp only
  rw [Nat.zero_mul]
  split <;> exact decide_eq_false (by omega)

theorem le_roundDiv (num den : Nat) (tie : Tie) : num / den ≤ roundDiv num den tie := by
  unfold roundDiv
  dsimp only
  split
  · exact Nat.le_refl _
  split
  · exact Nat.le_succ _
  split
  · exact Nat.le_succ _
  · exact Nat.le_refl _

theorem Basin.ne_zero_of_pick {b : Basin} (h : 0 < b.low) {tie : Tie} {step : Int} {n : Nat}
    (hn : b.pick tie step = some n) : n ≠ 0 := by
  have hbelow : ∀ m, b.holds m step = true → m ≠ 0 := fun m hm hzero => by
    rw [hzero, holds_zero h] at hm
    cases hm
  unfold pick at hn
  dsimp only at hn
  split at hn
  · next hholds _ =>
    cases hn
    have hpos := Nat.pos_iff_ne_zero.mpr (hbelow _ hholds)
    exact Nat.pos_iff_ne_zero.mp (Nat.lt_of_lt_of_le hpos (le_roundDiv _ _ tie))
  · next hholds _ =>
    cases hn
    exact hbelow _ hholds
  · cases hn
    exact Nat.succ_ne_zero _
  · cases hn

theorem Basin.ne_zero_of_search {b : Basin} (h : 0 < b.low) {tie : Tie} {leading : Int}
    {fuel digits : Nat} {d : Scaled} (hd : b.search tie leading fuel digits = some d) :
    d.coefficient ≠ 0 := by
  induction fuel generalizing digits with
  | zero => cases hd
  | succ fuel ih =>
    unfold search at hd
    dsimp only at hd
    split at hd
    · next hpick =>
      cases hd
      exact ne_zero_of_pick h hpick
    · exact ih hd

/-- No more zeros are taken off than stand behind the first digit, so a coefficient other than zero
keeps its first digit. -/
theorem Scaled.trim_ne_zero {d : Scaled} (h : d.coefficient ≠ 0) : d.trim.coefficient ≠ 0 := by
  unfold trim
  dsimp only
  generalize hzeros : ((Nat.toDigits 10 d.coefficient).reverse.takeWhile (· == '0')).length = zeros
  have hlength : zeros < (Nat.toDigits 10 d.coefficient).length := by
    have hfront := List.takeWhile_prefix (· == '0') (l := (Nat.toDigits 10 d.coefficient).reverse)
    refine Nat.lt_of_le_of_ne ?_ fun heq => head?_toDigits h ?_
    · rw [← hzeros]
      exact hfront.length_le.trans (Nat.le_of_eq List.length_reverse)
    · -- else all digits are zeros, the first one too
      have hall := List.takeWhile_eq_self_iff.mp
        (hfront.eq_of_length (by rw [List.length_reverse, hzeros, heq]))
      obtain ⟨c, cs, hdigits⟩ := List.exists_cons_of_ne_nil (isRun_toDigits d.coefficient).ne_nil
      rw [hdigits, List.head?_cons]
      exact congrArg some (eq_of_beq (hall c (by rw [hdigits]; simp)))
  have hpow : Nat.pow 10 zeros ≤ d.coefficient := by
    rcases Nat.eq_zero_or_pos zeros with hzero | hpos
    · rw [hzero]
      exact Nat.pos_iff_ne_zero.mpr h
    · refine Nat.le_of_not_lt fun hlt => Nat.not_le_of_lt hlength ?_
      exact (Nat.length_toDigits_le_iff (by decide) hpos).mpr hlt
  exact Nat.pos_iff_ne_zero.mp (Nat.div_pos hpow (Nat.pow_pos (by decide)))

theorem isPlain_shortest (significand : Nat) (exponent : Int) (tie : Tie) :
    (shortest significand exponent tie).IsPlain := by
  unfold shortest
  split
  · exact fun _ => rfl
  · next hsignificand =>
    have hlow := Basin.low_pos hsignificand exponent
    dsimp only
    split
    · next hd =>
      exact fun hzero => absurd hzero (Scaled.trim_ne_zero (Basin.ne_zero_of_search hlow hd))
    · exact fun _ => rfl

theorem Layout.wellFormed_numeral (layout : Layout) (negative : Bool) (significand : Nat)
    (exponent : Int) : (layout.numeral negative significand exponent).WellFormed :=
  wellFormed_setOut layout negative (isPlain_shortest significand exponent layout.tie)

end Decimal

open Decimal

namespace Document

/-! ## Reading back -/

variable {ds rest : List Char}

/-- Nothing that a number could go on with. -/
def EndsNumber (rest : List Char) : Prop :=
  ∀ c ∈ rest.head?, c.isDigit = false ∧ c ≠ '.' ∧ c ≠ 'e' ∧ c ≠ 'E'

theorem digits_append (h : IsRun ds) (hrest : ∀ c ∈ rest.head?, c.isDigit = false) :
    digits (ds ++ rest) = some (ds, rest) := by
  have hnone : rest.takeWhile Char.isDigit = [] ∧ rest.dropWhile Char.isDigit = rest := by
    cases rest with
    | nil => exact ⟨rfl, rfl⟩
    | cons c rest =>
      have hc : ¬ c.isDigit = true := by simp [hrest c rfl]
      exact ⟨List.takeWhile_cons_of_neg hc, List.dropWhile_cons_of_neg hc⟩
  unfold digits
  dsimp only
  rw [List.takeWhile_append_of_pos h.digit, List.dropWhile_append_of_pos h.digit, hnone.1, hnone.2,
    List.append_nil, if_neg (by simpa using h.ne_nil)]

theorem wholeDigits_append (h : IsWhole ds) (hrest : ∀ c ∈ rest.head?, c.isDigit = false) :
    wholeDigits (ds ++ rest) = some (ds, rest) := by
  unfold wholeDigits
  rw [digits_append h.toIsRun hrest]
  split
  · next heq => exact absurd (congrArg Prod.fst (Option.some.inj heq)) (h.leading _ _)
  · rfl

theorem signedDigits_bare (capital : Bool) (h : IsRun ds)
    (hrest : ∀ c ∈ rest.head?, c.isDigit = false) :
    signedDigits capital (ds ++ rest) = some (some ⟨capital, .bare, ds⟩, rest) := by
  have hdigits := digits_append h hrest
  obtain ⟨c, cs, rfl⟩ := List.exists_cons_of_ne_nil h.ne_nil
  have hc : c.isDigit = true := h.digit c List.mem_cons_self
  unfold signedDigits
  split
  next cs' heq =>
    split at heq
    · next hplus =>
      rw [List.cons_append, List.cons.injEq] at hplus
      rw [hplus.1] at hc
      cases hc
    · next hminus =>
      rw [List.cons_append, List.cons.injEq] at hminus
      rw [hminus.1] at hc
      cases hc
    · cases heq
      rw [hdigits]
      rfl

theorem signedDigits_append {e : Exponent} (h : IsRun e.digits)
    (hrest : ∀ c ∈ rest.head?, c.isDigit = false) :
    signedDigits e.capital (e.chars.tail ++ rest) = some (some e, rest) := by
  obtain ⟨capital, sign, ds⟩ := e
  cases sign with
  | bare => exact signedDigits_bare capital h hrest
  | plus | minus =>
    show (digits (ds ++ rest)).map _ = _
    rw [digits_append h hrest]
    rfl

theorem exponent_append {e : Option Exponent} (h : ∀ e' ∈ e, IsRun e'.digits)
    (hrest : EndsNumber rest) :
    exponent (e.elim [] Exponent.chars ++ rest) = some (e, rest) := by
  cases e with
  | none =>
    rw [Option.elim_none, List.nil_append]
    unfold exponent
    split
    · exact absurd rfl (hrest 'e' rfl).2.2.1
    · exact absurd rfl (hrest 'E' rfl).2.2.2
    · rfl
  | some e =>
    have hsigned := signedDigits_append (h e rfl) fun c hc => (hrest c hc).1
    obtain ⟨capital, sign, ds⟩ := e
    cases capital <;> exact hsigned

theorem fractionDigits_append {f : Option (List Char)} (h : ∀ ds ∈ f, IsRun ds)
    (hrest : ∀ c ∈ rest.head?, c.isDigit = false ∧ c ≠ '.') :
    fractionDigits (f.elim [] ('.' :: ·) ++ rest) = some (f, rest) := by
  cases f with
  | none =>
    rw [Option.elim_none, List.nil_append]
    unfold fractionDigits
    split
    · exact absurd rfl (hrest '.' rfl).2
    · rfl
  | some ds =>
    show (digits (ds ++ rest)).map _ = _
    rw [digits_append (h ds rfl) fun c hc => (hrest c hc).1]
    rfl

theorem chars_eq (n : Numeral) :
    n.chars = (if n.negative then ['-'] else []) ++
      (n.whole ++ (n.fraction.elim [] ('.' :: ·) ++ n.exponent.elim [] Exponent.chars)) := by
  obtain ⟨negative, whole, fraction, exponent⟩ := n
  cases fraction <;> cases exponent <;> simp [Numeral.chars]

theorem head?_exponent (e : Option Exponent) (hrest : EndsNumber rest) :
    ∀ c ∈ (e.elim [] Exponent.chars ++ rest).head?, c.isDigit = false ∧ c ≠ '.' := by
  cases e with
  | none => exact fun c hc => ⟨(hrest c hc).1, (hrest c hc).2.1⟩
  | some e =>
    intro c hc
    cases hc
    cases e.capital <;> decide

theorem head?_fraction (f : Option (List Char))
    (hrest : ∀ c ∈ rest.head?, c.isDigit = false ∧ c ≠ '.') :
    ∀ c ∈ (f.elim [] ('.' :: ·) ++ rest).head?, c.isDigit = false := by
  cases f with
  | none => exact fun c hc => (hrest c hc).1
  | some ds =>
    intro c hc
    cases hc
    rfl

/-- A numeral is read off the front of a text that does not go on with a number. -/
theorem numeral_append {n : Numeral} (h : n.WellFormed) (hrest : EndsNumber rest) :
    numeral (n.chars ++ rest) = some (n, rest) := by
  have hexponent := exponent_append h.exponent hrest
  have hexponentHead := head?_exponent n.exponent hrest
  have hfraction := fractionDigits_append h.fraction hexponentHead
  have hwhole := wholeDigits_append h.whole (head?_fraction n.fraction hexponentHead)
  obtain ⟨c, cs, hhead⟩ := List.exists_cons_of_ne_nil h.whole.ne_nil
  have hc : c ≠ '-' := fun hc => by
    have hdigit := h.whole.digit c (by rw [hhead]; exact List.mem_cons_self)
    rw [hc] at hdigit
    cases hdigit
  rw [chars_eq, List.append_assoc, List.append_assoc, List.append_assoc]
  obtain ⟨negative, whole, fraction, power⟩ := n
  dsimp only at *
  unfold numeral
  cases negative with
  | true =>
    simp only [if_pos, List.cons_append, List.nil_append, hwhole, hfraction, hexponent,
      Option.bind_eq_bind, Option.bind_some]
  | false =>
    -- The first digit is not taken for a sign.
    rw [if_neg Bool.false_ne_true, List.nil_append]
    split
    next hmatch =>
    split at hmatch
    · next heq =>
      rw [hhead, List.cons_append, List.cons.injEq] at heq
      exact absurd heq.1 hc
    · cases hmatch
      simp only [hwhole, hfraction, hexponent, Option.bind_eq_bind, Option.bind_some]

end Document

end TradingDesk
