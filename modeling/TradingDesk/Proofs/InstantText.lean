import Mathlib.Algebra.Group.Nat.Defs
import Mathlib.Data.List.Induction
import TradingDesk.Proofs.Rereading
import TradingDesk.Time.Reading
import TradingDesk.Time.Written
/- Proofs.InstantText — the instants that can be read.

   An instant is written with a leap second as second 60, and only the last second of a
   minute has one; the reader also refuses a year out of the calendar. The instants
   without such a fault (`Instant.InCalendar`) come back from their texts, and no text
   gives any other instant. -/
namespace TradingDesk

open Decimal

/-! ## Days and dates -/

namespace Date

/-- Within a cycle of four hundred years, a day is in one of these years and at most the last day
of a leap year. The cycle is three centuries of 36524 days and one of a day more, a century is
groups of four years of 1461 days each, and the last day of a group counts as a day of its last
year. -/
theorem yearOfCycle_bounds {d y : Int} (hd : 0 ≤ d) (hd' : d < 146097)
    (hy : y = (d - d / 1460 + d / 36524 - d / 146096) / 365) :
    (0 ≤ y ∧ y < 400) ∧ 0 ≤ d - (365 * y + y / 4 - y / 100) ∧
      d - (365 * y + y / 4 - y / 100) ≤ 365 := by
  rcases Int.lt_or_le d 146096 with hlt | hlast
  · obtain ⟨century, group, u, hsplit, hcentury, hgroup, hu, hrest⟩ : ∃ century group u : Int,
        d = 36524 * century + 1461 * group + u ∧ (0 ≤ century ∧ century ≤ 3) ∧
          (0 ≤ group ∧ group ≤ 24) ∧ (0 ≤ u ∧ u ≤ 1460) ∧ 1461 * group + u ≤ 36523 :=
      ⟨d / 36524, d % 36524 / 1461, d % 36524 % 1461, by omega, by omega, by omega, by omega,
        by omega⟩
    have hcenturies : d / 36524 = century := by omega
    have hcycle : d / 146096 = 0 := by omega
    obtain ⟨last, hlast, hgroups⟩ : ∃ last : Int,
        (last = 0 ∧ u ≤ 1459 ∨ last = 1 ∧ 1364 ≤ u) ∧ d / 1460 = 25 * century + group + last :=
      ⟨d / 1460 - 25 * century - group, by omega, by omega⟩
    obtain ⟨j, hj, hj'⟩ : ∃ j : Int,
        (0 ≤ j ∧ j ≤ 3) ∧ 365 * j ≤ u - last ∧ u - last ≤ 365 * j + 364 :=
      ⟨(u - last) / 365, by omega, by omega⟩
    have hyear : y = 100 * century + 4 * group + j := by omega
    have hleaps : y / 4 = 25 * century + group := by omega
    have hskipped : y / 100 = century := by omega
    omega
  · obtain rfl : d = 146096 := by omega
    subst hy
    decide

/-- The day of the date of a day is that day. -/
theorem dayNumber_ofDayNumber (n : Int) : (ofDayNumber n).dayNumber = n := by
  have hbounds := yearOfCycle_bounds (d := (n + 719468) % 146097) (by omega) (by omega) rfl
  unfold ofDayNumber dayNumber
  dsimp only
  generalize hd : (n + 719468) % 146097 = d at *
  generalize (d - d / 1460 + d / 36524 - d / 146096) / 365 = y at *
  generalize hday : d - (365 * y + y / 4 - y / 100) = dayOfYear at *
  generalize hmonth : (5 * dayOfYear + 2) / 153 = fromMarch at *
  have hmonths : 0 ≤ fromMarch ∧ fromMarch ≤ 11 := by omega
  have hdayOfMonth : 0 ≤ dayOfYear - (153 * fromMarch + 2) / 5 + 1 := by omega
  rw [Int.toNat_of_nonneg hdayOfMonth]
  have hyears : (y + (n + 719468) / 146097 * 400) / 400 = (n + 719468) / 146097 ∧
      (y + (n + 719468) / 146097 * 400) % 400 = y := by omega
  -- January and February end the year that began in March.
  rcases Int.lt_or_le fromMarch 10 with hlt | hge
  · have hlate : ¬ fromMarch + 3 ≤ 2 := by omega
    simp only [if_pos hlt, Int.toNat_of_nonneg (show 0 ≤ fromMarch + 3 by omega), if_neg hlate,
      Int.add_zero, hyears.1, hyears.2, Int.add_sub_cancel]
    omega
  · have hearly : fromMarch - 9 ≤ 2 := by omega
    simp only [if_neg (Int.not_lt.mpr hge), Int.toNat_of_nonneg (show 0 ≤ fromMarch - 9 by omega),
      if_pos hearly, Int.add_sub_cancel, hyears.1, hyears.2, Int.sub_add_cancel]
    omega

end Date

/-! ## Numbers in times -/

namespace Instant

variable {ds rest : List Char} {limit : Nat}

theorem not_isBlank_of_isDigit {c : Char} (h : c.isDigit = true) : isBlank c = false := by
  have hrange : 48 ≤ c.toNat ∧ c.toNat ≤ 57 := by
    simpa [Char.isDigit, UInt32.le_iff_toNat_le] using h
  have houtside : ∀ r ∈ blankRanges, r.2 < 48 ∨ 57 < r.1 := by decide
  rw [isBlank, List.any_eq_false]
  intro r hr
  have hr := houtside r hr
  simp only [Bool.and_eq_true, decide_eq_true_iff]
  omega

theorem skipBlanks_cons {c : Char} (h : isBlank c = false) (cs : List Char) :
    skipBlanks (c :: cs) = c :: cs := by
  rw [skipBlanks, List.dropWhile_cons_of_neg (by simp [h])]

theorem separator_cons {c : Char} (h : isBlank c = false) (cs : List Char) :
    separator c (c :: cs) = some cs := by
  rw [separator, skipBlanks_cons h]
  exact if_pos rfl

theorem skipBlanks_digits (h : IsRun ds) (rest : List Char) :
    skipBlanks (ds ++ rest) = ds ++ rest := by
  obtain ⟨c, cs, rfl⟩ := List.exists_cons_of_ne_nil h.ne_nil
  exact skipBlanks_cons (not_isBlank_of_isDigit (h.digit c List.mem_cons_self)) _

/-- Digits are taken up to the limit, or up to what is no digit. -/
theorem leadingDigits_append (h : IsRun ds) (hlimit : ds.length ≤ limit)
    (hrest : ds.length = limit ∨ ∀ c ∈ rest.head?, c.isDigit = false) :
    leadingDigits limit (ds ++ rest) = some (ds, rest) := by
  have hnone : (rest.take (limit - ds.length)).takeWhile Char.isDigit = [] := by
    rcases hrest with heq | hrest
    · rw [heq, Nat.sub_self, List.take_zero]
      rfl
    · cases rest with
      | nil => rw [List.take_nil]; rfl
      | cons c rest =>
        cases limit - ds.length with
        | zero => rfl
        | succ n => rw [List.take_succ_cons, List.takeWhile_cons_of_neg (by simp [hrest c rfl])]
  unfold leadingDigits
  dsimp only
  rw [List.take_append, List.take_of_length_le hlimit, List.takeWhile_append_of_pos h.digit, hnone,
    List.append_nil, if_neg (by simpa using h.ne_nil), List.drop_left]

theorem number_append (h : IsRun ds) (hlength : ds.length = limit) (rest : List Char) :
    number limit (ds ++ rest) = some (digitsNat ds, rest) := by
  rw [number, skipBlanks_digits h, leadingDigits_append h (Nat.le_of_eq hlength) (.inl hlength)]
  rfl

theorem digitsNat_zeros (k : Nat) (ds : List Char) :
    digitsNat (List.replicate k '0' ++ ds) = digitsNat ds := by
  induction k with
  | zero => rfl
  | succ k ih => exact ih

/-- A number that is filled up to a width has that many digits and stays the same number. -/
theorem toList_padded {width n : Nat} (hwidth : 0 < width) :
    IsRun (padded width n).toList ∧ digitsNat (padded width n).toList = n ∧
      (n < 10 ^ width → (padded width n).toList.length = width) := by
  rw [padded, String.toList_ofList]
  refine ⟨⟨?_, ?_⟩, ?_, fun hn => ?_⟩
  · exact List.append_ne_nil_of_right_ne_nil _ (isRun_toDigits n).ne_nil
  · exact List.forall_mem_append.mpr ⟨zeros_digit _, (isRun_toDigits n).digit⟩
  · rw [digitsNat_zeros, digitsNat_toDigits]
  · have hlength := (Nat.length_toDigits_le_iff (by decide) hwidth).mpr hn
    rw [List.length_append, List.length_replicate]
    omega

/-! ## Dates -/

theorem number_padded {n : Nat} (hn : n < 100) (rest : List Char) :
    number 2 ((padded 2 n).toList ++ rest) = some (n, rest) := by
  obtain ⟨hrun, hvalue, hlength⟩ := toList_padded (n := n) (show 0 < 2 by decide)
  rw [number_append hrun (hlength hn), hvalue]

/-- A year is taken up to the hyphen behind it. -/
theorem year_append (y : Int) (rest : List Char) :
    year ((yearText y).toList ++ '-' :: rest) = some (y, '-' :: rest) := by
  have hend : ∀ c ∈ ('-' :: rest).head?, c.isDigit = false := by
    intro c hc
    cases hc
    rfl
  unfold yearText
  split
  · next hrange =>
    obtain ⟨hrun, hvalue, hlength⟩ := toList_padded (n := y.toNat) (show 0 < 4 by decide)
    have hread := leadingDigits_append hrun (Nat.le_of_eq (hlength (by omega))) (.inr hend)
    have hblank := skipBlanks_digits hrun ('-' :: rest)
    obtain ⟨c, cs, hhead⟩ := List.exists_cons_of_ne_nil hrun.ne_nil
    have hc : c.isDigit = true := hrun.digit c (by rw [hhead]; exact List.mem_cons_self)
    rw [hhead] at hread hblank hvalue ⊢
    unfold year
    rw [hblank]
    split
    · next heq => cases heq; cases hc
    · next heq => cases heq; cases hc
    · rw [hread, Option.map_some]
      show some ((digitsNat (c :: cs) : Int), '-' :: rest) = _
      rw [hvalue, Int.toNat_of_nonneg hrange.1]
  · next hrange =>
    obtain ⟨hrun, hvalue, -⟩ := toList_padded (n := y.natAbs) (show 0 < 4 by decide)
    have hlength : (padded 4 y.natAbs).toList.length ≤
        ((padded 4 y.natAbs).toList ++ '-' :: rest).length := by simp
    have hread := leadingDigits_append hrun hlength (.inr hend)
    rw [String.toList_append, List.append_assoc]
    -- What follows the sign is read alike after either of them.
    generalize (padded 4 y.natAbs).toList = ds at *
    generalize ds ++ '-' :: rest = cs at *
    split
    · next hneg =>
      show (leadingDigits cs.length cs).map _ = _
      rw [hread, Option.map_some]
      show some (-(digitsNat ds : Int), '-' :: rest) = _
      rw [hvalue, show -(y.natAbs : Int) = y by omega]
    · next hpos =>
      show (leadingDigits cs.length cs).map _ = _
      rw [hread, Option.map_some]
      show some ((digitsNat ds : Int), '-' :: rest) = _
      rw [hvalue, show (y.natAbs : Int) = y by omega]

theorem date_append {t : Instant} (h : (Date.ofDayNumber t.day).isValid = true) (rest : List Char) :
    date (t.dateText.toList ++ rest) = some (Date.ofDayNumber t.day, rest) := by
  have hvalid := h
  rw [Date.isValid] at hvalid
  simp only [Bool.and_eq_true, decide_eq_true_iff] at hvalid
  have hdays : ∀ y m, Date.daysIn y m ≤ 31 := by
    intro y m
    unfold Date.daysIn
    split
    · split <;> decide
    · split <;> decide
  have hday := hdays (Date.ofDayNumber t.day).year (Date.ofDayNumber t.day).month
  have hyphen : "-".toList = ['-'] := by decide
  unfold dateText
  simp only [String.toList_append, List.append_assoc, hyphen, List.cons_append, List.nil_append]
  unfold date
  simp only [year_append, Option.bind_eq_bind, Option.bind_some, separator_cons (c := '-') rfl,
    number_padded (show (Date.ofDayNumber t.day).month < 100 by omega),
    number_padded (show (Date.ofDayNumber t.day).day < 100 by omega)]
  exact if_pos h

/-! ## Times of day -/

theorem fraction_point {width n : Nat} (hwidth : 0 < width) (hlimit : width ≤ 9)
    (hn : n < 10 ^ width) (rest : List Char) :
    fraction ('.' :: ((padded width n).toList ++ 'Z' :: rest)) =
      some (n * Nat.pow 10 (9 - width), 'Z' :: rest) := by
  obtain ⟨hrun, hvalue, hlength⟩ := toList_padded (n := n) hwidth
  have hlength := hlength hn
  have hend : ∀ c ∈ ('Z' :: rest).head?, c.isDigit = false := by
    intro c hc
    cases hc
    rfl
  rw [fraction, leadingDigits_append hrun (by omega) (.inr hend), Option.map_some]
  dsimp only
  rw [hvalue, hlength, List.dropWhile_cons_of_neg (by decide)]

theorem fraction_append {n : Nat} (h : n < nanosPerSecond) (rest : List Char) :
    fraction ((fractionText n).toList ++ 'Z' :: rest) = some (n, 'Z' :: rest) := by
  have hpoint : ".".toList = ['.'] := by decide
  have hbound : nanosPerSecond = 10 ^ 9 := rfl
  unfold fractionText
  split
  · next hzero => rw [hzero]; rfl
  split
  · next hmilli =>
    rw [String.toList_append, hpoint, List.append_assoc, List.singleton_append,
      fraction_point (by decide) (by decide) (by omega)]
    rw [show Nat.pow 10 (9 - 3) = 1000000 from rfl,
      Nat.div_mul_cancel (Nat.dvd_of_mod_eq_zero hmilli)]
  split
  · next hmicro =>
    rw [String.toList_append, hpoint, List.append_assoc, List.singleton_append,
      fraction_point (by decide) (by decide) (by omega)]
    rw [show Nat.pow 10 (9 - 6) = 1000 from rfl,
      Nat.div_mul_cancel (Nat.dvd_of_mod_eq_zero hmicro)]
  · rw [String.toList_append, hpoint, List.append_assoc, List.singleton_append,
      fraction_point (by decide) (by decide) (by omega)]
    rw [show Nat.pow 10 (9 - 9) = 1 from rfl, Nat.mul_one]

theorem nanos_lt (t : Instant) : t.nanos < 2 * nanosPerSecond := by
  have hpos : (0 : Int) < ticksPerSecond := by decide
  have hlt := Int.emod_lt_of_pos t.ticks hpos
  have hnonneg := Int.emod_nonneg t.ticks (Int.ne_of_gt hpos)
  unfold nanos
  have : (ticksPerSecond : Int) = (2 * nanosPerSecond : Nat) := rfl
  omega

/-- A time of day from its parts; second 60 is the leap second after second 59. -/
theorem clock_of_parts {h m s nanos : Nat} {cs cs₁ cs₂ cs₃ cs₄ cs₅ rest : List Char}
    (hhour : number 2 cs = some (h, cs₁)) (hfirst : separator ':' cs₁ = some cs₂)
    (hminute : number 2 cs₂ = some (m, cs₃)) (hsecond : separator ':' cs₃ = some cs₄)
    (hnumber : number 2 cs₄ = some (s, cs₅)) (hfraction : fraction cs₅ = some (nanos, rest)) :
    clock cs =
      if h < 24 ∧ m < 60 ∧ s < 60 then some ((h * 3600 + m * 60 + s, nanos), rest)
      else if h < 24 ∧ m < 60 ∧ s = 60 then
        some ((h * 3600 + m * 60 + 59, nanosPerSecond + nanos), rest)
      else none := by
  rw [clock, hhour]
  simp only [hfirst, hminute, hsecond, hnumber, hfraction, Option.bind_eq_bind, Option.bind_some]

theorem clock_append {t : Instant} (hleap : nanosPerSecond ≤ t.nanos → t.second % 60 = 59)
    (rest : List Char) :
    clock (t.clockText.toList ++ 'Z' :: rest) =
      some (((t.second % secondsPerDay).toNat, t.nanos), 'Z' :: rest) := by
  have hcolon : ":".toList = [':'] := by decide
  have hnanos := t.nanos_lt
  have hpart : t.second % secondsPerDay = t.second % 86400 := rfl
  have hday : (t.second % secondsPerDay).toNat < 86400 := by omega
  have hsecond : nanosPerSecond ≤ t.nanos → (t.second % secondsPerDay).toNat % 60 = 59 := by
    intro h
    have := hleap h
    omega
  unfold clockText
  dsimp only
  simp only [String.toList_append, List.append_assoc, hcolon, List.cons_append, List.nil_append]
  generalize (t.second % secondsPerDay).toNat = ofDay at *
  generalize t.nanos = nanos at *
  have hseparator := separator_cons (c := ':') rfl
  have hhour := number_padded (show ofDay / 3600 < 100 by omega)
  have hminute := number_padded (show ofDay / 60 % 60 < 100 by omega)
  by_cases h : nanosPerSecond ≤ nanos
  · rw [if_pos h, if_pos h, clock_of_parts (hhour _) (hseparator _) (hminute _) (hseparator _)
      (number_padded (by omega) _) (fraction_append (by omega) _)]
    rw [if_neg (by omega), if_pos (by omega),
      show ofDay / 3600 * 3600 + ofDay / 60 % 60 * 60 + 59 = ofDay by omega,
      Nat.add_sub_cancel' h]
  · rw [if_neg h, if_neg h, clock_of_parts (hhour _) (hseparator _) (hminute _) (hseparator _)
      (number_padded (by omega) _) (fraction_append (by omega) _)]
    rw [if_pos (by omega), Nat.add_zero,
      show ofDay / 3600 * 3600 + ofDay / 60 % 60 * 60 + ofDay % 60 = ofDay by omega]

/-! ## Instants -/

/-- An instant that the calendar has: its year is in range, and a second is a leap second only
where it is the last of its minute. -/
structure InCalendar (t : Instant) : Prop where
  date : (Date.ofDayNumber t.day).isValid = true
  leap : nanosPerSecond ≤ t.nanos → t.second % 60 = 59

instance (t : Instant) : Decidable t.InCalendar :=
  decidable_of_iff ((Date.ofDayNumber t.day).isValid = true ∧
    (nanosPerSecond ≤ t.nanos → t.second % 60 = 59)) ⟨fun h => ⟨h.1, h.2⟩, fun h => ⟨h.1, h.2⟩⟩

theorem ofSecond_second_nanos (t : Instant) : ofSecond t.second t.nanos = t := by
  have hpos : (0 : Int) < ticksPerSecond := by decide
  have hnonneg := Int.emod_nonneg t.ticks (Int.ne_of_gt hpos)
  rw [ofSecond, second, nanos, Int.toNat_of_nonneg hnonneg, Int.ediv_mul_add_emod]

theorem offset_zulu : offset (skipBlanks ['Z']) = some (0, []) := by decide

/-- An instant of the calendar is read from its text in documents. -/
theorem read?_documentText {t : Instant} (h : t.InCalendar) : read? t.documentText = some t := by
  have hmarks : "T".toList = ['T'] ∧ "Z".toList = ['Z'] := by decide
  have hseconds : (Date.ofDayNumber t.day).dayNumber * secondsPerDay +
      (t.second % secondsPerDay).toNat - 0 = t.second := by
    have hpart : t.second % secondsPerDay = t.second % 86400 := rfl
    have hwhole : t.day * secondsPerDay = t.second / 86400 * 86400 := rfl
    rw [Date.dayNumber_ofDayNumber]
    omega
  have hclock := clock_append h.leap []
  rw [read?, documentText]
  simp only [String.toList_append, List.append_assoc, hmarks.1, hmarks.2, List.cons_append,
    List.nil_append, date_append h.date, hclock, offset_zulu, Option.bind_eq_bind,
    Option.bind_some, hseconds, ofSecond_second_nanos]
  exact if_pos ⟨rfl, h.date⟩

theorem readsBack_of_inCalendar {t : Instant} (h : t.InCalendar) :
    ReadsBack document ofDocument? t := by
  rw [ReadsBack, ofDocument?, document, Document.text, Document.text?, Option.bind_some]
  exact read?_documentText h

/-! ## What is read -/

theorem digitsNat_lt {ds : List Char} (h : ∀ c ∈ ds, c.isDigit = true) :
    digitsNat ds < 10 ^ ds.length := by
  induction ds using List.reverseRecOn with
  | nil => decide
  | append_singleton ds c ih =>
    have hc : c.isDigit = true := h c (by simp)
    have hvalue : digitValue c < 10 := by
      have hrange : 48 ≤ c.toNat ∧ c.toNat ≤ 57 := by
        simpa [Char.isDigit, UInt32.le_iff_toNat_le] using hc
      show c.toNat - 48 < 10
      omega
    have ih := ih fun c hc => h c (List.mem_append_left _ hc)
    have hlast : digitsNat (ds ++ [c]) = 10 * digitsNat ds + digitValue c := by
      rw [digitsNat, List.foldl_append]
      rfl
    rw [hlast, List.length_append, List.length_singleton, Nat.pow_succ]
    omega

theorem of_leadingDigits {limit : Nat} {cs ds rest : List Char}
    (h : leadingDigits limit cs = some (ds, rest)) :
    ds.length ≤ limit ∧ ∀ c ∈ ds, c.isDigit = true := by
  unfold leadingDigits at h
  dsimp only at h
  split at h
  · cases h
  · cases h
    refine ⟨?_, fun c hc => List.mem_takeWhile_imp hc⟩
    exact (List.takeWhile_sublist _).length_le.trans (List.length_take_le _ _)

theorem fraction_lt {cs rest : List Char} {n : Nat} (h : fraction cs = some (n, rest)) :
    n < nanosPerSecond := by
  unfold fraction at h
  split at h
  · obtain ⟨⟨ds, rest⟩, hread, h⟩ := Option.map_eq_some_iff.mp h
    cases h
    obtain ⟨hlength, hdigits⟩ := of_leadingDigits hread
    have hpow : 10 ^ ds.length * Nat.pow 10 (9 - ds.length) = nanosPerSecond := by
      rw [Nat.pow_eq, ← Nat.pow_add, Nat.add_sub_cancel' hlength]
      rfl
    rw [← hpow]
    exact Nat.mul_lt_mul_of_pos_right (digitsNat_lt hdigits) (Nat.pow_pos (by decide))
  · cases h
    decide

theorem of_clock {cs rest : List Char} {second nanos : Nat}
    (h : clock cs = some ((second, nanos), rest)) :
    nanos < 2 * nanosPerSecond ∧ (nanosPerSecond ≤ nanos → second % 60 = 59) := by
  simp only [clock, Option.bind_eq_bind, Option.bind_eq_some_iff] at h
  obtain ⟨⟨hour, _⟩, -, _, -, ⟨minute, _⟩, -, _, -, ⟨s, _⟩, -, ⟨n, _⟩, hfraction, h⟩ := h
  have hn := fraction_lt hfraction
  split at h
  · cases h
    omega
  split at h
  · cases h
    omega
  · cases h

theorem of_signedOffset {negative : Bool} {cs rest : List Char} {east : Int}
    (h : signedOffset negative cs = some (east, rest)) : east % 60 = 0 := by
  simp only [signedOffset, Option.bind_eq_bind, Option.bind_eq_some_iff,
    Option.ite_none_right_eq_some] at h
  obtain ⟨⟨hours, _⟩, -, ⟨minutes, _⟩, -, -, h⟩ := h
  cases h
  split <;> omega

theorem of_offset {cs rest : List Char} {east : Int} (h : offset cs = some (east, rest)) :
    east % 60 = 0 := by
  have hmarked : markedOffset cs = some (east, rest) → east % 60 = 0 := by
    intro h
    unfold markedOffset at h
    split at h
    · cases h; rfl
    · cases h; rfl
    · exact of_signedOffset h
    · exact of_signedOffset h
    · exact of_signedOffset h
    · cases h
  unfold offset at h
  split at h
  · split at h
    · cases h; rfl
    · exact hmarked h
  · exact hmarked h

/-- What a text has to give for an instant to be read from it. -/
theorem of_read? {text : String} {t : Instant} (h : read? text = some t) :
    ∃ (d : Date) (second nanos : Nat) (east : Int) (cs₁ cs₂ cs₃ cs₄ : List Char),
      clock cs₁ = some ((second, nanos), cs₂) ∧ offset cs₃ = some (east, cs₄) ∧
        t = ofSecond (d.dayNumber * secondsPerDay + second - east) nanos ∧
          (Date.ofDayNumber t.day).isValid = true := by
  simp only [read?, Option.bind_eq_bind, Option.bind_eq_some_iff] at h
  obtain ⟨⟨d, cs⟩, -, h⟩ := h
  split at h
  -- no mark between the date and the time
  case h_4 => cases h
  all_goals
    simp only [Option.bind_some, Option.bind_eq_some_iff, Option.ite_none_right_eq_some] at h
    obtain ⟨⟨⟨second, nanos⟩, _⟩, hclock, ⟨east, _⟩, hoffset, ⟨-, hvalid⟩, h⟩ := h
    cases h
    exact ⟨d, second, nanos, east, _, _, _, _, hclock, hoffset, rfl, hvalid⟩

theorem second_ofSecond {s : Int} {nanos : Nat} (h : nanos < 2 * nanosPerSecond) :
    (ofSecond s nanos).second = s ∧ (ofSecond s nanos).nanos = nanos := by
  have hticks : (ticksPerSecond : Int) = 2000000000 := rfl
  have hnanos : nanosPerSecond = 1000000000 := rfl
  unfold ofSecond Instant.second Instant.nanos
  dsimp only
  rw [hticks]
  omega

/-- The instants that are read are those of the calendar. -/
theorem exists_read?_iff {t : Instant} : (∃ text, read? text = some t) ↔ t.InCalendar := by
  constructor
  · rintro ⟨text, h⟩
    obtain ⟨d, second, nanos, east, _, _, _, _, hclock, hoffset, rfl, hvalid⟩ := of_read? h
    obtain ⟨hnanos, hleap⟩ := of_clock hclock
    have heast := of_offset hoffset
    obtain ⟨hsecond, hkept⟩ := second_ofSecond
      (s := d.dayNumber * secondsPerDay + second - east) hnanos
    refine ⟨hvalid, fun h => ?_⟩
    rw [hkept] at h
    rw [hsecond]
    have hlast := hleap h
    have hday : (secondsPerDay : Int) = 60 * 1440 := rfl
    rw [hday]
    omega
  · exact fun h => ⟨t.documentText, read?_documentText h⟩

end Instant

end TradingDesk
