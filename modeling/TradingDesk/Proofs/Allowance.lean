import TradingDesk.Proofs.Exact
import TradingDesk.Proofs.Rules
import TradingDesk.Proofs.Table
/- Proofs.Allowance — fills never take more than their share of a bar.

   A call of the built-in rules either leaves the allowances alone, and then it
   fills nothing of a bar, or draws from the bar that the security shows, and then
   it fills what it drew (`dispatch_spends`). Nothing else is known of a call here:
   its order may be of any kind and on either side.

   Over a sequence of calls the memory holds what was filled against the latest bar
   of each symbol, and only of that bar. As long as no bar comes back after another
   (`NeverReturns`), what the memory has forgotten is not asked for again, and what
   was filled against a bar stays within the share of the largest volume that the
   bar ever showed (`answerAll_within_share`). -/
namespace TradingDesk

variable {α σ : Type}

/-! ## One draw -/

namespace Usage

theorem taken_insert [Scalar α] (u : Usage α) (symbol : String) (time : Instant) (used : α)
    (s : String) (t : Instant) :
    taken (u.insert symbol ⟨time, used⟩) s t =
      if s = symbol then if time = t then used else 0 else u.taken s t := by
  unfold taken
  by_cases hs : s = symbol
  · subst hs
    rw [if_pos rfl, Table.get?_insert_self]
  · rw [if_neg hs, Table.get?_insert_of_ne _ _ hs]

variable {u : Usage Rat} {share wanted : Rat} {symbol : String} {bar : Bar Rat}

/-- A draw gives nothing, or a quantity that counts and is left of the allowance. -/
theorem draw_cases (u : Usage Rat) (share : Rat) (symbol : String) (bar : Bar Rat) (wanted : Rat) :
    (u.draw share symbol bar wanted).1 = 0 ∨
      Scalar.tolerance ≤ (u.draw share symbol bar wanted).1 ∧
        (u.draw share symbol bar wanted).1 ≤ u.allowance share symbol bar := by
  simp only [draw]
  split
  · exact .inl rfl
  · next hsize =>
    refine .inr ⟨not_lt.mp hsize, ?_⟩
    rw [Scalar.min_rat]
    exact min_le_right _ _

theorem draw_nonneg (u : Usage Rat) (share : Rat) (symbol : String) (bar : Bar Rat) (wanted : Rat) :
    0 ≤ (u.draw share symbol bar wanted).1 := by
  rcases u.draw_cases share symbol bar wanted with h | ⟨h, -⟩
  · exact h.ge
  · exact Scalar.tolerance_pos.le.trans h

/-- A draw never takes a bar beyond its share, or beyond what was taken before. -/
theorem taken_add_draw_le (u : Usage Rat) (share : Rat) (symbol : String) (bar : Bar Rat)
    (wanted : Rat) :
    u.taken symbol bar.time + (u.draw share symbol bar wanted).1 ≤
      max (bar.volume * share) (u.taken symbol bar.time) := by
  rcases u.draw_cases share symbol bar wanted with h | ⟨-, h⟩
  · rw [h, add_zero]
    exact le_max_right _ _
  · rw [allowance, Scalar.max_rat] at h
    calc u.taken symbol bar.time + (u.draw share symbol bar wanted).1
        ≤ u.taken symbol bar.time + max (bar.volume * share - u.taken symbol bar.time) 0 := by
          linarith
      _ = max (bar.volume * share) (u.taken symbol bar.time) := by
          rw [← max_add_add_left, add_sub_cancel, add_zero]

/-- After a draw the memory holds the drawn quantity on top of what was taken from the bar, nothing
of the symbol's other bars, and what it held of other symbols. -/
theorem taken_draw (u : Usage Rat) (share : Rat) (symbol : String) (bar : Bar Rat) (wanted : Rat)
    (s : String) (t : Instant) :
    (u.draw share symbol bar wanted).2.taken s t =
      if s = symbol then
        if bar.time = t then u.taken symbol bar.time + (u.draw share symbol bar wanted).1 else 0
      else u.taken s t := by
  simp only [draw]
  split
  · rw [taken_insert, add_zero]
  · rw [taken_insert]

end Usage

/-! ## One call -/

/-- What a call of the rules takes from the bar that the security shows. -/
inductive Spends (share : Rat) (security : Snapshot Rat) (u : Usage Rat) (event : OrderEvent Rat) :
    Usage Rat → Prop where
  /-- The allowances are left alone, and nothing is filled of a bar. -/
  | untouched (he : security.bar = none ∨ event.fillQuantity = 0) : Spends share security u event u
  /-- What is filled is drawn from the bar. -/
  | drawn {bar : Bar Rat} (wanted : Rat) (hb : security.bar = some bar)
      (he : |event.fillQuantity| = (u.draw share security.symbol bar wanted).1) :
      Spends share security u event (u.draw share security.symbol bar wanted).2

namespace Spends

variable {share : Rat} {security : Snapshot Rat} {u u' : Usage Rat} {event : OrderEvent Rat}
  {bar : Bar Rat}

/-- At a bar the event fills nothing, or what it fills is drawn from that bar. -/
theorem of_shown (h : Spends share security u event u') (hb : security.bar = some bar) :
    event.fillQuantity = 0 ∧ u' = u ∨
      ∃ wanted, |event.fillQuantity| = (u.draw share security.symbol bar wanted).1 ∧
        u' = (u.draw share security.symbol bar wanted).2 := by
  cases h with
  | untouched he =>
    refine .inl ⟨he.resolve_left ?_, rfl⟩
    rw [hb]
    exact Option.some_ne_none bar
  | drawn wanted hb' he =>
    obtain rfl := Option.some.inj (hb.symm.trans hb')
    exact .inr ⟨wanted, he, rfl⟩

theorem taken_self (h : Spends share security u event u') (hb : security.bar = some bar) :
    u'.taken security.symbol bar.time =
      u.taken security.symbol bar.time + |event.fillQuantity| := by
  rcases h.of_shown hb with ⟨hzero, rfl⟩ | ⟨wanted, hdrawn, rfl⟩
  · rw [hzero, abs_zero, add_zero]
  · rw [Usage.taken_draw, if_pos rfl, if_pos rfl, hdrawn]

/-- Of a symbol that the security does not show a bar of, the memory keeps what it held. -/
theorem taken_of_not_shown (h : Spends share security u event u') {s : String}
    (hs : security.symbol = s → security.bar = none) (t : Instant) :
    u'.taken s t = u.taken s t := by
  cases h with
  | untouched he => rfl
  | drawn wanted hb he =>
    have hne : s ≠ security.symbol := by
      rintro rfl
      rw [hs rfl] at hb
      cases hb
    rw [Usage.taken_draw, if_neg hne]

/-- Of other bars of the symbol the memory keeps what it held, or forgets it. -/
theorem taken_of_ne_time (h : Spends share security u event u') (hb : security.bar = some bar)
    {t : Instant} (ht : bar.time ≠ t) :
    u'.taken security.symbol t = u.taken security.symbol t ∨ u'.taken security.symbol t = 0 := by
  rcases h.of_shown hb with ⟨-, rfl⟩ | ⟨wanted, -, rfl⟩
  · exact .inl rfl
  · right
    rw [Usage.taken_draw, if_pos rfl, if_neg ht]

theorem within (h : Spends share security u event u') (hb : security.bar = some bar) :
    u.taken security.symbol bar.time + |event.fillQuantity| ≤
      max (bar.volume * share) (u.taken security.symbol bar.time) := by
  rcases h.of_shown hb with ⟨hzero, -⟩ | ⟨wanted, hdrawn, -⟩
  · rw [hzero, abs_zero, add_zero]
    exact le_max_right _ _
  · rw [hdrawn]
    exact u.taken_add_draw_le share _ _ wanted

end Spends

namespace FillConfig

variable {c : FillConfig Rat} {share : Rat}

/-- A quantity of nothing or one that counts is filled as it is. -/
theorem abs_filled_fillQuantity (order : Order Rat) (now : Instant) (price : Rat) {quantity : Rat}
    (h : quantity = 0 ∨ Scalar.tolerance ≤ |quantity|) :
    |(filled order now price quantity).fillQuantity| = |quantity| := by
  unfold filled
  split
  · next hn =>
    have hzero : quantity = 0 := by
      refine h.resolve_right ?_
      exact not_le.mpr (Scalar.negligible_iff.mp hn)
    rw [hzero]
    rfl
  · rfl

theorem fillQuantity_of_no_bar {security : Snapshot Rat} (hb : security.bar = none)
    (order : Order Rat) (u : Usage Rat) :
    c.fillQuantity security order u = (order.remaining, u) := by
  unfold fillQuantity
  rw [hb]
  cases c.participation <;> rfl

/-- Of a bar an order fills what it draws, on its own side. -/
theorem fillQuantity_of_bar (hc : c.participation = some share) {security : Snapshot Rat}
    {bar : Bar Rat} (hb : security.bar = some bar) (order : Order Rat) (u : Usage Rat) :
    let wanted := Scalar.abs order.remaining
    ∃ quantity, |quantity| = (u.draw share security.symbol bar wanted).1 ∧
      c.fillQuantity security order u =
        (quantity, (u.draw share security.symbol bar wanted).2) := by
  intro wanted
  let size := (u.draw share security.symbol bar wanted).1
  have hnonneg : 0 ≤ size := u.draw_nonneg share security.symbol bar wanted
  refine ⟨if order.leavesSale then -size else size, ?_, ?_⟩
  · split
    · rw [abs_neg, abs_of_nonneg hnonneg]
    · rw [abs_of_nonneg hnonneg]
  · simp only [fillQuantity, hc, hb, size, wanted]

theorem fillAt_spends (hc : c.participation = some share) (security : Snapshot Rat)
    (order : Order Rat) (now : Instant) (price : Rat) (u : Usage Rat) :
    ∃ event u', c.fillAt security order now price u = (.ok event, u') ∧
      Spends share security u event u' := by
  suffices h : Spends share security u (filled order now price (c.fillQuantity security order u).1)
      (c.fillQuantity security order u).2 from ⟨_, _, rfl, h⟩
  rcases hb : security.bar with _ | bar
  · rw [fillQuantity_of_no_bar hb]
    exact .untouched (.inl hb)
  · obtain ⟨quantity, hsize, hq⟩ := fillQuantity_of_bar hc hb order u
    have hcounts : quantity = 0 ∨ Scalar.tolerance ≤ |quantity| := by
      rw [← abs_eq_zero, hsize]
      exact (u.draw_cases share security.symbol bar _).imp id And.left
    rw [hq]
    refine .drawn _ hb ?_
    rw [abs_filled_fillQuantity order now price hcounts, hsize]

theorem fillIf_spends (hc : c.participation = some share) (security : Snapshot Rat)
    (order : Order Rat) (now : Instant) (price? : Option Rat) (u : Usage Rat) :
    ∃ event u', c.fillIf security order now price? u = (.ok event, u') ∧
      Spends share security u event u' := by
  cases price? with
  | none => exact ⟨_, _, rfl, .untouched (.inr rfl)⟩
  | some price => exact fillAt_spends hc security order now price u

/-- The rules answer every call, and fill of a bar what they draw from it. -/
theorem dispatch_spends (hc : c.participation = some share) (security : Snapshot Rat)
    (order : Order Rat) (now : Instant) (u : Usage Rat) :
    ∃ event kind u', c.fillModel.dispatch security order now u = (.ok (event, kind), u') ∧
      Spends share security u event u' := by
  obtain ⟨price?, kind, hdispatch⟩ := dispatch_eq c security order now
  obtain ⟨event, u', hfill, hspends⟩ := fillIf_spends hc security order now price? u
  refine ⟨event, kind, u', ?_, hspends⟩
  simp only [hdispatch, Trial.andThen, hfill, Trial.give]

end FillConfig

/-! ## A sequence of calls -/

/-- What one call asks a fill model. -/
structure FillCall (α : Type) where
  security : Snapshot α
  order : Order α
  now : Instant

/-- What a fill model answers to a call: an event with the order's kind after it, or a fault. -/
abbrev FillAnswer (α : Type) := Except Fault (OrderEvent α × OrderKind α)

/-- Calls in turn, each with its answer; each meets the memory that the one before it left. -/
def FillModel.answerAll (model : FillModel α σ) :
    σ → List (FillCall α) → List (FillCall α × FillAnswer α)
  | _, [] => []
  | memory, call :: calls =>
    let (answer, memory) := model.dispatch call.security call.order call.now memory
    (call, answer) :: model.answerAll memory calls

theorem FillModel.answerAll_calls (model : FillModel α σ) (memory : σ) (calls : List (FillCall α)) :
    (model.answerAll memory calls).map Prod.fst = calls := by
  induction calls generalizing memory with
  | nil => rfl
  | cons call calls ih =>
    simp only [answerAll, List.map_cons]
    rw [ih]

namespace FillCall

/-- The time of the bar that a call shows of a symbol. -/
def barTime? (call : FillCall α) (symbol : String) : Option Instant :=
  if call.security.symbol = symbol then call.security.bar.map Bar.time else none

/-- The volume that a call shows of a bar, zero if it does not show the bar. -/
def volumeOf (call : FillCall Rat) (symbol : String) (time : Instant) : Rat :=
  if call.barTime? symbol = some time then call.security.volume?.getD 0 else 0

theorem barTime?_eq_some {call : FillCall α} {symbol : String} {time : Instant}
    (h : call.barTime? symbol = some time) :
    call.security.symbol = symbol ∧ ∃ bar, call.security.bar = some bar ∧ bar.time = time := by
  unfold barTime? at h
  split at h
  · next hs => exact ⟨hs, Option.map_eq_some_iff.mp h⟩
  · cases h

theorem bar_eq_none_of_barTime? {call : FillCall α} {symbol : String}
    (h : call.barTime? symbol = none) (hs : call.security.symbol = symbol) :
    call.security.bar = none := by
  rw [barTime?, if_pos hs] at h
  exact Option.map_eq_none_iff.mp h

end FillCall

/-- The times of the bars that calls show of a symbol, in the order of the calls. -/
def barTimes (calls : List (FillCall α)) (symbol : String) : List Instant :=
  calls.filterMap fun call => call.barTime? symbol

/-- The largest volume that calls show of a bar. -/
def largestVolume (calls : List (FillCall Rat)) (symbol : String) (time : Instant) : Rat :=
  (calls.map fun call => call.volumeOf symbol time).foldr max 0

/-- How much an answer fills, on either side. -/
def filledSize : FillAnswer Rat → Rat
  | .ok (event, _) => |event.fillQuantity|
  | .error _ => 0

/-- How much the answers to calls that show a bar fill of it, over both sides. -/
def filledAgainst (answered : List (FillCall Rat × FillAnswer Rat)) (symbol : String)
    (time : Instant) : Rat :=
  (answered.map fun (call, answer) =>
    if call.barTime? symbol = some time then filledSize answer else 0).sum

/-- No time comes back after another one. -/
def NeverReturns (times : List Instant) : Prop :=
  ∀ t t', [t, t', t].Sublist times → t' = t

theorem NeverReturns.of_sublist {times times' : List Instant} (h : NeverReturns times')
    (hsub : times.Sublist times') : NeverReturns times :=
  fun t t' ht => h t t' (ht.trans hsub)

theorem NeverReturns.of_ascending {times : List Instant} (h : times.Pairwise (· ≤ ·)) :
    NeverReturns times := by
  intro t t' hsub
  have hpairs := h.sublist hsub
  simp only [List.pairwise_cons, List.mem_cons, List.not_mem_nil, or_false, forall_eq_or_imp,
    forall_eq] at hpairs
  obtain ⟨⟨hle, -⟩, hge, -⟩ := hpairs
  have hticks : t'.ticks = t.ticks := Int.le_antisymm hge hle
  cases t; cases t'; cases hticks; rfl

section Sequence

variable {answered : List (FillCall Rat × FillAnswer Rat)} {calls : List (FillCall Rat)}
  {call : FillCall Rat} {answer : FillAnswer Rat} {symbol : String} {time : Instant}

theorem barTimes_concat (calls : List (FillCall Rat)) (call : FillCall Rat) (symbol : String) :
    barTimes (calls ++ [call]) symbol = barTimes calls symbol ++ (call.barTime? symbol).toList := by
  rw [barTimes, List.filterMap_append]
  cases h : call.barTime? symbol <;> simp [barTimes, h]

theorem filledAgainst_concat (answered : List (FillCall Rat × FillAnswer Rat))
    (call : FillCall Rat) (answer : FillAnswer Rat) (symbol : String) (time : Instant) :
    filledAgainst (answered ++ [(call, answer)]) symbol time =
      filledAgainst answered symbol time +
        if call.barTime? symbol = some time then filledSize answer else 0 := by
  simp only [filledAgainst, List.map_append, List.sum_append, List.map_cons, List.map_nil,
    List.sum_cons, List.sum_nil, add_zero]

theorem largestVolume_concat (calls : List (FillCall Rat)) (call : FillCall Rat) (symbol : String)
    (time : Instant) :
    largestVolume (calls ++ [call]) symbol time =
      max (largestVolume calls symbol time) (call.volumeOf symbol time) := by
  induction calls with
  | nil => exact max_comm _ _
  | cons first calls ih =>
    show max (first.volumeOf symbol time) (largestVolume (calls ++ [call]) symbol time) = _
    rw [ih, ← max_assoc]
    rfl

/-- Nothing is filled of a bar that no call showed. -/
theorem filledAgainst_of_not_mem (h : time ∉ barTimes (answered.map Prod.fst) symbol) :
    filledAgainst answered symbol time = 0 := by
  apply List.sum_eq_zero
  intro size hsize
  obtain ⟨⟨call, answer⟩, hmem, rfl⟩ := List.mem_map.mp hsize
  apply if_neg
  intro hshown
  exact h (List.mem_filterMap.mpr ⟨call, List.mem_map_of_mem hmem, hshown⟩)

end Sequence

/-- What the memory holds after calls that were answered: what was filled of a bar, unless another
bar of the symbol came after it. What was filled of a bar is within its share. -/
structure Accounted (share : Rat) (answered : List (FillCall Rat × FillAnswer Rat))
    (u : Usage Rat) : Prop where
  remembered : ∀ symbol time, filledAgainst answered symbol time = u.taken symbol time ∨
    ∃ time', time' ≠ time ∧ [time, time'].Sublist (barTimes (answered.map Prod.fst) symbol)
  within : ∀ symbol time, filledAgainst answered symbol time ≤
    share * largestVolume (answered.map Prod.fst) symbol time

namespace Accounted

variable {share : Rat} {answered : List (FillCall Rat × FillAnswer Rat)} {u u' : Usage Rat}
  {call : FillCall Rat} {event : OrderEvent Rat} {symbol : String} {time : Instant}

theorem empty (share : Rat) : Accounted share [] Table.empty where
  remembered _ _ := .inl rfl
  within _ _ := (mul_zero share).ge

/-- A bar that a call shows has not been forgotten. -/
theorem held (h : Accounted share answered u)
    (hreturn : NeverReturns (barTimes (answered.map Prod.fst ++ [call]) symbol))
    (hshown : call.barTime? symbol = some time) :
    filledAgainst answered symbol time = u.taken symbol time := by
  refine (h.remembered symbol time).resolve_right ?_
  rintro ⟨time', hne, hsub⟩
  apply hne
  apply hreturn time time'
  rw [barTimes_concat, hshown]
  exact hsub.append (List.Sublist.refl [time])

/-- After one more call the memory still holds what was filled of a bar, unless another came. -/
theorem remembered_answer (h : Accounted share answered u)
    (hspends : Spends share call.security u event u')
    (hreturn : NeverReturns (barTimes (answered.map Prod.fst ++ [call]) symbol)) :
    filledAgainst answered symbol time +
        (if call.barTime? symbol = some time then |event.fillQuantity| else 0) =
        u'.taken symbol time ∨
      ∃ time', time' ≠ time ∧
        [time, time'].Sublist (barTimes (answered.map Prod.fst ++ [call]) symbol) := by
  rw [barTimes_concat]
  cases hshown : call.barTime? symbol with
  | none =>
    rw [if_neg (by simp), add_zero, Option.toList_none, List.append_nil]
    rw [hspends.taken_of_not_shown (FillCall.bar_eq_none_of_barTime? hshown)]
    exact h.remembered symbol time
  | some shown =>
    have hheld := h.held hreturn hshown
    obtain ⟨rfl, bar, hb, rfl⟩ := FillCall.barTime?_eq_some hshown
    by_cases htime : bar.time = time
    · subst htime
      left
      rw [if_pos rfl, hheld, hspends.taken_self hb]
    · rw [if_neg (fun he => htime (Option.some.inj he)), add_zero]
      by_cases hseen : time ∈ barTimes (answered.map Prod.fst) call.security.symbol
      · -- the call's bar comes after this one
        right
        refine ⟨bar.time, htime, ?_⟩
        exact (List.singleton_sublist.mpr hseen).append (List.Sublist.refl [bar.time])
      · left
        have hnone := filledAgainst_of_not_mem hseen
        rcases h.remembered call.security.symbol time with hrem | ⟨time', -, hsub⟩
        · rcases hspends.taken_of_ne_time hb htime with hu | hu
          · rw [hu, hrem]
          · rw [hu, hnone]
        · exact absurd (hsub.subset List.mem_cons_self) hseen

/-- After one more call what was filled of a bar is still within its share. -/
theorem within_answer (h : Accounted share answered u) (hshare : 0 ≤ share)
    (hspends : Spends share call.security u event u')
    (hreturn : NeverReturns (barTimes (answered.map Prod.fst ++ [call]) symbol)) :
    filledAgainst answered symbol time +
        (if call.barTime? symbol = some time then |event.fillQuantity| else 0) ≤
      share * largestVolume (answered.map Prod.fst ++ [call]) symbol time := by
  rw [largestVolume_concat]
  have hbefore : filledAgainst answered symbol time ≤ share *
      max (largestVolume (answered.map Prod.fst) symbol time) (call.volumeOf symbol time) :=
    (h.within symbol time).trans (mul_le_mul_of_nonneg_left (le_max_left _ _) hshare)
  by_cases hshown : call.barTime? symbol = some time
  · rw [if_pos hshown]
    have hheld := h.held hreturn hshown
    have hvolume : call.volumeOf symbol time = call.security.volume?.getD 0 := if_pos hshown
    obtain ⟨rfl, bar, hb, rfl⟩ := FillCall.barTime?_eq_some hshown
    rw [Snapshot.volume?, hb] at hvolume
    calc filledAgainst answered call.security.symbol bar.time + |event.fillQuantity|
        = u.taken call.security.symbol bar.time + |event.fillQuantity| := by rw [hheld]
      _ ≤ max (bar.volume * share) (u.taken call.security.symbol bar.time) := hspends.within hb
      _ ≤ _ := by
        apply max_le
        · rw [hvolume, mul_comm]
          exact mul_le_mul_of_nonneg_left (le_max_right _ _) hshare
        · rw [← hheld]
          exact hbefore
  · rw [if_neg hshown, add_zero]
    exact hbefore

/-- One more call keeps the account, unless its bar comes back after another. -/
theorem answer (h : Accounted share answered u) (hshare : 0 ≤ share)
    (hspends : Spends share call.security u event u') (kind : OrderKind Rat)
    (hreturn : ∀ symbol, NeverReturns (barTimes (answered.map Prod.fst ++ [call]) symbol)) :
    Accounted share (answered ++ [(call, Except.ok (event, kind))]) u' := by
  constructor
  · intro symbol time
    rw [filledAgainst_concat, List.map_append]
    exact h.remembered_answer hspends (hreturn symbol)
  · intro symbol time
    rw [filledAgainst_concat, List.map_append]
    exact h.within_answer hshare hspends (hreturn symbol)

end Accounted

namespace FillConfig

variable {c : FillConfig Rat} {share : Rat}

theorem answerAll_accounted (hc : c.participation = some share) (hshare : 0 ≤ share)
    (calls : List (FillCall Rat)) {answered : List (FillCall Rat × FillAnswer Rat)}
    {u : Usage Rat} (h : Accounted share answered u)
    (hreturn : ∀ symbol, NeverReturns (barTimes (answered.map Prod.fst ++ calls) symbol)) :
    ∃ u', Accounted share (answered ++ c.fillModel.answerAll u calls) u' := by
  induction calls generalizing answered u with
  | nil =>
    rw [FillModel.answerAll, List.append_nil]
    exact ⟨u, h⟩
  | cons call calls ih =>
    obtain ⟨event, kind, u', hdispatch, hspends⟩ :=
      dispatch_spends hc call.security call.order call.now u
    have hfirst : ∀ symbol, NeverReturns (barTimes (answered.map Prod.fst ++ [call]) symbol) := by
      intro symbol
      refine (hreturn symbol).of_sublist (List.Sublist.filterMap _ ?_)
      exact (List.Sublist.refl _).append (List.singleton_sublist.mpr List.mem_cons_self)
    have hnext := ih (h.answer hshare hspends kind hfirst) (by
      intro symbol
      rw [List.map_append, List.append_assoc]
      exact hreturn symbol)
    simp only [FillModel.answerAll, hdispatch]
    rwa [List.append_assoc] at hnext

/-- Over any sequence of calls in which no bar of a symbol comes back after another, the rules fill
at most their share of the largest volume that a bar showed. -/
theorem answerAll_within_share (hc : c.participation = some share) (hshare : 0 < share)
    (calls : List (FillCall Rat)) (hreturn : ∀ symbol, NeverReturns (barTimes calls symbol))
    (symbol : String) (time : Instant) :
    filledAgainst (c.fillModel.answerAll Table.empty calls) symbol time ≤
      share * largestVolume calls symbol time := by
  obtain ⟨u, hu⟩ := answerAll_accounted hc hshare.le calls (Accounted.empty share) hreturn
  have hwithin := hu.within symbol time
  rwa [List.nil_append, FillModel.answerAll_calls] at hwithin

/-- Two symbols take turns. The first bar of the one is met three times, by a buyer, a seller and
again the buyer; its volume is corrected from 20 to 30 before the last. -/
theorem answerAll_within_share_of_correction :
    let c : FillConfig Rat := ⟨0, 1 / 100, some (1 / 2)⟩
    let order (id : OrderId) (symbol : String) (quantity : Rat) : Order Rat :=
      { id := id, symbol := symbol, quantity := quantity, kind := .market, time := ⟨0⟩
        filled := 0 }
    let call (id : OrderId) (symbol : String) (quantity : Rat) (t : Int) (volume : Rat) :
        FillCall Rat :=
      ⟨Snapshot.ofBar symbol (Bar.flat ⟨t⟩ 100 volume), order id symbol quantity, ⟨t⟩⟩
    let calls := [call 1 "SPY" 8 60 20, call 2 "QQQ" 9 60 10, call 3 "SPY" (-7) 60 20,
      call 2 "QQQ" 4 60 10, call 1 "SPY" 40 60 30, call 2 "QQQ" 1 120 10, call 1 "SPY" 6 120 10]
    let answered := c.fillModel.answerAll Table.empty calls
    c.participation = some (1 / 2) ∧ (0 : Rat) < 1 / 2 ∧
      (∀ symbol, NeverReturns (barTimes calls symbol)) ∧
      answered.map (fun a => filledSize a.2) = [8, 5, 2, 0, 5, 1, 5] ∧
      filledAgainst answered "SPY" ⟨60⟩ = 15 ∧ largestVolume calls "SPY" ⟨60⟩ = 30 ∧
      ∀ symbol time, filledAgainst answered symbol time ≤
        1 / 2 * largestVolume calls symbol time := by
  intro c order call calls answered
  have hreturn : ∀ symbol, NeverReturns (barTimes calls symbol) := by
    intro symbol
    apply NeverReturns.of_ascending
    by_cases hspy : "SPY" = symbol
    · subst hspy
      decide
    · by_cases hqqq : "QQQ" = symbol
      · subst hqqq
        decide
      · simp [calls, call, barTimes, FillCall.barTime?, Snapshot.ofBar, hspy, hqqq]
  exact ⟨rfl, by decide +kernel, hreturn, by decide +kernel, by decide +kernel, by decide +kernel,
    answerAll_within_share rfl (by decide +kernel) calls hreturn⟩

end FillConfig

end TradingDesk
