import Mathlib.Tactic.FieldSimp
import Mathlib.Tactic.Ring
import TradingDesk.Proofs.Position
/- Proofs.Accounting — the accounting identity.

   An account can be followed along any fills and marks. What carries the identity
   is its capital: cash, what the open positions were entered at, and the fees,
   less what was realised. Joining a position moves cash into its book value;
   reducing one moves book value back and realises the difference; going through
   zero closes at the one average and reopens at the other; a mark moves nothing.
   So the capital never changes (`capital_post`), and the total value is the
   initial cash with what was realised, what is open and what was paid in fees.

   The one thing that loses money is dust: a position too small to count is
   dropped with its value, so the fills must leave none. -/
namespace TradingDesk

/-! ## What a position was entered at -/

namespace Position

/-- What the position was entered at. -/
def bookValue (held : Position Rat) : Rat := held.quantity * held.averagePrice

theorem marketValue_eq (held : Position Rat) :
    held.marketValue = held.bookValue + held.unrealizedGain := by
  show held.quantity * held.marketPrice =
    held.quantity * held.averagePrice + (held.marketPrice - held.averagePrice) * held.quantity
  ring

variable {held : Position Rat} {quantity : Rat}

theorem isFlat_iff : held.isFlat = true ↔ |held.quantity| < Scalar.tolerance :=
  Scalar.negligible_iff

/-- A fill on the side of a position enters at its own price. -/
theorem bookValue_join (price : Rat) (hjoined : held.isJoinedBy quantity = true)
    (hheld : held.isFlat = true → held.quantity = 0) (hq : quantity ≠ 0) :
    (held.join quantity price).bookValue = held.bookValue + quantity * price := by
  have hsize : |held.quantity| + |quantity| ≠ 0 :=
    (add_pos_of_nonneg_of_pos (abs_nonneg _) (abs_pos.mpr hq)).ne'
  simp only [bookValue, join, Scalar.abs_rat]
  rw [isJoinedBy, Bool.or_eq_true, Scalar.sameSign_iff] at hjoined
  rcases hjoined with hflat | hside
  · rw [hheld hflat, abs_zero] at hsize ⊢
    have hq' : |quantity| ≠ 0 := abs_ne_zero.mpr hq
    field_simp
    ring
  · -- on one side the magnitudes are the quantities, up to one sign
    by_cases hneg : held.quantity < 0
    · rw [abs_of_neg hneg, abs_of_neg (hside.mp hneg)] at hsize ⊢
      have hsum : held.quantity + quantity ≠ 0 := by
        intro hz
        apply hsize
        linarith
      field_simp
      ring
    · have hneg' : ¬ quantity < 0 := fun hn => hneg (hside.mpr hn)
      rw [abs_of_nonneg (not_lt.mp hneg), abs_of_nonneg (not_lt.mp hneg')] at hsize ⊢
      field_simp

theorem isShort_iff : held.isShort = true ↔ held.quantity < 0 := by
  rw [isShort, Scalar.isNumber_rat, Bool.not_true, Bool.or_false, Scalar.isNegative_iff]

/-- A fill against a position has the other side. -/
theorem opposite_of_not_joined (hagainst : held.isJoinedBy quantity = false) :
    ¬ (held.quantity < 0 ↔ quantity < 0) := by
  rw [isJoinedBy, Bool.or_eq_false_iff] at hagainst
  rw [← Scalar.sameSign_iff, hagainst.2]
  exact Bool.false_ne_true

/-- A fill against a position closes it, unless it is the smaller of the two. -/
theorem closedBy_eq (hagainst : held.isJoinedBy quantity = false) :
    held.closedBy quantity = if |held.quantity| < |quantity| then held.quantity else -quantity := by
  have hopposite := opposite_of_not_joined hagainst
  simp only [closedBy, isShort_iff, Scalar.abs_rat, Scalar.min_rat]
  by_cases hheld : held.quantity < 0
  · have hq : 0 ≤ quantity := not_lt.mp fun hq => hopposite (iff_of_true hheld hq)
    rw [if_pos hheld, abs_of_neg hheld, abs_of_nonneg hq]
    split
    · next hthrough => rw [min_eq_right hthrough.le, neg_neg]
    · next hwithin => rw [min_eq_left (not_lt.mp hwithin)]
  · have hq : quantity < 0 := not_le.mp fun hq => hopposite (iff_of_false hheld hq.not_gt)
    rw [if_neg hheld, abs_of_nonneg (not_lt.mp hheld), abs_of_neg hq]
    split
    · next hthrough => rw [min_eq_right hthrough.le]
    · next hwithin => rw [min_eq_left (not_lt.mp hwithin)]

/-- What a fill takes through zero is entered at its price, and what it leaves of the position is
still held at the average. -/
theorem averagePrice_reduce (price : Rat) (hagainst : held.isJoinedBy quantity = false)
    (hleft : held.quantity + quantity = 0 ∨ Scalar.tolerance ≤ |held.quantity + quantity|) :
    (held.reduce quantity price).averagePrice =
      if |held.quantity| < |quantity| then price else held.averagePrice := by
  have hopposite := opposite_of_not_joined hagainst
  have hcrossed : (decide (Scalar.tolerance ≤ Scalar.abs (held.quantity + quantity)) &&
      !Scalar.sameSign (held.quantity + quantity) held.quantity) = true ↔
        |held.quantity| < |quantity| := by
    rw [Bool.and_eq_true, decide_eq_true_iff, Scalar.abs_rat, Bool.not_eq_true',
      ← Bool.not_eq_true, Scalar.sameSign_iff]
    rcases hleft with hnone | hcounts
    · rw [hnone, abs_zero, eq_neg_of_add_eq_zero_left hnone, abs_neg]
      exact iff_of_false (fun h => h.1.not_gt Scalar.tolerance_pos) (lt_irrefl _)
    · rw [and_iff_right hcounts]
      exact Scalar.through_zero_iff hopposite (Scalar.ne_zero_of_tolerance_le hcounts)
  simp only [reduce, hcrossed]

/-- A fill against a position moves its book value by what was paid and what was gained. -/
theorem bookValue_reduce (price : Rat) (hagainst : held.isJoinedBy quantity = false)
    (hleft : held.quantity + quantity = 0 ∨ Scalar.tolerance ≤ |held.quantity + quantity|) :
    (held.reduce quantity price).bookValue =
      held.bookValue + quantity * price +
        (price - held.averagePrice) * held.closedBy quantity := by
  have hquantity : (held.reduce quantity price).quantity = held.quantity + quantity := rfl
  rw [bookValue, bookValue, hquantity, averagePrice_reduce price hagainst hleft,
    closedBy_eq hagainst]
  split <;> ring

end Position

namespace Portfolio

/-! ## What an account was entered at -/

/-- What all open positions were entered at. -/
def bookValue (p : Portfolio Rat) : Rat := (p.positions.values.map Position.bookValue).sum

/-- What all open positions would gain at their latest marks. -/
def unrealizedGain (p : Portfolio Rat) : Rat :=
  (p.holdings.map fun h => h.position.unrealizedGain).sum

/-- The capital put into the account: neither fills nor marks change it. -/
def capital (p : Portfolio Rat) : Rat := p.cash + p.bookValue - p.realizedGain + p.totalFees

/-- All open positions count. -/
def HoldsNoDust (p : Portfolio Rat) : Prop :=
  ∀ symbol quantity, p.quantity? symbol = some quantity → Scalar.tolerance ≤ |quantity|

variable {p : Portfolio Rat}

theorem totalValue_eq (p : Portfolio Rat) :
    p.totalValue = p.cash + p.bookValue + p.unrealizedGain := by
  have hsplit : p.positions.values.map Position.marketValue =
      p.positions.values.map fun held => held.bookValue + held.unrealizedGain :=
    List.map_congr_left fun held _ => held.marketValue_eq
  have hopen : p.unrealizedGain = (p.positions.values.map Position.unrealizedGain).sum := by
    rw [unrealizedGain, holdings, Table.values, List.map_map, List.map_map]
    rfl
  calc p.totalValue
      = p.cash + (p.positions.values.map Position.marketValue).sum := by
        rw [totalValue, Scalar.sum_rat]
    _ = p.cash + (p.bookValue + p.unrealizedGain) := by
        rw [hsplit, List.sum_map_add, hopen, bookValue]
    _ = p.cash + p.bookValue + p.unrealizedGain := by ring

theorem totalValue_eq_capital (p : Portfolio Rat) :
    p.totalValue = p.capital + p.realizedGain + p.unrealizedGain - p.totalFees := by
  rw [totalValue_eq, capital]
  ring

/-- A position that a fill finds too small to count is none at all. -/
theorem HoldsNoDust.quantity_of_isFlat (h : p.HoldsNoDust) (symbol : String)
    (hflat : (p.position symbol).isFlat = true) : (p.position symbol).quantity = 0 := by
  rw [Position.isFlat_iff, position_quantity, quantityHeld_eq] at hflat
  rw [position_quantity, quantityHeld_eq]
  cases hq : p.quantity? symbol with
  | none => rfl
  | some quantity =>
    rw [hq] at hflat
    exact absurd (h symbol quantity hq) (not_le.mpr hflat)

/-- Filing a position replaces what the position in its symbol adds to a sum, where nothing held
adds nothing. -/
theorem sum_hold (p : Portfolio Rat) (symbol : String) (f : Position Rat → Rat)
    (hnone : f Position.flat = 0) {held : Position Rat} (hheld : held.isFlat = true → f held = 0) :
    ((p.hold symbol held).positions.values.map f).sum + f (p.position symbol) =
      (p.positions.values.map f).sum + f held := by
  have hold_value : f (p.position symbol) = ((p.positions.get? symbol).map f).getD 0 := by
    rw [position]
    cases p.positions.get? symbol with
    | none => exact hnone
    | some held => rfl
  rw [hold_value]
  by_cases hflat : held.isFlat = true
  · rw [hheld hflat, add_zero, hold, if_pos hflat]
    exact Table.sum_erase p.positions symbol f
  · rw [hold, if_neg hflat]
    exact Table.sum_insert p.positions symbol held f

/-- Filing a position replaces what the position in its symbol was entered at. -/
theorem bookValue_hold (p : Portfolio Rat) (symbol : String) {held : Position Rat}
    (hheld : held.isFlat = true → held.quantity = 0) :
    (p.hold symbol held).bookValue + (p.position symbol).bookValue =
      p.bookValue + held.bookValue := by
  refine p.sum_hold symbol Position.bookValue (zero_mul _) ?_
  intro hflat
  rw [Position.bookValue, hheld hflat, zero_mul]

/-! ## One posting -/

/-- What an account is told: an event, or a mark for a symbol. -/
inductive Posting where
  | event (e : OrderEvent Rat)
  | mark (symbol : String) (price : Rat)

def post (p : Portfolio Rat) : Posting → Portfolio Rat
  | .event e => p.applyFill e
  | .mark symbol price => p.mark symbol price

def postAll (p : Portfolio Rat) (postings : List Posting) : Portfolio Rat :=
  postings.foldl post p

/-- The fill that a posting applies, if any. -/
def Posting.fill? : Posting → Option (OrderEvent Rat)
  | .event e => if e.isFill then some e else none
  | .mark .. => none

/-- The position that a posting leaves is none at all, or it counts. -/
def Posting.LeavesNoDust (p : Portfolio Rat) (posting : Posting) : Prop :=
  ∀ e ∈ posting.fill?, p.quantityHeld e.symbol + e.fillQuantity = 0 ∨
    Scalar.tolerance ≤ |p.quantityHeld e.symbol + e.fillQuantity|

instance (p : Portfolio Rat) (posting : Posting) : Decidable (posting.LeavesNoDust p) := by
  unfold Posting.LeavesNoDust
  infer_instance

/-- No posting leaves a position that is too small to count. -/
def LeaveNoDust (p : Portfolio Rat) : List Posting → Prop
  | [] => True
  | posting :: rest => posting.LeavesNoDust p ∧ (p.post posting).LeaveNoDust rest

instance decidableLeaveNoDust : (p : Portfolio Rat) → (postings : List Posting) →
    Decidable (p.LeaveNoDust postings)
  | _, [] => .isTrue trivial
  | p, posting :: rest =>
    have := decidableLeaveNoDust (p.post posting) rest
    inferInstanceAs (Decidable (posting.LeavesNoDust p ∧ (p.post posting).LeaveNoDust rest))

/-- What a fill takes out of the cash. -/
def costOf (e : OrderEvent Rat) : Rat := e.fillQuantity * e.fillPrice + e.fee

/-- A fill is paid for. Then it joins the position, or it closes some of it as a trade. -/
theorem applyFill_cases {e : OrderEvent Rat} (he : e.isFill = true) :
    ((p.position e.symbol).isJoinedBy e.fillQuantity = true ∧
      p.applyFill e =
        (p.pay e).hold e.symbol ((p.position e.symbol).join e.fillQuantity e.fillPrice)) ∨
    ((p.position e.symbol).isJoinedBy e.fillQuantity = false ∧
      p.applyFill e =
        ((p.pay e).hold e.symbol ((p.position e.symbol).reduce e.fillQuantity e.fillPrice)).book
          (closing (p.position e.symbol) e)) := by
  rw [applyFill, if_pos he]
  cases hjoined : (p.position e.symbol).isJoinedBy e.fillQuantity with
  | true => exact .inl ⟨rfl, if_pos hjoined⟩
  | false => exact .inr ⟨rfl, if_neg (hjoined ▸ Bool.false_ne_true)⟩

theorem cash_applyFill {e : OrderEvent Rat} (he : e.isFill = true) :
    (p.applyFill e).cash = p.cash - costOf e :=
  cash_applyFill_of_fill he

/-- A fill that leaves no dust moves capital between cash, positions and results. -/
theorem capital_applyFill {e : OrderEvent Rat} (he : e.isFill = true) (hp : p.HoldsNoDust)
    (hleft : p.quantityHeld e.symbol + e.fillQuantity = 0 ∨
      Scalar.tolerance ≤ |p.quantityHeld e.symbol + e.fillQuantity|) :
    (p.applyFill e).capital = p.capital := by
  have hflat := hp.quantity_of_isFlat e.symbol
  rw [← position_quantity] at hleft
  -- whichever way the position is left, it is left empty when it is dropped
  have hdropped : ∀ held' : Position Rat,
      held'.quantity = (p.position e.symbol).quantity + e.fillQuantity →
      held'.isFlat = true → held'.quantity = 0 := by
    intro held' hq hflat'
    rw [Position.isFlat_iff, hq] at hflat'
    rw [hq]
    exact hleft.resolve_right (not_le.mpr hflat')
  have hfill : e.fillQuantity ≠ 0 :=
    Scalar.ne_zero_of_tolerance_le (OrderEvent.isFill_iff.mp he)
  rcases applyFill_cases (p := p) he with ⟨hjoined, h⟩ | ⟨hagainst, h⟩
  · have hmoved := bookValue_hold (p.pay e) e.symbol
      (hdropped ((p.position e.symbol).join e.fillQuantity e.fillPrice) rfl)
    have hentered := Position.bookValue_join e.fillPrice hjoined hflat hfill
    rw [h]
    show p.cash - costOf e + ((p.pay e).hold e.symbol _).bookValue - p.realizedGain +
      (p.totalFees + e.fee) = p.cash + p.bookValue - p.realizedGain + p.totalFees
    change _ + (p.position e.symbol).bookValue = p.bookValue + _ at hmoved
    rw [costOf]
    linarith
  · have hmoved := bookValue_hold (p.pay e) e.symbol
      (hdropped ((p.position e.symbol).reduce e.fillQuantity e.fillPrice) rfl)
    have hentered := Position.bookValue_reduce e.fillPrice hagainst hleft
    rw [h]
    show p.cash - costOf e + ((p.pay e).hold e.symbol _).bookValue -
      (p.realizedGain + (e.fillPrice - (p.position e.symbol).averagePrice) *
        (p.position e.symbol).closedBy e.fillQuantity) +
      (p.totalFees + e.fee) = p.cash + p.bookValue - p.realizedGain + p.totalFees
    change _ + (p.position e.symbol).bookValue = p.bookValue + _ at hmoved
    rw [costOf]
    linarith

theorem capital_mark (p : Portfolio Rat) (symbol : String) (price : Rat) :
    (p.mark symbol price).capital = p.capital := by
  have hbook : (p.mark symbol price).bookValue = p.bookValue := by
    unfold bookValue mark
    rw [Table.map_values_adjust]
    exact fun _ => rfl
  unfold capital
  rw [hbook]
  rfl

theorem HoldsNoDust.applyFill (h : p.HoldsNoDust) (e : OrderEvent Rat) :
    (p.applyFill e).HoldsNoDust := by
  cases he : e.isFill with
  | false =>
    rw [applyFill_of_not_fill he]
    exact h
  | true =>
    intro symbol quantity hq
    rw [quantity?_applyFill he] at hq
    split at hq
    · -- the symbol of the fill: what it leaves is dropped unless it counts
      split at hq
      · cases hq
      · next hcounts =>
        cases hq
        rw [Scalar.negligible_iff] at hcounts
        exact not_lt.mp hcounts
    · exact h symbol quantity hq

/-- What was realised is the gain of all trades, and each of them is won or lost. -/
structure BooksTrades (p : Portfolio Rat) : Prop where
  realized : p.realizedGain = (p.trades.map ClosedTrade.gain).sum
  counted : p.wins + p.losses = p.trades.length

theorem BooksTrades.book (h : p.BooksTrades) (trade : ClosedTrade Rat) :
    (p.book trade).BooksTrades where
  realized := by
    show p.realizedGain + trade.gain = ((p.trades ++ [trade]).map ClosedTrade.gain).sum
    rw [List.map_append, List.sum_append, h.realized, List.map_singleton, List.sum_singleton]
  counted := by
    show _ = (p.trades ++ [trade]).length
    rw [List.length_append, ← h.counted]
    by_cases hwon : 0 < trade.gain
    · simp only [Portfolio.book, hwon, decide_true, if_true]
      exact Nat.add_right_comm p.wins 1 p.losses
    · simp only [Portfolio.book, hwon, decide_false, Bool.false_eq_true, if_false]
      rfl

theorem BooksTrades.applyFill (h : p.BooksTrades) (e : OrderEvent Rat) :
    (p.applyFill e).BooksTrades := by
  cases he : e.isFill with
  | false =>
    rw [applyFill_of_not_fill he]
    exact h
  | true =>
    rcases applyFill_cases (p := p) he with ⟨-, hfill⟩ | ⟨-, hfill⟩
    · rw [hfill]
      exact ⟨h.realized, h.counted⟩
    · rw [hfill]
      apply BooksTrades.book
      exact ⟨h.realized, h.counted⟩

/-! ## All postings -/

/-- What holds of an account that was opened with `start` in cash and applied the given fills. -/
structure Accounted (start : Rat) (fills : List (OrderEvent Rat)) (p : Portfolio Rat) : Prop where
  cash : p.cash = start - (fills.map costOf).sum
  capital : p.capital = start
  trades : p.BooksTrades
  noDust : p.HoldsNoDust

variable {start : Rat} {fills : List (OrderEvent Rat)}

theorem accounted_ofCash (currency : String) (start : Rat) :
    (ofCash currency start).Accounted start [] where
  cash := (sub_zero start).symm
  capital := by
    show start + 0 - 0 + 0 = start
    ring
  trades := ⟨rfl, rfl⟩
  noDust := fun _ _ h => nomatch h

theorem HoldsNoDust.mark (h : p.HoldsNoDust) (symbol : String) (price : Rat) :
    (p.mark symbol price).HoldsNoDust :=
  fun s quantity hq => h s quantity ((p.quantity?_mark symbol price s).symm.trans hq)

theorem Accounted.mark (h : p.Accounted start fills) (symbol : String) (price : Rat) :
    (p.mark symbol price).Accounted start fills where
  cash := h.cash
  capital := (capital_mark p symbol price).trans h.capital
  trades := ⟨h.trades.realized, h.trades.counted⟩
  noDust := h.noDust.mark symbol price

theorem Accounted.applyFill (h : p.Accounted start fills) {e : OrderEvent Rat}
    (he : e.isFill = true) (hleft : p.quantityHeld e.symbol + e.fillQuantity = 0 ∨
      Scalar.tolerance ≤ |p.quantityHeld e.symbol + e.fillQuantity|) :
    (p.applyFill e).Accounted start (fills ++ [e]) where
  cash := by
    rw [List.map_append, List.sum_append, ← sub_sub, ← h.cash, List.map_singleton,
      List.sum_singleton]
    exact cash_applyFill he
  capital := (capital_applyFill he h.noDust hleft).trans h.capital
  trades := h.trades.applyFill e
  noDust := h.noDust.applyFill e

/-- What marks keep, and fills that leave no dust keep with the fills so far, all postings keep that
leave no dust. -/
theorem postAll_keeps {P : Portfolio Rat → List (OrderEvent Rat) → Prop}
    (hmark : ∀ p fills symbol price, P p fills → P (p.mark symbol price) fills)
    (hfill : ∀ p fills (e : OrderEvent Rat), P p fills → e.isFill = true →
      (p.quantityHeld e.symbol + e.fillQuantity = 0 ∨
        Scalar.tolerance ≤ |p.quantityHeld e.symbol + e.fillQuantity|) →
      P (p.applyFill e) (fills ++ [e]))
    {postings : List Posting} (hclean : p.LeaveNoDust postings) (h : P p fills) :
    P (p.postAll postings) (fills ++ postings.filterMap Posting.fill?) := by
  induction postings generalizing p fills with
  | nil =>
    rw [List.filterMap_nil, List.append_nil]
    exact h
  | cons posting rest ih =>
    obtain ⟨hposting, hrest⟩ := hclean
    cases posting with
    | mark symbol price => exact ih hrest (hmark p fills symbol price h)
    | event e =>
      cases he : e.isFill with
      | false =>
        have hnone : (Posting.event e).fill? = none := by
          rw [Posting.fill?, he, if_neg Bool.false_ne_true]
        have hsame : p.post (.event e) = p := applyFill_of_not_fill he
        rw [hsame] at hrest
        rw [List.filterMap_cons_none hnone]
        show P ((p.post (.event e)).postAll rest) _
        rw [hsame]
        exact ih hrest h
      | true =>
        have hsome : (Posting.event e).fill? = some e := by rw [Posting.fill?, he, if_pos rfl]
        have hnext := ih hrest (hfill p fills e h he (hposting e hsome))
        rw [List.append_assoc] at hnext
        rw [List.filterMap_cons_some hsome]
        exact hnext

theorem postAll_accounted (h : p.Accounted start fills) {postings : List Posting}
    (hclean : p.LeaveNoDust postings) :
    (p.postAll postings).Accounted start (fills ++ postings.filterMap Posting.fill?) :=
  postAll_keeps (P := fun p fills => p.Accounted start fills)
    (fun _ _ symbol price h => h.mark symbol price) (fun _ _ _ h he hleft => h.applyFill he hleft)
    hclean h

theorem LeaveNoDust.of_append {earlier later : List Posting}
    (h : p.LeaveNoDust (earlier ++ later)) : p.LeaveNoDust earlier := by
  induction earlier generalizing p with
  | nil => trivial
  | cons posting rest ih => exact ⟨h.1, ih h.2⟩

/-- The accounting identity. After every posting to a fresh account the cash is what was paid for
the fills, the total value is the initial cash with what was realised, what is open and what was
paid in fees, what was realised is the gain of the trades, and each trade is won or lost, as long
as no fill leaves a position that is too small to count. -/
theorem postAll_identity (currency : String) (start : Rat) {postings : List Posting}
    (hclean : (ofCash currency start).LeaveNoDust postings) {earlier : List Posting}
    (hearlier : earlier <+: postings) :
    let p := (ofCash currency start).postAll earlier
    p.cash = start - ((earlier.filterMap Posting.fill?).map costOf).sum ∧
    p.totalValue = start + p.realizedGain + p.unrealizedGain - p.totalFees ∧
    p.realizedGain = (p.trades.map ClosedTrade.gain).sum ∧
    p.wins + p.losses = p.trades.length := by
  intro p
  obtain ⟨later, rfl⟩ := hearlier
  have h : p.Accounted start (earlier.filterMap Posting.fill?) :=
    postAll_accounted (accounted_ofCash currency start) hclean.of_append
  refine ⟨h.cash, ?_, h.trades.realized, h.trades.counted⟩
  rw [totalValue_eq_capital, h.capital]

/-- A position that is opened, added to, taken through zero at a gain and closed at a loss, beside
an open one, with marks and an event without a fill in between. -/
theorem postAll_identity_of_flip :
    let fill (symbol : String) (quantity price : Rat) : Posting :=
      .event ⟨1, symbol, ⟨60⟩, .filled, price, quantity, 1, none, false⟩
    let canceled : Posting := .event ⟨1, "SPY", ⟨60⟩, .canceled, 0, 0, 0, none, false⟩
    let postings := [fill "SPY" 10 100, .mark "SPY" 110, fill "SPY" 5 103, fill "QQQ" (-4) 50,
      fill "SPY" (-20) 120, canceled, .mark "SPY" 90, .mark "QQQ" 45, fill "SPY" 5 140]
    let p := (ofCash "USD" 5000).postAll postings
    (ofCash "USD" 5000).LeaveNoDust postings ∧ postings <+: postings ∧
      p.cash = 5000 - ((postings.filterMap Posting.fill?).map costOf).sum ∧
      p.totalValue = 5000 + p.realizedGain + p.unrealizedGain - p.totalFees ∧
      (p.trades.map fun t => (t.quantity, t.gain)) = [(15, 285), (-5, -100)] ∧
      (p.cash, p.totalValue, p.unrealizedGain) = (5380, 5200, 20) ∧
      (p.realizedGain, p.totalFees, p.wins, p.losses) = (185, 5, 1, 1) := by
  intro fill canceled postings p
  have hclean : (ofCash "USD" 5000).LeaveNoDust postings := by decide +kernel
  have h := postAll_identity "USD" 5000 hclean (List.prefix_refl postings)
  exact ⟨hclean, List.prefix_refl postings, h.1, h.2.1, by decide +kernel, by decide +kernel,
    by decide +kernel⟩

end Portfolio

end TradingDesk
