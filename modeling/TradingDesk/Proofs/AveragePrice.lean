import TradingDesk.Proofs.Accounting
import TradingDesk.Proofs.Interleaving
/- Proofs.AveragePrice — the average price stays within what was paid.

   The fills of a symbol alone say how much of it is held and since when: a stretch
   begins with the first fill after the quantity was zero, or with the fill that takes it
   through zero (`Stretch.fill`). Along any fills and marks an account holds what the
   stretches say, at average prices within the prices of their fills (`Traced`): a fill
   that joins a position averages its price in, one that reduces it leaves the average,
   and one that takes it through zero starts both anew.

   A trade closes a part of the position that the stretch has built up, and is entered at
   its average price, so that this lies within the same prices (`Closes`). -/
namespace TradingDesk

/-! ## Between the lowest and the highest of some prices -/

/-- The price lies between the lowest and the highest of the prices. -/
def Within (prices : List Rat) (x : Rat) : Prop :=
  ∃ low high, prices.min? = some low ∧ prices.max? = some high ∧ low ≤ x ∧ x ≤ high

namespace Within

variable {prices : List Rat} {x : Rat}

/-- It is enough to lie between two of the prices. -/
theorem iff_between :
    Within prices x ↔ (∃ low ∈ prices, low ≤ x) ∧ ∃ high ∈ prices, x ≤ high := by
  constructor
  · rintro ⟨low, high, hlow, hhigh, hx, hx'⟩
    exact ⟨⟨low, (List.min?_eq_some_iff.mp hlow).1, hx⟩,
      ⟨high, (List.max?_eq_some_iff.mp hhigh).1, hx'⟩⟩
  · rintro ⟨⟨low, hlow, hx⟩, ⟨high, hhigh, hx'⟩⟩
    obtain ⟨least, hleast⟩ := Option.isSome_iff_exists.mp (List.isSome_min?_of_mem hlow)
    obtain ⟨greatest, hgreatest⟩ := Option.isSome_iff_exists.mp (List.isSome_max?_of_mem hhigh)
    exact ⟨least, greatest, hleast, hgreatest,
      ((List.min?_eq_some_iff.mp hleast).2 low hlow).trans hx,
      hx'.trans ((List.max?_eq_some_iff.mp hgreatest).2 high hhigh)⟩

theorem of_mem (h : x ∈ prices) : Within prices x :=
  iff_between.mpr ⟨⟨x, h, le_refl x⟩, ⟨x, h, le_refl x⟩⟩

theorem append_right (h : Within prices x) (later : List Rat) : Within (prices ++ later) x := by
  obtain ⟨⟨low, hlow, hx⟩, ⟨high, hhigh, hx'⟩⟩ := iff_between.mp h
  exact iff_between.mpr ⟨⟨low, List.mem_append_left _ hlow, hx⟩,
    ⟨high, List.mem_append_left _ hhigh, hx'⟩⟩

/-- A price that is averaged in widens the prices by itself. -/
theorem average (h : Within prices x) {a b : Rat} (ha : 0 ≤ a) (hb : 0 < b) (y : Rat) :
    Within (prices ++ [y]) ((x * a + y * b) / (a + b)) := by
  have hsize : 0 < a + b := add_pos_of_nonneg_of_pos ha hb
  have hx := iff_between.mp (h.append_right [y])
  have hy : y ∈ prices ++ [y] := List.mem_append_right _ List.mem_cons_self
  -- the average lies between the two prices, on either side
  rw [iff_between]
  rcases le_total x y with hxy | hyx
  · obtain ⟨low, hlow, hlx⟩ := hx.1
    refine ⟨⟨low, hlow, hlx.trans ?_⟩, ⟨y, hy, ?_⟩⟩
    · rw [le_div_iff₀ hsize, mul_add]
      exact add_le_add_right (mul_le_mul_of_nonneg_right hxy hb.le) _
    · rw [div_le_iff₀ hsize, mul_add]
      exact add_le_add_left (mul_le_mul_of_nonneg_right hxy ha) _
  · obtain ⟨high, hhigh, hxh⟩ := hx.2
    refine ⟨⟨y, hy, ?_⟩, ⟨high, hhigh, le_trans ?_ hxh⟩⟩
    · rw [le_div_iff₀ hsize, mul_add]
      exact add_le_add_left (mul_le_mul_of_nonneg_right hyx ha) _
    · rw [div_le_iff₀ hsize, mul_add]
      exact add_le_add_right (mul_le_mul_of_nonneg_right hyx hb.le) _

end Within

/-- Two quantities are on different sides of zero if their product is negative. -/
theorem Scalar.mul_neg_iff_sides {x y : Rat} (hx : x ≠ 0) (hy : y ≠ 0) :
    x * y < 0 ↔ ¬ (y < 0 ↔ x < 0) := by
  rw [mul_neg_iff]
  rcases lt_or_gt_of_ne hx with hx | hx <;> rcases lt_or_gt_of_ne hy with hy | hy <;>
    simp [hx, hy, hx.not_gt, hy.not_gt]

/-! ## Stretches -/

/-- What the fills of a symbol say of its position: the quantity, and the prices of the fills since
it was last zero. -/
structure Stretch where
  quantity : Rat
  prices : List Rat

namespace Stretch

def none : Stretch := ⟨0, []⟩

/-- One more fill. Where the quantity is zero after it nothing is left of the stretch, and where the
quantity goes through zero the fill is the first of another one. -/
def fill (x : Stretch) (e : OrderEvent Rat) : Stretch where
  quantity := x.quantity + e.fillQuantity
  prices :=
    if x.quantity + e.fillQuantity = 0 then []
    else if x.quantity * (x.quantity + e.fillQuantity) < 0 then [e.fillPrice]
    else x.prices ++ [e.fillPrice]

/-- What the fills in a list say of the position in a symbol. -/
def of (fills : List (OrderEvent Rat)) (symbol : String) : Stretch :=
  (ofKey OrderEvent.symbol symbol fills).foldl fill none

variable {fills : List (OrderEvent Rat)} {e : OrderEvent Rat} {x : Stretch}

theorem of_append_self : of (fills ++ [e]) e.symbol = (of fills e.symbol).fill e := by
  rw [of, ofKey_append, ofKey_cons_self, List.foldl_append]
  rfl

theorem of_append_of_ne {symbol : String} (h : symbol ≠ e.symbol) :
    of (fills ++ [e]) symbol = of fills symbol := by
  rw [of, ofKey_append, ofKey_cons_of_ne h.symm]
  exact congrArg (List.foldl fill none) (List.append_nil _)

/-- A fill on the side of the position carries the stretch on. -/
theorem fill_prices_of_joined (hfill : e.fillQuantity ≠ 0)
    (hside : x.quantity = 0 ∨ (x.quantity < 0 ↔ e.fillQuantity < 0)) :
    (x.fill e).prices = x.prices ++ [e.fillPrice] := by
  have hwithin : x.quantity + e.fillQuantity ≠ 0 ∧
      ¬ x.quantity * (x.quantity + e.fillQuantity) < 0 := by
    rcases hside with hzero | hside
    · rw [hzero, zero_add, zero_mul]
      exact ⟨hfill, lt_irrefl 0⟩
    · rcases lt_or_gt_of_ne hfill with hneg | hpos
      · have hq := hside.mpr hneg
        exact ⟨(add_neg hq hneg).ne, (mul_pos_of_neg_of_neg hq (add_neg hq hneg)).not_gt⟩
      · have hq : 0 ≤ x.quantity := not_lt.mp fun hq => (hside.mp hq).not_gt hpos
        have hafter := add_pos_of_nonneg_of_pos hq hpos
        exact ⟨hafter.ne', (mul_nonneg hq hafter.le).not_gt⟩
  rw [fill]
  simp only [if_neg hwithin.1, if_neg hwithin.2]

/-- A fill against the position begins another stretch if it is the larger of the two. -/
theorem fill_prices_of_against (hq : x.quantity ≠ 0) (hleft : x.quantity + e.fillQuantity ≠ 0)
    (hopposite : ¬ (x.quantity < 0 ↔ e.fillQuantity < 0)) :
    (x.fill e).prices = if |x.quantity| < |e.fillQuantity| then [e.fillPrice]
      else x.prices ++ [e.fillPrice] := by
  rw [fill]
  simp only [if_neg hleft, Scalar.mul_neg_iff_sides hq hleft,
    Scalar.through_zero_iff hopposite hleft]

end Stretch

namespace Position

variable {held : Position Rat} {quantity : Rat}

theorem quantity_ne_zero (h : held.isFlat = false) : held.quantity ≠ 0 := by
  intro hz
  rw [← Bool.not_eq_true, isFlat_iff, hz, abs_zero] at h
  exact h Scalar.tolerance_pos

/-- A fill against a position closes a part of it, no more than the fill. -/
theorem closedBy_part (hagainst : held.isJoinedBy quantity = false) (hfill : quantity ≠ 0) :
    PartOf (held.closedBy quantity) held.quantity ∧ held.closedBy quantity ≠ 0 ∧
      |held.closedBy quantity| ≤ |quantity| := by
  have hopposite := opposite_of_not_joined hagainst
  have hheld := quantity_ne_zero (Bool.or_eq_false_iff.mp hagainst).1
  rw [closedBy_eq hagainst]
  split
  · next hthrough => exact ⟨.refl _, hheld, hthrough.le⟩
  · next hwithin =>
    have hside : held.quantity < 0 ↔ -quantity < 0 := by
      rw [neg_lt_zero]
      constructor
      · intro hneg
        exact (lt_or_gt_of_ne hfill).resolve_left fun hq => hopposite (iff_of_true hneg hq)
      · intro hpos
        by_contra hneg
        exact hopposite (iff_of_false hneg hpos.not_gt)
    refine ⟨(PartOf.refl _).resize hside ?_, neg_ne_zero.mpr hfill, (abs_neg _).le⟩
    rw [abs_neg]
    exact not_lt.mp hwithin

end Position

namespace Portfolio

/-! ## Positions and their stretches -/

/-- What holds of an account that was opened empty and applied the given fills. -/
structure Traced (p : Portfolio Rat) (fills : List (OrderEvent Rat)) : Prop where
  holds : p.Holds fun symbol => (Stretch.of fills symbol).quantity
  noDust : p.HoldsNoDust
  within : ∀ symbol held, p.positions.get? symbol = some held →
    Within (Stretch.of fills symbol).prices held.averagePrice

variable {p : Portfolio Rat} {fills : List (OrderEvent Rat)} {e : OrderEvent Rat}

theorem traced_ofCash (currency : String) (cash : Rat) : (ofCash currency cash).Traced [] where
  holds := holds_ofCash currency cash
  noDust := fun _ _ h => nomatch h
  within := fun _ _ h => nomatch h

namespace Traced

theorem quantity (h : p.Traced fills) (symbol : String) :
    (p.position symbol).quantity = (Stretch.of fills symbol).quantity :=
  (p.position_quantity symbol).trans (h.holds.quantityHeld symbol)

/-- A position that counts is a stored one. -/
theorem within_position (h : p.Traced fills) {symbol : String}
    (hcounts : (p.position symbol).isFlat = false) :
    Within (Stretch.of fills symbol).prices (p.position symbol).averagePrice := by
  rw [position] at hcounts ⊢
  cases hs : p.positions.get? symbol with
  | none =>
    rw [hs] at hcounts
    exact absurd hcounts (by decide +kernel)
  | some held => exact h.within symbol held hs

/-- A fill that joins a position leaves its average within the prices of the stretch. -/
theorem within_join (h : p.Traced fills) (he : e.isFill = true)
    (hjoined : (p.position e.symbol).isJoinedBy e.fillQuantity = true) :
    Within ((Stretch.of fills e.symbol).fill e).prices
      ((p.position e.symbol).join e.fillQuantity e.fillPrice).averagePrice := by
  have hfill : e.fillQuantity ≠ 0 :=
    Scalar.ne_zero_of_tolerance_le (OrderEvent.isFill_iff.mp he)
  have hsize : 0 < |e.fillQuantity| := abs_pos.mpr hfill
  simp only [Position.join, Scalar.abs_rat]
  rw [Position.isJoinedBy, Bool.or_eq_true, Scalar.sameSign_iff] at hjoined
  cases hflat : (p.position e.symbol).isFlat with
  | true =>
    -- there was no position, so its average is not counted
    have hzero := h.noDust.quantity_of_isFlat e.symbol hflat
    rw [Stretch.fill_prices_of_joined hfill (.inl ((h.quantity e.symbol).symm.trans hzero)), hzero,
      abs_zero, mul_zero, zero_add, zero_add, mul_div_cancel_right₀ _ hsize.ne']
    exact .of_mem (List.mem_append_right _ List.mem_cons_self)
  | false =>
    have hside := hjoined.resolve_left (hflat ▸ Bool.false_ne_true)
    rw [h.quantity] at hside ⊢
    rw [Stretch.fill_prices_of_joined hfill (.inr hside)]
    exact (h.within_position hflat).average (abs_nonneg _) hsize e.fillPrice

/-- So does a fill against a position that leaves something to hold. -/
theorem within_reduce (h : p.Traced fills)
    (hagainst : (p.position e.symbol).isJoinedBy e.fillQuantity = false)
    (hleft : Scalar.tolerance ≤ |(p.position e.symbol).quantity + e.fillQuantity|) :
    Within ((Stretch.of fills e.symbol).fill e).prices
      ((p.position e.symbol).reduce e.fillQuantity e.fillPrice).averagePrice := by
  have hopposite := Position.opposite_of_not_joined hagainst
  have hcounts := (Bool.or_eq_false_iff.mp hagainst).1
  have hq := Position.quantity_ne_zero hcounts
  have hne := Scalar.ne_zero_of_tolerance_le hleft
  rw [Position.averagePrice_reduce e.fillPrice hagainst (.inr hleft)]
  rw [h.quantity] at hq hne hopposite ⊢
  rw [Stretch.fill_prices_of_against hq hne hopposite]
  split
  · exact .of_mem List.mem_cons_self
  · exact (h.within_position hcounts).append_right _

/-- Filing a position that is within the prices of its stretch leaves all positions so. -/
theorem within_hold (h : p.Traced fills) {after : Position Rat}
    (hafter : after.isFlat = false →
      Within ((Stretch.of fills e.symbol).fill e).prices after.averagePrice)
    {symbol : String} {held : Position Rat}
    (hs : (p.hold e.symbol after).positions.get? symbol = some held) :
    Within (Stretch.of (fills ++ [e]) symbol).prices held.averagePrice := by
  rw [get?_hold] at hs
  by_cases hsymbol : symbol = e.symbol
  · rw [if_pos hsymbol] at hs
    rw [hsymbol, Stretch.of_append_self]
    cases hflat : after.isFlat with
    | true =>
      rw [hflat] at hs
      cases hs
    | false =>
      rw [hflat] at hs
      cases hs
      exact hafter hflat
  · rw [if_neg hsymbol] at hs
    rw [Stretch.of_append_of_ne hsymbol]
    exact h.within symbol held hs

/-- A fill that leaves no dust is traced. -/
theorem applyFill (h : p.Traced fills) (he : e.isFill = true)
    (hleft : p.quantityHeld e.symbol + e.fillQuantity = 0 ∨
      Scalar.tolerance ≤ |p.quantityHeld e.symbol + e.fillQuantity|) :
    (p.applyFill e).Traced (fills ++ [e]) := by
  have hnet : ∀ s, (Stretch.of (fills ++ [e]) s).quantity =
      (Stretch.of fills s).quantity + if s = e.symbol then e.fillQuantity else 0 := by
    intro s
    by_cases hs : s = e.symbol
    · rw [hs, if_pos rfl, Stretch.of_append_self, Stretch.fill]
    · rw [if_neg hs, add_zero, Stretch.of_append_of_ne hs]
  refine ⟨h.holds.applyFill he hnet ?_, h.noDust.applyFill e, ?_⟩
  · rw [hnet, if_pos rfl, ← h.holds.quantityHeld]
    exact hleft
  · intro symbol held hs
    -- neither paying for the fill nor booking a trade touches a position
    rcases applyFill_cases (p := p) he with ⟨hjoined, happly⟩ | ⟨hagainst, happly⟩
    · rw [happly] at hs
      exact h.within_hold (fun _ => h.within_join he hjoined) hs
    · rw [happly] at hs
      refine h.within_hold (fun hcounts => h.within_reduce hagainst ?_) hs
      rw [← Bool.not_eq_true, Position.isFlat_iff] at hcounts
      exact not_lt.mp hcounts

theorem mark (h : p.Traced fills) (symbol : String) (price : Rat) :
    (p.mark symbol price).Traced fills where
  holds := h.holds.mark symbol price
  noDust := h.noDust.mark symbol price
  within s held hs := by
    rw [Portfolio.mark] at hs
    by_cases hsymbol : s = symbol
    · subst hsymbol
      rw [Table.get?_adjust_self] at hs
      obtain ⟨before, hbefore, rfl⟩ := Option.map_eq_some_iff.mp hs
      exact h.within s before hbefore
    · rw [Table.get?_adjust_of_ne _ _ hsymbol] at hs
      exact h.within s held hs

end Traced

theorem postAll_traced (currency : String) (start : Rat) {postings : List Posting}
    (hclean : (ofCash currency start).LeaveNoDust postings) :
    ((ofCash currency start).postAll postings).Traced (postings.filterMap Posting.fill?) :=
  postAll_keeps (P := Traced) (fun _ _ symbol price h => h.mark symbol price)
    (fun _ _ _ h he hleft => h.applyFill he hleft) hclean (traced_ofCash currency start)

/-! ## Trades and their stretches -/

/-- An event adds no trade, or it is a fill against a position and adds the one it closes. -/
theorem trades_applyFill (p : Portfolio Rat) (e : OrderEvent Rat) :
    (p.applyFill e).trades = p.trades ∨
      e.isFill = true ∧ (p.position e.symbol).isJoinedBy e.fillQuantity = false ∧
        (p.applyFill e).trades = p.trades ++ [closing (p.position e.symbol) e] := by
  cases he : e.isFill with
  | false => exact .inl (by rw [applyFill_of_not_fill he])
  | true =>
    rcases applyFill_cases (p := p) he with ⟨-, happly⟩ | ⟨hagainst, happly⟩
    · exact .inl (by rw [happly]; rfl)
    · exact .inr ⟨rfl, hagainst, by rw [happly]; rfl⟩

/-- A fill books a trade with an account. The trade is entered within the prices of the stretch so
far, it has the side of the position, and neither the position nor the fill is smaller. -/
structure Closes (before : Portfolio Rat) (x : Stretch) (e : OrderEvent Rat)
    (trade : ClosedTrade Rat) : Prop where
  booked : (before.applyFill e).trades = before.trades ++ [trade]
  symbol : trade.symbol = e.symbol
  entry : Within x.prices trade.entryPrice
  counts : trade.quantity ≠ 0
  side : SignType.sign trade.quantity = SignType.sign (before.quantityHeld e.symbol)
  within_position : |trade.quantity| ≤ |before.quantityHeld e.symbol|
  within_fill : |trade.quantity| ≤ |e.fillQuantity|

theorem Traced.closes (h : p.Traced fills) {trade : ClosedTrade Rat}
    (hbooked : (p.applyFill e).trades = p.trades ++ [trade]) :
    p.Closes (Stretch.of fills e.symbol) e trade := by
  obtain hsame | ⟨he, hagainst, hclosing⟩ := p.trades_applyFill e
  · rw [hsame, List.self_eq_append_right] at hbooked
    cases hbooked
  · have hfill : e.fillQuantity ≠ 0 :=
      Scalar.ne_zero_of_tolerance_le (OrderEvent.isFill_iff.mp he)
    obtain rfl : closing (p.position e.symbol) e = trade :=
      List.singleton_injective (List.append_cancel_left (hclosing.symm.trans hbooked))
    obtain ⟨hpart, hne, hsize⟩ := Position.closedBy_part hagainst hfill
    rw [position_quantity] at hpart
    exact ⟨hbooked, rfl, h.within_position (Bool.or_eq_false_iff.mp hagainst).1, hne,
      hpart.sign_eq hne, hpart.abs_le, hsize⟩

/-- Every trade was booked by one of the fills. -/
theorem exists_booking {postings : List Posting} {trade : ClosedTrade Rat}
    (h : trade ∈ (p.postAll postings).trades) :
    trade ∈ p.trades ∨ ∃ earlier e later, postings = earlier ++ .event e :: later ∧
      ((p.postAll earlier).applyFill e).trades = (p.postAll earlier).trades ++ [trade] := by
  induction postings generalizing p with
  | nil => exact .inl h
  | cons posting rest ih =>
    obtain hbefore | ⟨earlier, e, later, rfl, hbooked⟩ := ih h
    · cases posting with
      | mark symbol price => exact .inl hbefore
      | event e =>
        obtain hsame | ⟨-, -, hbooked⟩ := p.trades_applyFill e
        · rw [show (p.post (.event e)).trades = p.trades from hsame] at hbefore
          exact .inl hbefore
        · rw [show (p.post (.event e)).trades = _ from hbooked, List.mem_append,
            List.mem_singleton] at hbefore
          refine hbefore.imp_right ?_
          rintro rfl
          exact ⟨[], e, rest, rfl, hbooked⟩
    · exact .inr ⟨posting :: earlier, e, later, rfl, hbooked⟩

/-- The average price stays within what was paid. After any fills and marks to a fresh account, none
of which leaves a position that is too small to count, the average price of each open position lies
between the lowest and the highest price of the fills of its symbol since it was last flat. Every
trade was booked by a fill against a position and entered within the prices of its stretch so far.
It has the side of the position, and the size of neither the position nor the fill is exceeded. -/
theorem postAll_average (currency : String) (start : Rat) {postings : List Posting}
    (hclean : (ofCash currency start).LeaveNoDust postings) :
    let opened := ofCash currency start
    let p := opened.postAll postings
    let fills := postings.filterMap Posting.fill?
    (∀ h ∈ p.holdings, h.position.quantity = (Stretch.of fills h.symbol).quantity ∧
      Within (Stretch.of fills h.symbol).prices h.position.averagePrice) ∧
    ∀ trade ∈ p.trades, ∃ earlier e later, postings = earlier ++ .event e :: later ∧
      (opened.postAll earlier).Closes (Stretch.of (earlier.filterMap Posting.fill?) e.symbol) e
        trade := by
  intro opened p fills
  have htraced : p.Traced fills := postAll_traced currency start hclean
  constructor
  · intro h hh
    obtain ⟨entry, hentry, rfl⟩ := List.mem_map.mp hh
    have hs : p.positions.get? entry.1 = some entry.2 := Table.get?_of_mem hentry
    have hq := htraced.quantity entry.1
    rw [position, hs] at hq
    exact ⟨hq, htraced.within entry.1 entry.2 hs⟩
  · intro trade htrade
    obtain hnone | ⟨earlier, e, later, rfl, hbooked⟩ := exists_booking htrade
    · cases hnone
    · have hbefore := postAll_traced currency start hclean.of_append
      exact ⟨earlier, e, later, rfl, hbefore.closes hbooked⟩

/-- A position that is built up, reduced, taken through zero, added to and reduced again, beside one
that is opened anew after it was closed, with marks in between. -/
theorem postAll_average_of_flip :
    let fill (symbol : String) (quantity price : Rat) : Posting :=
      .event ⟨1, symbol, ⟨60⟩, .filled, price, quantity, 1, none, false⟩
    let postings := [fill "SPY" 10 100, fill "QQQ" 2 70, fill "SPY" 10 110, .mark "SPY" 130,
      fill "SPY" (-5) 120, fill "QQQ" (-2) 75, fill "SPY" (-25) 90, fill "SPY" (-10) 96,
      .mark "SPY" 80, fill "QQQ" 1 50, fill "SPY" 5 99]
    let opened := ofCash "USD" 5000
    let p := opened.postAll postings
    let fills := postings.filterMap Posting.fill?
    opened.LeaveNoDust postings ∧
      p.holdings = [⟨"QQQ", ⟨1, 50, 50⟩⟩, ⟨"SPY", ⟨-15, 93, 99⟩⟩] ∧
      (Stretch.of fills "SPY").prices = [90, 96, 99] ∧ (Stretch.of fills "QQQ").prices = [50] ∧
      (p.trades.map fun t => (t.quantity, t.entryPrice)) =
        [(5, 105), (2, 70), (15, 105), (-5, 93)] ∧
      (∀ h ∈ p.holdings, Within (Stretch.of fills h.symbol).prices h.position.averagePrice) ∧
      ∀ trade ∈ p.trades, ∃ earlier e later, postings = earlier ++ .event e :: later ∧
        (opened.postAll earlier).Closes (Stretch.of (earlier.filterMap Posting.fill?) e.symbol) e
          trade := by
  intro fill postings opened p fills
  have hclean : opened.LeaveNoDust postings := by decide +kernel
  obtain ⟨hheld, htrades⟩ := postAll_average "USD" 5000 hclean
  exact ⟨hclean, by decide +kernel, by decide +kernel, by decide +kernel, by decide +kernel,
    fun h hh => (hheld h hh).2, htrades⟩

end Portfolio

end TradingDesk
