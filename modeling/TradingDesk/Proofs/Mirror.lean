import TradingDesk.Proofs.FillPrice
import TradingDesk.Proofs.FillStage
import TradingDesk.Proofs.Floating
/- Proofs.Mirror — a sale is a purchase in the mirror.

   The mirror negates quantities and prices and swaps the high of a bar with its low. What
   the rules compare and take the better of for one side they do for the other the other
   way round, so prices come out negated (`limitCross?_mirror` and those after it) and so do
   the quantities that the volume leaves (`fillQuantity_mirror`), drawn from the same
   allowance. This rests on a few laws of negation that exact and rounded arithmetic share
   (`Scalar.MirrorLaws`). Rounded sums lose the sign of a zero, so two results are each
   other's mirror image when they are both zero as well. -/
namespace TradingDesk

/-! ## Numbers -/

namespace Scalar

variable {α : Type} [Scalar α]

/-- The second is the first negated. The sign of a zero does not matter. -/
def Mirrored (x y : α) : Prop := y = -x ∨ isZero x = true ∧ isZero y = true

variable (α) in
/-- What negation does to the order, to magnitudes and to sums. -/
structure MirrorLaws : Prop where
  neg_neg : ∀ x : α, - -x = x
  neg_le_neg : ∀ x y : α, -x ≤ -y ↔ y ≤ x
  neg_pos : ∀ x : α, 0 < -x ↔ x < 0
  lt_asymm : ∀ x y : α, x < y → ¬ y < x
  abs_neg : ∀ x : α, abs (-x) = abs x
  isNegative_neg : ∀ x : α, isNumber x = true → isZero x = false →
    isNegative (-x) = !isNegative x
  add : ∀ x y : α, Mirrored (x + y) (-x - y)
  sub : ∀ x y : α, Mirrored (x - y) (-x - -y)
  zero_le : (0 : α) ≤ 0
  isNegative_zero : isNegative (0 : α) = false
  lt_tolerance : ∀ x : α, x ≤ 0 → x < tolerance
  negligible_of_isZero : ∀ x : α, isZero x = true → negligible x = true

theorem mirrorLaws_rat : MirrorLaws Rat where
  neg_neg := neg_neg
  neg_le_neg _ _ := neg_le_neg_iff
  neg_pos _ := neg_pos
  lt_asymm _ _ := lt_asymm
  abs_neg x := by rw [abs_rat, abs_rat, abs_neg]
  isNegative_neg x _ hx := by
    have hne : x ≠ 0 := by
      rintro rfl
      cases hx
    show decide (-x < 0) = !decide (x < 0)
    rw [← decide_not, decide_eq_decide, neg_lt_zero, not_lt]
    exact ⟨le_of_lt, fun h => lt_of_le_of_ne h hne.symm⟩
  add x y := .inl (neg_add' x y).symm
  sub x y := .inl (by ring)
  zero_le := le_refl 0
  isNegative_zero := rfl
  lt_tolerance _ h := h.trans_lt tolerance_pos
  negligible_of_isZero x hx := by
    obtain ⟨hle, hge⟩ := (Bool.and_eq_true _ _).mp hx
    rw [le_antisymm (of_decide_eq_true hle) (of_decide_eq_true hge), negligible_iff, abs_zero]
    exact tolerance_pos

open Floating in
/-- A sum that is put together from parts, and the one from their negations. -/
theorem mirrored_of_parts {f g : Float.Model.UnpackedFloat}
    (h : g = f.neg ∨ (∃ s, f = .zero s) ∧ ∃ s, g = .zero s) :
    Mirrored (ofParts f) (ofParts g) := by
  rcases h with rfl | ⟨⟨s, rfl⟩, t, rfl⟩
  · exact .inl (ofParts_neg f)
  · exact .inr ⟨isZero_ofParts_zero s, isZero_ofParts_zero t⟩

theorem mirrorLaws_float : MirrorLaws Float where
  neg_neg := Floating.neg_neg
  neg_le_neg _ _ := Floating.neg_le_neg_iff
  neg_pos _ := Floating.neg_pos_iff
  lt_asymm _ _ := Floating.lt_asymm
  abs_neg := Floating.abs_neg
  isNegative_neg _ hx _ := Floating.isNegative_neg hx
  add x y := by
    rw [Floating.add_eq, Floating.sub_eq, Floating.parts_neg, Floating.sub_eq_add_neg]
    exact mirrored_of_parts (Floating.add_neg _ _ _)
  sub x y := by
    rw [Floating.sub_eq, Floating.sub_eq, Floating.parts_neg, Floating.parts_neg,
      Floating.sub_eq_add_neg, Floating.sub_eq_add_neg]
    exact mirrored_of_parts (Floating.add_neg _ _ _)
  zero_le := by decide +kernel
  isNegative_zero := by decide +kernel
  lt_tolerance _ := Floating.lt_tolerance
  negligible_of_isZero _ := Floating.negligible_of_isZero

variable {x y z : α}

theorem isZero_zero (laws : MirrorLaws α) : isZero (0 : α) = true := by
  rw [isZero, decide_eq_true laws.zero_le]
  rfl

theorem negligible_zero (laws : MirrorLaws α) : negligible (0 : α) = true :=
  laws.negligible_of_isZero 0 (isZero_zero laws)

theorem negligible_neg (laws : MirrorLaws α) (x : α) : negligible (-x) = negligible x := by
  rw [negligible, negligible, laws.abs_neg]

namespace Mirrored

theorem neg (x : α) : Mirrored x (-x) := .inl rfl

theorem symm (laws : MirrorLaws α) (h : Mirrored x y) : Mirrored y x := by
  rcases h with rfl | ⟨hx, hy⟩
  · exact .inl (laws.neg_neg x).symm
  · exact .inr ⟨hy, hx⟩

theorem zero (laws : MirrorLaws α) : Mirrored (0 : α) 0 :=
  .inr ⟨isZero_zero laws, isZero_zero laws⟩

theorem negligible_eq (laws : MirrorLaws α) (h : Mirrored x y) : negligible y = negligible x := by
  rcases h with rfl | ⟨hx, hy⟩
  · exact negligible_neg laws x
  · rw [laws.negligible_of_isZero x hx, laws.negligible_of_isZero y hy]

/-- What counts is negated. -/
theorem eq_neg (laws : MirrorLaws α) (h : Mirrored x y) (hx : negligible x = false) : y = -x := by
  rcases h with h | ⟨hzero, -⟩
  · exact h
  · rw [laws.negligible_of_isZero x hzero] at hx
    cases hx

end Mirrored

theorem isNumber_neg (laws : MirrorLaws α) (x : α) : isNumber (-x) = isNumber x :=
  decide_eq_decide.mpr (laws.neg_le_neg x x)

theorem max_neg (laws : MirrorLaws α) (x y : α) : max (-x) (-y) = -min x y := by
  simp only [max, min, laws.neg_le_neg, isNumber_neg laws]
  split
  · rfl
  · split <;> rfl

theorem min_neg (laws : MirrorLaws α) (x y : α) : min (-x) (-y) = -max x y := by
  simp only [max, min, laws.neg_le_neg, isNumber_neg laws]
  split
  · rfl
  · split <;> rfl

theorem abs_zero (laws : MirrorLaws α) : abs (0 : α) = 0 := by
  rw [abs, laws.isNegative_zero, if_neg Bool.false_ne_true]

end Scalar

/-! ## Bars and orders -/

section

variable {α : Type} [Scalar α]

/-- The bar with its prices negated: its low is the mirror image of the high. -/
def Bar.mirror (b : Bar α) : Bar α :=
  { b with opening := -b.opening, high := -b.low, low := -b.high, close := -b.close }

/-- The snapshot with its last price and its bar mirrored. -/
def Snapshot.mirror (s : Snapshot α) : Snapshot α :=
  { s with lastPrice := -s.lastPrice, bar := s.bar.map Bar.mirror }

def OrderKind.mirror : OrderKind α → OrderKind α
  | limit price => limit (-price)
  | stopMarket stop => stopMarket (-stop)
  | stopLimit stop price triggered => stopLimit (-stop) (-price) triggered
  | kind => kind

/-- The order on the other side: it names the negated prices and is as far along. -/
def Order.mirror (o : Order α) : Order α :=
  { o with quantity := -o.quantity, filled := -o.filled, kind := o.kind.mirror }

/-- Whether an order of the kind names its price. -/
def OrderKind.isPriced (kind : OrderKind α) : Bool := (kind.limitPrice?.or kind.stopPrice?).isSome

theorem OrderKind.mirror_trigger (kind : OrderKind α) (reached : Bool) :
    (kind.trigger reached).mirror = kind.mirror.trigger reached := by
  cases kind <;> rfl

/-- The order is on a side, and what is left of it is a number. -/
structure Order.Sided (o : Order α) : Prop where
  side : o.quantity < 0 ∨ 0 < o.quantity
  left : Scalar.isNumber (o.quantity - o.filled) = true

/-- In exact arithmetic any quantity but zero puts an order on a side. -/
theorem Order.sided_of_ne_zero {o : Order Rat} (h : o.quantity ≠ 0) : o.Sided :=
  ⟨lt_or_gt_of_ne h, Scalar.isNumber_rat _⟩

/-- In floating point any finite quantity does, however much of it is filled. -/
theorem Order.sided_of_isFinite {o : Order Float} (h : o.quantity < 0 ∨ 0 < o.quantity)
    (hquantity : Scalar.isFinite o.quantity = true) (hfilled : Scalar.isFinite o.filled = true) :
    o.Sided :=
  ⟨h, Floating.isNumber_sub hquantity hfilled⟩

variable {security : Snapshot α} {bar : Bar α} {order : Order α}

theorem Order.isBuy_mirror (laws : Scalar.MirrorLaws α) (h : order.Sided) :
    order.mirror.isBuy = !order.isBuy := by
  have hmirror : order.mirror.isBuy = true ↔ order.quantity < 0 :=
    isBuy_iff.trans (laws.neg_pos _)
  rcases h.side with hsale | hbuy
  · have hsell : ¬ order.isBuy = true := mt isBuy_iff.mp (laws.lt_asymm _ _ hsale)
    rw [hmirror.mpr hsale, (Bool.not_eq_true _).mp hsell]
    rfl
  · have hsell : ¬ order.mirror.isBuy = true := mt hmirror.mp (laws.lt_asymm _ _ hbuy)
    rw [isBuy_of_pos hbuy, (Bool.not_eq_true _).mp hsell]
    rfl

/-- What is left of an order is negated in the mirror; what does not count is none in both. -/
theorem Order.remaining_mirror (laws : Scalar.MirrorLaws α) (order : Order α) :
    order.remaining = 0 ∧ order.mirror.remaining = 0 ∨
      order.remaining = order.quantity - order.filled ∧
        Scalar.negligible order.remaining = false ∧ order.mirror.remaining = -order.remaining := by
  have hleft : Scalar.Mirrored (order.quantity - order.filled) (-order.quantity - -order.filled) :=
    laws.sub _ _
  have hsame := hleft.negligible_eq laws
  cases hnone : Scalar.negligible (order.quantity - order.filled) with
  | true =>
    rw [hnone] at hsame
    simp only [remaining, mirror, hsame, hnone, if_true]
    exact .inl ⟨trivial, trivial⟩
  | false =>
    rw [hnone] at hsame
    simp only [remaining, mirror, hsame, hnone, Bool.false_eq_true, if_false]
    exact .inr ⟨trivial, trivial, hleft.eq_neg laws hnone⟩

/-! ## Prices -/

namespace Snapshot

theorem bar_mirror (hbar : security.bar = some bar) : security.mirror.bar = some bar.mirror := by
  rw [mirror, hbar]
  rfl

theorem limitCross?_mirror (laws : Scalar.MirrorLaws α) (hbar : security.bar = some bar)
    (isBuy : Bool) (price : α) :
    security.mirror.limitCross? (!isBuy) (-price) =
      (security.limitCross? isBuy price).map fun cross => -cross := by
  cases isBuy with
  | true =>
    simp only [limitCross?, range_of_bar hbar, range_of_bar (bar_mirror hbar), Bar.mirror,
      Bool.not_true, Bool.false_eq_true, if_false, if_true, laws.neg_le_neg, Scalar.max_neg laws]
    split <;> rfl
  | false =>
    simp only [limitCross?, range_of_bar hbar, range_of_bar (bar_mirror hbar), Bar.mirror,
      Bool.not_false, Bool.false_eq_true, if_false, if_true, laws.neg_le_neg, Scalar.min_neg laws]
    split <;> rfl

theorem reachesStop_mirror (laws : Scalar.MirrorLaws α) (hbar : security.bar = some bar)
    (isBuy : Bool) (stop : α) :
    security.mirror.reachesStop (!isBuy) (-stop) = security.reachesStop isBuy stop := by
  cases isBuy with
  | true =>
    simp only [reachesStop, range_of_bar hbar, range_of_bar (bar_mirror hbar), Bar.mirror,
      Bool.not_true, Bool.false_eq_true, if_false, if_true, laws.neg_le_neg]
  | false =>
    simp only [reachesStop, range_of_bar hbar, range_of_bar (bar_mirror hbar), Bar.mirror,
      Bool.not_false, Bool.false_eq_true, if_false, if_true, laws.neg_le_neg]

theorem stopCross_mirror (laws : Scalar.MirrorLaws α) (hbar : security.bar = some bar)
    (isBuy : Bool) (stop : α) :
    security.mirror.stopCross (!isBuy) (-stop) = -security.stopCross isBuy stop := by
  cases isBuy with
  | true =>
    simp only [stopCross, range_of_bar hbar, range_of_bar (bar_mirror hbar), Bar.mirror,
      Bool.not_true, Bool.false_eq_true, if_false, if_true, Scalar.min_neg laws]
  | false =>
    simp only [stopCross, range_of_bar hbar, range_of_bar (bar_mirror hbar), Bar.mirror,
      Bool.not_false, Bool.false_eq_true, if_false, if_true, Scalar.max_neg laws]

end Snapshot

theorem withinLimit_mirror (laws : Scalar.MirrorLaws α) (isBuy : Bool) (price limit : α) :
    withinLimit (!isBuy) (-price) (-limit) = withinLimit isBuy price limit := by
  cases isBuy with
  | true => exact decide_eq_decide.mpr (laws.neg_le_neg _ _)
  | false => exact decide_eq_decide.mpr (laws.neg_le_neg _ _)

namespace FillConfig

variable {c : FillConfig α}

/-- Slippage moves both sides away from the order. -/
theorem slipped_mirror (laws : Scalar.MirrorLaws α) (isBuy : Bool) (price : α) :
    Scalar.Mirrored (c.slipped isBuy price) (c.slipped (!isBuy) (-price)) := by
  cases isBuy with
  | true => exact laws.add price c.slippage
  | false =>
    have hadd := laws.add (-price) c.slippage
    rw [laws.neg_neg] at hadd
    exact hadd.symm laws

theorem triggerPrice?_mirror (laws : Scalar.MirrorLaws α) (hbar : security.bar = some bar)
    (hsided : order.Sided) (stop limit : α) :
    triggerPrice? security.mirror order.mirror (-stop) (-limit) =
      (triggerPrice? security order stop limit).map fun price => -price := by
  simp only [triggerPrice?, Order.isBuy_mirror laws hsided,
    Snapshot.stopCross_mirror laws hbar, withinLimit_mirror laws]
  split <;> rfl

theorem reachesStopOf_mirror (laws : Scalar.MirrorLaws α) (hbar : security.bar = some bar)
    (hsided : order.Sided) :
    reachesStopOf security.mirror order.mirror = reachesStopOf security order := by
  have hside := Order.isBuy_mirror laws hsided
  simp only [reachesStopOf, hside]
  cases hk : order.kind <;>
    simp [Order.mirror, OrderKind.mirror, OrderKind.stopPrice?, hk,
      Snapshot.reachesStop_mirror laws hbar]

/-- A condition is met in the mirror when it is met, at the negated price. -/
theorem price?_mirror (laws : Scalar.MirrorLaws α) (hbar : security.bar = some bar)
    (hsided : order.Sided) (hpriced : order.kind.isPriced = true) :
    Option.Rel Scalar.Mirrored (c.price? security order)
      (c.price? security.mirror order.mirror) := by
  have hside := Order.isBuy_mirror laws hsided
  have hnegated : ∀ price? : Option α,
      Option.Rel Scalar.Mirrored price? (price?.map fun price => -price) := by
    rintro (_ | price)
    · exact .none
    · exact .some (.neg price)
  have hkind : order.mirror.kind = order.kind.mirror := rfl
  cases hk : order.kind with
  | limit limit =>
    simp only [price?, hkind, hk, OrderKind.mirror, hside, Snapshot.limitCross?_mirror laws hbar]
    exact hnegated _
  | stopMarket stop =>
    simp only [price?, hkind, hk, OrderKind.mirror, stopMarketPrice?, hside,
      Snapshot.reachesStop_mirror laws hbar, Snapshot.stopCross_mirror laws hbar]
    split
    · exact .some (slipped_mirror laws _ _)
    · exact .none
  | stopLimit stop limit triggered =>
    simp only [price?, hkind, hk, OrderKind.mirror, hside, Snapshot.limitCross?_mirror laws hbar,
      Snapshot.reachesStop_mirror laws hbar, triggerPrice?_mirror laws hbar hsided]
    split
    · exact hnegated _
    · split
      · exact hnegated _
      · exact .none
  | _ => rw [hk] at hpriced; cases hpriced

/-! ## Quantities -/

/-- Two fills are each other's mirror image, or neither counts. -/
def MirrorsFill (order : Order α) (quantity quantity' : α) : Prop :=
  Scalar.negligible quantity = true ∧ Scalar.negligible quantity' = true ∨
    quantity' = -quantity ∧ order.mirror.remaining = -order.remaining

end FillConfig

/-- Nothing is drawn when nothing is wanted. -/
theorem Usage.draw_zero (laws : Scalar.MirrorLaws α) (u : Usage α) (share : α) (symbol : String)
    (bar : Bar α) : (u.draw share symbol bar 0).1 = 0 := by
  have hsize : Scalar.min 0 (u.allowance share symbol bar) < Scalar.tolerance := by
    rw [Scalar.min, Scalar.isNumber, decide_eq_true laws.zero_le, if_pos rfl]
    split
    · exact laws.lt_tolerance _ ‹_›
    · exact laws.lt_tolerance 0 laws.zero_le
  rw [draw, if_pos hsize]

/-- What is left of an order on the other side of the mirror is on the other side. -/
theorem Order.leavesSale_mirror (laws : Scalar.MirrorLaws α) (hsided : order.Sided)
    (hleft : order.remaining = order.quantity - order.filled)
    (hcounts : Scalar.negligible order.remaining = false)
    (hmirror : order.mirror.remaining = -order.remaining) :
    order.mirror.leavesSale = !order.leavesSale := by
  have hnumber : Scalar.isNumber order.remaining = true := hleft ▸ hsided.left
  have hnonzero : Scalar.isZero order.remaining = false := by
    rw [← Bool.not_eq_true]
    intro hzero
    rw [laws.negligible_of_isZero _ hzero] at hcounts
    cases hcounts
  have hcancels : Scalar.cancels order.quantity order.filled = false := by
    rw [Scalar.cancels, hsided.left, Bool.not_true, Bool.and_false]
  have hcancels' : Scalar.cancels order.mirror.quantity order.mirror.filled = false := by
    have hsub : Scalar.Mirrored (order.quantity - order.filled)
        (order.mirror.quantity - order.mirror.filled) := laws.sub _ _
    rw [Scalar.cancels, hsub.eq_neg laws (hleft ▸ hcounts), Scalar.isNumber_neg laws, hsided.left,
      Bool.not_true, Bool.and_false]
  rw [leavesSale, leavesSale, hcancels, hcancels', Bool.or_false, Bool.or_false, hmirror,
    laws.isNegative_neg _ hnumber hnonzero]

namespace FillConfig

variable {c : FillConfig α}

/-- The same is drawn from the volume, for the other side. -/
theorem fillQuantity_mirror (laws : Scalar.MirrorLaws α) (c : FillConfig α)
    (hbar : security.bar = some bar) (hsided : order.Sided) (u : Usage α) :
    (c.fillQuantity security.mirror order.mirror u).2 = (c.fillQuantity security order u).2 ∧
      MirrorsFill order (c.fillQuantity security order u).1
        (c.fillQuantity security.mirror order.mirror u).1 := by
  have hremaining := Order.remaining_mirror laws order
  cases hshare : c.participation with
  | none =>
    rw [fillQuantity_of_uncapped hshare, fillQuantity_of_uncapped hshare]
    refine ⟨rfl, ?_⟩
    rcases hremaining with ⟨hnone, hnone'⟩ | ⟨-, -, hmirror⟩
    · rw [hnone, hnone']
      exact .inl ⟨Scalar.negligible_zero laws, Scalar.negligible_zero laws⟩
    · exact .inr ⟨hmirror, hmirror⟩
  | some share =>
    -- the bar in the mirror has the time and the volume of the bar
    have hdraw : ∀ wanted, u.draw share security.mirror.symbol bar.mirror wanted =
        u.draw share security.symbol bar wanted := fun _ => rfl
    simp only [fillQuantity, hshare, hbar, Snapshot.bar_mirror hbar, hdraw]
    rcases hremaining with ⟨hnone, hnone'⟩ | ⟨hleft, hcounts, hmirror⟩
    · have hsigned : ∀ isSale : Bool,
          Scalar.negligible (if isSale then -0 else (0 : α)) = true := by
        rintro (_ | _)
        · exact Scalar.negligible_zero laws
        · exact (Scalar.negligible_neg laws 0).trans (Scalar.negligible_zero laws)
      rw [hnone, hnone', Scalar.abs_zero laws, Usage.draw_zero laws]
      exact ⟨rfl, .inl ⟨hsigned _, hsigned _⟩⟩
    · rw [hmirror, laws.abs_neg, Order.leavesSale_mirror laws hsided hleft hcounts hmirror]
      refine ⟨rfl, .inr ⟨?_, hmirror⟩⟩
      cases order.leavesSale with
      | true => exact (laws.neg_neg _).symm
      | false => rfl

end FillConfig

/-! ## Events -/

/-- The events say the same but for the quantity and the price of a fill, which are each other's
mirror image. -/
structure OrderEvent.Mirrors (event event' : OrderEvent α) : Prop where
  same : event' =
    { event with fillQuantity := event'.fillQuantity, fillPrice := event'.fillPrice }
  quantity : Scalar.Mirrored event.fillQuantity event'.fillQuantity
  price : Scalar.Mirrored event.fillPrice event'.fillPrice

theorem OrderEvent.Mirrors.unchanged (laws : Scalar.MirrorLaws α) (order : Order α)
    (now : Instant) :
    Mirrors (OrderEvent.unchanged order now) (OrderEvent.unchanged order.mirror now) :=
  ⟨rfl, .zero laws, .zero laws⟩

namespace FillConfig

variable {now : Instant} {price price' quantity quantity' : α}

theorem filled_mirror (laws : Scalar.MirrorLaws α) (hprice : Scalar.Mirrored price price')
    (hfill : MirrorsFill order quantity quantity') :
    OrderEvent.Mirrors (filled order now price quantity)
      (filled order.mirror now price' quantity') := by
  rcases hfill with ⟨hnone, hnone'⟩ | ⟨rfl, hmirror⟩
  · rw [filled, filled, if_pos hnone, if_pos hnone']
    exact .unchanged laws order now
  · have hleft : Scalar.negligible (order.mirror.remaining - -quantity) =
        Scalar.negligible (order.remaining - quantity) := by
      rw [hmirror]
      exact (laws.sub _ _).negligible_eq laws
    simp only [filled, Scalar.negligible_neg laws, hleft]
    split
    · exact .unchanged laws order now
    · exact ⟨rfl, .neg quantity, hprice⟩

/-- The rules treat the two sides alike. Where an order names its prices, has a side and sees a bar,
they answer in the mirror with the mirrored fill: at the negated price if there is one, for the
negated quantity, with the same status, the stop marked alike and the same left of the bar's
volume. -/
theorem dispatch_mirror (laws : Scalar.MirrorLaws α) (c : FillConfig α) (security : Snapshot α)
    {bar : Bar α} (hbar : security.bar = some bar) (order : Order α) (hsided : order.Sided)
    (hpriced : order.kind.isPriced = true) (now : Instant) (u : Usage α) :
    ∃ event event' kind u',
      c.fillModel.dispatch security order now u = (.ok (event, kind), u') ∧
      c.fillModel.dispatch security.mirror order.mirror now u =
        (.ok (event', kind.mirror), u') ∧
      event.Mirrors event' := by
  have hprice := c.price?_mirror laws hbar hsided hpriced
  have hkind : (order.kind.trigger (reachesStopOf security order)).mirror =
      order.mirror.kind.trigger (reachesStopOf security.mirror order.mirror) := by
    rw [reachesStopOf_mirror laws hbar hsided]
    exact OrderKind.mirror_trigger _ _
  rw [dispatch_eq_outcome, dispatch_eq_outcome, outcome, outcome, ← hkind]
  generalize c.price? security order = price? at hprice ⊢
  generalize c.price? security.mirror order.mirror = price?' at hprice ⊢
  cases hprice with
  | none => exact ⟨_, _, _, _, rfl, rfl, .unchanged laws order now⟩
  | some hprice =>
    obtain ⟨hspent, hfill⟩ := c.fillQuantity_mirror laws hbar hsided u
    exact ⟨_, _, _, _, rfl, by rw [← hspent], filled_mirror laws hprice hfill⟩

end FillConfig

end

/-- The last part of a purchase whose stop is passed by a gap, and the sale in the mirror. The laws
hold of exact numbers as of floating-point ones, in which the prices here are rounded. -/
theorem FillConfig.dispatch_mirror_of_gap :
    let c : FillConfig Float := ⟨3, 0.1, some 0.3⟩
    let bar : Bar Float := ⟨⟨60⟩, 101.7, 103, 99.9, 102, 21⟩
    let security := Snapshot.ofBar "SPY" bar
    let purchase : Order Float :=
      { id := 1, symbol := "SPY", quantity := 10.5, kind := .stopMarket 101, time := ⟨0⟩
        status := .partiallyFilled, filled := 4.5 }
    let u : Usage Float := Table.empty
    let event := (OrderEvent.of purchase ⟨60⟩ .filled).withFill (101.7 + 0.3) 6
    Scalar.MirrorLaws Rat ∧ Scalar.MirrorLaws Float ∧ security.bar = some bar ∧
      purchase.Sided ∧ purchase.kind.isPriced = true ∧
      security.mirror.bar = some ⟨⟨60⟩, -101.7, -99.9, -103, -102, 21⟩ ∧
      c.fillModel.dispatch security purchase ⟨60⟩ u =
        (.ok (event, .stopMarket 101), u.insert "SPY" ⟨⟨60⟩, 6⟩) ∧
      ∃ event' : OrderEvent Float,
        c.fillModel.dispatch security.mirror purchase.mirror ⟨60⟩ u =
          (.ok (event', .stopMarket (-101)), u.insert "SPY" ⟨⟨60⟩, 6⟩) ∧
        event.Mirrors event' := by
  intro c bar security purchase u event
  have hsided : purchase.Sided :=
    Order.sided_of_isFinite (.inr (by decide +kernel)) (by decide +kernel) (by decide +kernel)
  have hdispatch : c.fillModel.dispatch security purchase ⟨60⟩ u =
      (.ok (event, .stopMarket 101), u.insert "SPY" ⟨⟨60⟩, 6⟩) := by decide +kernel
  obtain ⟨event₁, event', kind, u', h, hmirror, hmirrors⟩ :=
    dispatch_mirror Scalar.mirrorLaws_float c security rfl purchase hsided rfl ⟨60⟩ u
  rw [hdispatch, Prod.mk.injEq, Except.ok.injEq, Prod.mk.injEq] at h
  obtain ⟨⟨rfl, rfl⟩, rfl⟩ := h
  exact ⟨Scalar.mirrorLaws_rat, Scalar.mirrorLaws_float, rfl, hsided, rfl, by decide +kernel,
    hdispatch, event', hmirror, hmirrors⟩

end TradingDesk
