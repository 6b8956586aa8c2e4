import TradingDesk.Proofs.Funding
import TradingDesk.Proofs.Settling
/- Proofs.Purchase — an order to buy at market that is filled in parts at one price.

   The power check sees what is left of an order, with the fee for it as if it were filled
   at once, and what the fills before have left of the account. At one price the two make
   up the same sum at every look: what the whole order ties up, the fee of its first fill,
   and the fee of all the rest (`Purchase.check_iff`). The sum is settled by the first
   fill. A flat fee and a share of the amount leave it where it was when nothing was
   filled; a fee by the unit does unless the minimum is charged for a first fill that does
   not come up to it (`FeePlan.total_le`). A look keeps what the sums rest on, and refuses
   the order exactly if the cash has not been enough for the sum (`Purchase.visit`). -/
namespace TradingDesk

/-! ## Fees of a purchase in parts -/

namespace FeePlan

variable {plan : FeePlan Rat} {price quantity x y : Rat} {first : OrderEvent Rat}
  {first? : Option (OrderEvent Rat)}

theorem feeOf_zero (plan : FeePlan Rat) (price : Rat) : plan.feeOf false price 0 = 0 := by
  cases plan <;> simp [feeOf]

/-- After the first fill, parts are charged what they are charged together. -/
theorem feeOf_add (plan : FeePlan Rat) (price : Rat) (hx : 0 ≤ x) (hy : 0 ≤ y) :
    plan.feeOf false price (x + y) = plan.feeOf false price x + plan.feeOf false price y := by
  cases plan with
  | perOrder fee => simp [feeOf]
  | perUnit rate minimum =>
    simp only [feeOf, Bool.false_eq_true, if_false, abs_of_nonneg hx, abs_of_nonneg hy,
      abs_of_nonneg (add_nonneg hx hy)]
    ring
  | basisPoints rate =>
    simp only [feeOf, abs_of_nonneg hx, abs_of_nonneg hy, abs_of_nonneg (add_nonneg hx hy)]
    ring

/-- What is charged for a purchase at one price by its first fill, if it has had one: the fee of
that and of the rest of the quantity. -/
def total (plan : FeePlan Rat) (price quantity : Rat) : Option (OrderEvent Rat) → Rat
  | none => plan.feeOf true price quantity
  | some first => first.fee + plan.feeOf false price (quantity - first.fillQuantity)

/-- What has been charged when a part of it is bought. -/
def charged (plan : FeePlan Rat) (price bought : Rat) : Option (OrderEvent Rat) → Rat
  | none => 0
  | some first => first.fee + plan.feeOf false price (bought - first.fillQuantity)

/-- What has been charged and what is due for the rest is the total. -/
theorem charged_add_feeOf (plan : FeePlan Rat) (price : Rat) (hunfilled : first? = none → x = 0)
    (hfirst : ∀ first, first? = some first → first.fillQuantity ≤ x) (hx : x ≤ quantity) :
    plan.charged price x first? + plan.feeOf first?.isNone price (quantity - x) =
      plan.total price quantity first? := by
  cases first? with
  | none =>
    rw [hunfilled rfl, sub_zero]
    exact zero_add _
  | some first =>
    have hrest : quantity - first.fillQuantity = (x - first.fillQuantity) + (quantity - x) := by
      ring
    rw [charged, total, hrest, feeOf_add plan price (sub_nonneg.mpr (hfirst first rfl))
      (sub_nonneg.mpr hx), add_assoc]
    rfl

/-- A fill adds its fee to what has been charged. -/
theorem charged_add_fee (plan : FeePlan Rat) (price : Rat) {e : OrderEvent Rat}
    (hunfilled : first? = none → x = 0)
    (hfirst : ∀ first, first? = some first → first.fillQuantity ≤ x)
    (hquantity : 0 ≤ e.fillQuantity)
    (hfee : e.fee = plan.feeOf first?.isNone price e.fillQuantity) :
    plan.charged price (x + e.fillQuantity) (first?.or (some e)) =
      plan.charged price x first? + e.fee := by
  cases first? with
  | none =>
    rw [hunfilled rfl, Option.none_or, charged, charged, zero_add, zero_add, sub_self, feeOf_zero,
      add_zero]
  | some first =>
    have hrest : x + e.fillQuantity - first.fillQuantity =
        (x - first.fillQuantity) + e.fillQuantity := by ring
    rw [Option.some_or, charged, charged, hrest,
      feeOf_add plan price (sub_nonneg.mpr (hfirst first rfl)) hquantity, hfee, add_assoc]
    rfl

/-- The first fill makes a purchase no dearer, unless a fee by the unit falls short of its minimum
there. -/
theorem total_le (hfee : first.fee = plan.feeOf true price first.fillQuantity)
    (hquantity : 0 ≤ first.fillQuantity) (hle : first.fillQuantity ≤ quantity)
    (hminimum : ∀ rate minimum, plan = .perUnit rate minimum →
      minimum ≤ rate * first.fillQuantity) :
    plan.total price quantity (some first) ≤ plan.total price quantity none := by
  have hrest : 0 ≤ quantity - first.fillQuantity := sub_nonneg.mpr hle
  have hwhole : 0 ≤ quantity := hquantity.trans hle
  rw [total, total, hfee]
  cases plan with
  | perOrder fee => simp [feeOf]
  | perUnit rate minimum =>
    have hreached := hminimum rate minimum rfl
    simp only [feeOf, if_true, Bool.false_eq_true, if_false, abs_of_nonneg hquantity,
      abs_of_nonneg hrest, abs_of_nonneg hwhole, max_eq_left hreached]
    refine le_trans (le_of_eq ?_) (le_max_left _ _)
    ring
  | basisPoints rate =>
    simp only [feeOf, abs_of_nonneg hquantity, abs_of_nonneg hrest, abs_of_nonneg hwhole]
    refine le_of_eq ?_
    ring

/-- The fee of a quantity that counts, by whether the order has had a fill. -/
theorem due_eq_feeOf (plan : FeePlan Rat) (order : Order Rat) (price : Rat)
    (hcounts : Scalar.tolerance ≤ |quantity|) :
    plan.due order price quantity = plan.feeOf order.isUnfilled price quantity := by
  have hgive : (Trial.give (plan.due order price quantity) : Trial Unit Rat) =
      Trial.give (plan.feeOf order.isUnfilled price quantity) := by
    rw [← model_fee_eq plan (Snapshot.ofPrice order.symbol order.time price) order price quantity,
      model_fee plan _ order price hcounts]
  exact Except.ok.inj (Prod.mk.inj (congrFun hgive ())).1

end FeePlan

/-! ## Accounts that hold a part of a purchase -/

namespace Portfolio

variable {p : Portfolio Rat} {symbol : String} {price leverage cash fees x fee : Rat}
  {e : OrderEvent Rat} {security : Snapshot Rat} {order : Order Rat}

/-- The account had cash only, and has bought a quantity of one symbol at a price that it is marked
at, and paid fees. -/
structure Bought (symbol : String) (price leverage cash fees x : Rat) (p : Portfolio Rat) :
    Prop where
  held : p.quantityHeld symbol = x
  others : ∀ s, s ≠ symbol → p.positions.get? s = none
  marked : p.MarkedAt symbol price
  available : p.available leverage = cash - fees - x * price / leverage

/-- A mark that an open position has already changes nothing. -/
theorem mark_eq_self (h : p.MarkedAt symbol price) : p.mark symbol price = p := by
  have hpositions : (p.positions.adjust symbol fun held => { held with marketPrice := price }) =
      p.positions := by
    refine Table.ext_get? fun s => ?_
    by_cases hs : s = symbol
    · subst hs
      rw [Table.get?_adjust_self]
      cases hheld : p.positions.get? s with
      | none => rfl
      | some held =>
        have hmark := h held hheld
        rw [Option.map_some, ← hmark]
    · rw [Table.get?_adjust_of_ne _ _ hs]
  rw [mark, hpositions]

theorem bought_nothing (hcash : p.holdings = []) (symbol : String) (price leverage : Rat) :
    p.Bought symbol price leverage p.cash 0 0 := by
  have hentries : p.positions.entries = [] := List.map_eq_nil_iff.mp hcash
  have hnone : ∀ s, p.positions.get? s = none := fun s => by rw [Table.get?, hentries]; rfl
  refine ⟨?_, fun s _ => hnone s, fun held hheld => ?_, ?_⟩
  · rw [quantityHeld, hnone]
    rfl
  · rw [hnone] at hheld
    cases hheld
  · rw [available_eq_sum, Table.values, hentries, List.map_nil, List.map_nil, List.sum_nil]
    ring

namespace Bought

theorem mark (h : p.Bought symbol price leverage cash fees x) {s : String} {at_ : Rat}
    (hat : s = symbol → at_ = price) :
    (p.mark s at_).Bought symbol price leverage cash fees x := by
  have hmarked : p.MarkedAt s at_ := by
    intro held hheld
    by_cases hs : s = symbol
    · subst hs
      rw [hat rfl]
      exact h.marked held hheld
    · rw [h.others s hs] at hheld
      cases hheld
  rw [mark_eq_self hmarked]
  exact h

/-- A further fill at the price. -/
theorem applyFill (h : p.Bought symbol price leverage cash fees x) (hx : 0 ≤ x)
    (hprice : 0 < price) (he : e.isFill = true) (hsymbol : e.symbol = symbol)
    (hat : e.fillPrice = price) (hquantity : 0 ≤ e.fillQuantity) :
    (p.applyFill e).Bought symbol price leverage cash (fees + e.fee) (x + e.fillQuantity) := by
  subst hsymbol hat
  have hcounts : Scalar.tolerance ≤ x + e.fillQuantity := by
    have hcounts := OrderEvent.isFill_iff.mp he
    rw [abs_of_nonneg hquantity] at hcounts
    exact hcounts.trans (le_add_of_nonneg_left hx)
  have hsum : 0 ≤ x + e.fillQuantity := add_nonneg hx hquantity
  refine ⟨?_, fun s hs => ?_, ?_, ?_⟩
  · have hkept : ¬ Scalar.negligible (x + e.fillQuantity) = true := by
      rw [Scalar.negligible_iff, abs_of_nonneg hsum]
      exact not_lt.mpr hcounts
    rw [quantityHeld_eq, quantity?_applyFill he, if_pos rfl, h.held, if_neg hkept]
    rfl
  · have hsame := quantity?_applyFill (p := p) he s
    rw [if_neg hs, quantity?, quantity?, h.others s hs] at hsame
    exact Option.map_eq_none_iff.mp hsame
  · obtain ⟨held, -, hat, hpositions⟩ := positions_applyFill (p := p) he
    intro held' hheld'
    rw [hpositions, hold] at hheld'
    split at hheld'
    · rw [Table.get?_erase_self] at hheld'
      cases hheld'
    · rw [Table.get?_insert_self] at hheld'
      rw [← Option.some.inj hheld', hat]
  · have habs : |x + e.fillQuantity| = x + e.fillQuantity := abs_of_nonneg hsum
    rw [available_applyFill he h.marked (.inr (by rw [h.held, habs]; exact hcounts)), h.held,
      h.available, abs_mul, abs_mul, habs, abs_of_nonneg hx, abs_of_pos hprice]
    ring

/-- The check of what is left of an order: the account must have had what the order ties up in all,
what was charged and what is due. -/
theorem sufficient_iff (h : p.Bought order.symbol price leverage cash fees x) (hx : 0 ≤ x)
    (hleft : 0 < order.remaining) (hprice : referencePrice security order = price) :
    (p.check leverage security order fee).sufficient = true ↔
      (x + order.remaining) * price / leverage + (fees + fee) ≤ cash := by
  have hlong : 0 ≤ p.quantityHeld order.symbol := h.held.symm ▸ hx
  have hopening := opening_of_long hlong hleft
  rw [Portfolio.sufficient_iff (hopening.symm ▸ hleft), required, hopening, hprice, h.available,
    add_mul, add_div]
  constructor <;> intro h <;> linarith

end Bought

end Portfolio

/-! ## The power check at a look -/

/-- An order that may execute is closed only because it has expired, if it does not get to the
models. -/
theorem Models.judge_of_not_reached {α σ : Type} [Scalar α] {models : Models α σ} {board : Board α}
    (account : Portfolio α) {order : Order α} {now : Instant} {memory : σ} {security : Snapshot α}
    (hb : board.get? order.symbol = some security)
    (hreach : models.reach? board order now memory = none) :
    (models.judge board account order now memory).1 = .hold ∨
      (models.judge board account order now memory).1 = .close (expiryEvent order now) := by
  unfold reach? at hreach
  unfold judge
  cases hwaits : order.waits now with
  | true => exact .inl rfl
  | false =>
    cases hexpired : order.isExpired now with
    | true => exact .inr (by simp [hb])
    | false =>
      rcases he : models.executable security order memory with ⟨_ | _, m⟩
      · exact .inl (by simp [hb, he])
      · simp [hwaits, hb, hexpired, he] at hreach

/-- An order that gets to the built-in models is put to the rules if the account affords it, and is
refused if not. -/
theorem Config.judge_of_reached {α : Type} [Scalar α] {c : Config α}
    {overrides : Table String (FeePlan α)} {board : Board α} (account : Portfolio α)
    {order : Order α} {now : Instant} {u u' : Usage α} {security : Snapshot α}
    (hreach : (c.models overrides).reach? board order now u = some (security, u')) :
    if (c.powerCheck overrides account security order).sufficient then
      (c.models overrides).fillStage? board account order now u = some security
    else ((c.models overrides).judge board account order now u).1 =
      .close (refusalEvent order now (c.powerCheck overrides account security order)) := by
  split
  · next hsufficient =>
    rw [Models.fillStage?, hreach, Option.bind_some]
    simp [checkPower_give, Trial.give, hsufficient]
  · next hshort =>
    obtain ⟨security', -, hreach', hjudge⟩ | ⟨hreach', -, -⟩ :=
      (c.models overrides).judge_cases board account order now u
    · obtain ⟨rfl, -⟩ : security' = security ∧ _ = u' :=
        Prod.mk.inj (Option.some.inj (hreach'.symm.trans hreach))
      rw [hjudge, Models.judgeExecutable]
      simp [checkPower_give, Trial.give, hshort]
    · rw [hreach] at hreach'
      cases hreach'

/-- The answer of the built-in models to whether the account affords an order, if a look gets as far
as asking. -/
def Config.powerCheck? {α : Type} [Scalar α] (c : Config α) (overrides : Table String (FeePlan α))
    (board : Board α) (account : Portfolio α) (order : Order α) (now : Instant) (u : Usage α) :
    Option (PowerCheck α) :=
  ((c.models overrides).reach? board order now u).map fun seen =>
    c.powerCheck overrides account seen.1 order

/-! ## The course of the purchase -/

theorem Order.not_invalid {α : Type} {o : Order α} (ho : o.status.isTerminal = false) :
    (some o).map Order.status ≠ some .invalid := by
  rw [Option.map_some, Ne, Option.some.injEq]
  intro hinvalid
  rw [hinvalid] at ho
  cases ho

/-- What the stored order of a docket has filled. -/
def Docket.progress (k : Docket Rat) : Rat := (k.order.map Order.filled).getD 0

/-- The first fill among the events of a docket. -/
def Docket.firstFill? (k : Docket Rat) : Option (OrderEvent Rat) :=
  k.events.find? OrderEvent.isFill

namespace Floor

/-- The only order of a floor is one to buy at market, and the account had cash only and has bought
what the order has filled, at one price. -/
structure Purchase {σ : Type} (c : Config Rat) (overrides : Table String (FeePlan Rat))
    (price cash : Rat) (request : Order Rat) (f : Floor Rat σ) : Prop where
  alone : ∀ j o, f.ledger.get? j = some o → j = request.id
  stored : ∀ o, f.ledger.get? request.id = some o →
    o.OnCourse ∧ o.quantity = request.quantity ∧ o.symbol = request.symbol ∧ o.kind = .market
  unfilled : (f.docket request.id).firstFill? = none → (f.docket request.id).progress = 0
  first : ∀ e, (f.docket request.id).firstFill? = some e →
    e.fee = (c.plan overrides request.symbol).feeOf true price e.fillQuantity ∧
      Scalar.tolerance ≤ e.fillQuantity ∧ e.fillQuantity ≤ (f.docket request.id).progress
  bought : f.account.Bought request.symbol price (effectiveLeverage c.power.leverage) cash
    ((c.plan overrides request.symbol).charged price (f.docket request.id).progress
      (f.docket request.id).firstFill?)
    (f.docket request.id).progress

namespace Purchase

variable {σ : Type} {c : Config Rat} {overrides : Table String (FeePlan Rat)} {price cash : Rat}
  {request o : Order Rat} {f f' : Floor Rat σ} {e : OrderEvent Rat}

theorem progress_nonneg (h : f.Purchase c overrides price cash request) :
    0 ≤ (f.docket request.id).progress := by
  cases hfirst : (f.docket request.id).firstFill? with
  | none => exact (h.unfilled hfirst).ge
  | some e =>
    obtain ⟨-, hcounts, hle⟩ := h.first e hfirst
    exact Scalar.tolerance_pos.le.trans (hcounts.trans hle)

theorem progress_eq (hs : f.ledger.get? request.id = some o) :
    (f.docket request.id).progress = o.filled := by
  rw [Docket.progress, docket, hs]
  rfl

/-- The stored order has had a fill that counts exactly if a fill is among its events. -/
theorem isUnfilled_eq (h : f.Purchase c overrides price cash request)
    (hs : f.ledger.get? request.id = some o) :
    o.isUnfilled = (f.docket request.id).firstFill?.isNone := by
  rw [Order.isUnfilled, ← progress_eq hs]
  cases hfirst : (f.docket request.id).firstFill? with
  | none =>
    rw [h.unfilled hfirst, Option.isNone_none, Scalar.negligible_iff, abs_zero]
    exact Scalar.tolerance_pos
  | some e =>
    obtain ⟨-, hcounts, hle⟩ := h.first e hfirst
    rw [Option.isNone_some, ← Bool.not_eq_true, Scalar.negligible_iff,
      abs_of_nonneg h.progress_nonneg]
    exact not_lt.mpr (hcounts.trans hle)

theorem alone_refiled (h : f.Purchase c overrides price cash request)
    {o' : Order Rat} {pending : Bool}
    (hr : Ledger.Refiled f.ledger f'.ledger request.id o' pending) :
    ∀ j o, f'.ledger.get? j = some o → j = request.id := by
  intro j o hj
  by_contra hne
  rw [hr.get?_of_ne hne] at hj
  exact hne (h.alone j o hj)

theorem firstFill?_quiet {published : List (OrderEvent Rat)} (hlog : f'.log = f.log ++ published)
    (hquiet : ∀ e ∈ published, e.isFill = false) (id : OrderId) :
    (f'.docket id).firstFill? = (f.docket id).firstFill? := by
  have hnone : (eventsOf published id).find? OrderEvent.isFill = none :=
    List.find?_eq_none.mpr fun e he => by
      rw [hquiet e (List.mem_of_mem_filter he)]
      exact Bool.false_ne_true
  rw [Docket.firstFill?, docket_events hlog, List.find?_append, hnone, Option.or_none]
  rfl

/-- Filing the order anew, without a fill, leaves the purchase as it was. -/
theorem refiled (h : f.Purchase c overrides price cash request) {o' : Order Rat} {pending : Bool}
    {published : List (OrderEvent Rat)}
    (hr : Ledger.Refiled f.ledger f'.ledger request.id o' pending)
    (haccount : f'.account = f.account) (hlog : f'.log = f.log ++ published)
    (hquiet : ∀ e ∈ published, e.isFill = false) (hcourse : o'.OnCourse)
    (hsame : o'.quantity = request.quantity ∧ o'.symbol = request.symbol ∧ o'.kind = .market)
    (hfilled : o'.filled = (f.docket request.id).progress) :
    f'.Purchase c overrides price cash request := by
  have hprogress : (f'.docket request.id).progress = (f.docket request.id).progress :=
    (progress_eq hr.get?_self).trans hfilled
  have hfirst := firstFill?_quiet hlog hquiet request.id
  refine ⟨h.alone_refiled hr, ?_, ?_, ?_, ?_⟩
  · intro o ho
    rw [hr.get?_self] at ho
    obtain rfl := Option.some.inj ho
    exact ⟨hcourse, hsame⟩
  · rw [hfirst, hprogress]
    exact h.unfilled
  · rw [hfirst, hprogress]
    exact h.first
  · rw [hfirst, hprogress, haccount]
    exact h.bought

/-- A fill at the price, with the fee of the plan, carries the purchase on. -/
theorem filled (h : f.Purchase c overrides price cash request) (hprice : 0 < price)
    (hs : f.ledger.get? request.id = some o) {o' : Order Rat} {pending : Bool}
    (hr : Ledger.Refiled f.ledger f'.ledger request.id o' pending)
    (haccount : f'.account = f.account.applyFill e) (hlog : f'.log = f.log ++ [e])
    (hid : e.orderId = request.id) (hsymbol : e.symbol = request.symbol) (he : e.isFill = true)
    (hat : e.fillPrice = price) (hquantity : 0 ≤ e.fillQuantity)
    (hfee : e.fee = (c.plan overrides request.symbol).feeOf o.isUnfilled price e.fillQuantity)
    (hcourse : o'.OnCourse)
    (hsame : o'.quantity = request.quantity ∧ o'.symbol = request.symbol ∧ o'.kind = .market)
    (hfilled : o'.filled = o.filled + e.fillQuantity) :
    f'.Purchase c overrides price cash request := by
  have hcounts : Scalar.tolerance ≤ e.fillQuantity := by
    have hcounts := OrderEvent.isFill_iff.mp he
    rwa [abs_of_nonneg hquantity] at hcounts
  have hnonneg := h.progress_nonneg
  have hprogress : (f'.docket request.id).progress =
      (f.docket request.id).progress + e.fillQuantity := by
    rw [progress_eq hr.get?_self, hfilled, progress_eq hs]
  have hfirst : (f'.docket request.id).firstFill? =
      (f.docket request.id).firstFill?.or (some e) := by
    have hone : (f'.docket request.id).events = (f.docket request.id).events ++ [e] :=
      (congrArg (fun log => eventsOf log request.id) hlog).trans (eventsOf_append_self hid)
    rw [Docket.firstFill?, hone, List.find?_append, List.find?_singleton, he]
    rfl
  rw [h.isUnfilled_eq hs] at hfee
  refine ⟨h.alone_refiled hr, ?_, ?_, ?_, ?_⟩
  · intro o ho
    rw [hr.get?_self] at ho
    obtain rfl := Option.some.inj ho
    exact ⟨hcourse, hsame⟩
  · rw [hfirst]
    cases (f.docket request.id).firstFill? <;> exact nofun
  · intro first hfirst'
    rw [hprogress]
    rw [hfirst] at hfirst'
    cases hold : (f.docket request.id).firstFill? with
    | none =>
      rw [hold] at hfirst'
      obtain rfl := Option.some.inj hfirst'
      rw [hold] at hfee
      exact ⟨hfee, hcounts, le_add_of_nonneg_left hnonneg⟩
    | some old =>
      rw [hold] at hfirst'
      obtain rfl := Option.some.inj hfirst'
      obtain ⟨hfee', hcounts', hle⟩ := h.first old hold
      exact ⟨hfee', hcounts', hle.trans (le_add_of_nonneg_right hquantity)⟩
  · rw [hprogress, hfirst, haccount, FeePlan.charged_add_fee _ price h.unfilled
      (fun first hold => (h.first first hold).2.2) hquantity hfee]
    exact h.bought.applyFill hnonneg hprice he hsymbol hat hquantity

theorem congr (h : f.Purchase c overrides price cash request) (hl : f'.ledger = f.ledger)
    (ha : f'.account = f.account) (hg : f'.log = f.log) :
    f'.Purchase c overrides price cash request := by
  have hdocket := docket_congr hl hg request.id
  refine ⟨?_, ?_, ?_, ?_, ?_⟩
  · rw [hl]; exact h.alone
  · rw [hl]; exact h.stored
  · rw [hdocket]; exact h.unfilled
  · rw [hdocket]; exact h.first
  · rw [hdocket, ha]; exact h.bought

section Looks

variable {board : Board Rat} {now : Instant} {security : Snapshot Rat} {u : Usage Rat}
  {f f' : Floor Rat (Usage Rat)}

theorem progress_le (h : f.Purchase c overrides price cash request)
    (hbuy : 0 < request.quantity) : (f.docket request.id).progress ≤ request.quantity := by
  cases hs : f.ledger.get? request.id with
  | none =>
    rw [Docket.progress, docket, hs]
    exact hbuy.le
  | some o =>
    obtain ⟨hcourse, hquantity, -⟩ := h.stored o hs
    rw [progress_eq hs]
    rw [← hquantity] at hbuy ⊢
    rcases hcourse.part with ⟨-, hle⟩ | ⟨hle, hneg⟩
    · exact hle
    · exact hneg.trans hbuy.le

theorem remaining_eq (h : f.Purchase c overrides price cash request)
    (hs : f.ledger.get? request.id = some o) (ho : o.status.isTerminal = false) :
    o.remaining = request.quantity - (f.docket request.id).progress := by
  obtain ⟨hcourse, hquantity, -⟩ := h.stored o hs
  rw [Order.remaining_of_left (hcourse.left ho), hquantity, progress_eq hs]

theorem tolerance_le_remaining (h : f.Purchase c overrides price cash request)
    (hbuy : 0 < request.quantity) (hs : f.ledger.get? request.id = some o)
    (ho : o.status.isTerminal = false) : Scalar.tolerance ≤ o.remaining := by
  obtain ⟨hcourse, hquantity, -⟩ := h.stored o hs
  have hleft := hcourse.left ho
  rw [← Order.remaining_of_left hleft, abs_of_nonneg] at hleft
  · exact hleft
  · rw [h.remaining_eq hs ho]
    exact sub_nonneg.mpr (h.progress_le hbuy)

/-- The check of the power that is left: the account must have had what the whole order ties up and
what it is charged in all. -/
theorem check_iff (h : f.Purchase c overrides price cash request)
    (hbuy : 0 < request.quantity) (hs : f.ledger.get? request.id = some o)
    (ho : o.status.isTerminal = false) (hask : security.askPrice = price) :
    (c.powerCheck overrides f.account security o).sufficient = true ↔
      request.quantity * price / effectiveLeverage c.power.leverage +
        (c.plan overrides request.symbol).total price request.quantity
          (f.docket request.id).firstFill? ≤ cash := by
  obtain ⟨hcourse, hquantity, hsymbol, hkind⟩ := h.stored o hs
  have hcounts := h.tolerance_le_remaining hbuy hs ho
  have hleft : 0 < o.remaining := Scalar.tolerance_pos.trans_le hcounts
  have hreference : referencePrice security o = price := by
    have hside : o.isBuy = true := Order.isBuy_of_pos (hquantity ▸ hbuy)
    simp only [referencePrice, hkind, OrderKind.limitPrice?, OrderKind.stopPrice?, Snapshot.touch,
      hside, if_true, hask]
  have hbought := h.bought
  rw [← hsymbol] at hbought
  rw [Config.powerCheck, hreference, FeePlan.due_eq_feeOf _ _ _ (hcounts.trans (le_abs_self _)),
    hbought.sufficient_iff h.progress_nonneg hleft hreference, h.isUnfilled_eq hs, hsymbol,
    h.remaining_eq hs ho, FeePlan.charged_add_feeOf _ price h.unfilled
      (fun first hfirst => (h.first first hfirst).2.2) (h.progress_le hbuy), add_sub_cancel]

/-- An order that is closed has the status of the event, and nothing more is filled. -/
theorem close (h : f.Purchase c overrides price cash request)
    (hs : f.ledger.get? request.id = some o) (hid : o.id = request.id)
    (ho : o.status.isTerminal = false) (now : Instant) {status : OrderStatus}
    (hstatus : status = .invalid ∨ status = .canceled) (message : String) :
    let f' := (f.settle o now (.close ((OrderEvent.of o now status).withMessage message))).1
    f'.Purchase c overrides price cash request ∧
      (f'.ledger.get? request.id).map Order.status = some status ∧
      (f'.docket request.id).firstFill? = (f.docket request.id).firstFill? := by
  intro f'
  obtain ⟨hcourse, hsame⟩ := h.stored o hs
  obtain ⟨l, hr, hclose⟩ := settle_close now (hid ▸ hs) ho hstatus message
  have hquiet : ((OrderEvent.of o now status).withMessage message).isFill = false :=
    OrderEvent.isFill_of_zero rfl
  have hr' : Ledger.Refiled f.ledger f'.ledger request.id
      (o.booked ((OrderEvent.of o now status).withMessage message)) false := by
    rw [show f' = _ from hclose, ← hid]
    exact hr
  have hlog : f'.log = f.log ++ [(OrderEvent.of o now status).withMessage message] := by
    rw [show f' = _ from hclose]
    rfl
  refine ⟨h.refiled hr' ?_ hlog (List.forall_mem_singleton.mpr hquiet) ?_ hsame ?_, ?_,
    firstFill?_quiet hlog (List.forall_mem_singleton.mpr hquiet) request.id⟩
  · rw [show f' = _ from hclose]
    exact Portfolio.applyFill_of_not_fill hquiet
  · rw [Order.booked_of_fillQuantity_eq_zero rfl]
    exact hcourse.closed hstatus
  · rw [progress_eq hs]
    exact add_zero _
  · rw [hr'.get?_self]
    rfl

/-- A fill of the order is at the price. -/
theorem drawn (h : f.Purchase c overrides price cash request) (hslippage : c.fill.slippage = 0)
    (hbuy : 0 < request.quantity) (hs : f.ledger.get? request.id = some o)
    (ho : o.status.isTerminal = false) (hask : security.askPrice = price)
    (hfill : (c.fill.outcome security o now u).1.isFill = true) :
    (c.fill.outcome security o now u).1.fillPrice = price ∧
      0 ≤ (c.fill.outcome security o now u).1.fillQuantity := by
  obtain ⟨hcourse, hquantity, -, hkind⟩ := h.stored o hs
  have hbuyer : o.isBuy = true := Order.isBuy_of_pos (hquantity ▸ hbuy)
  constructor
  · have hat := FillConfig.price?_of_isFill Scalar.tolerance_not_le_abs_zero
      ⟨u, _, FillConfig.dispatch_eq_outcome c.fill security o now u⟩ hfill
    simp only [FillConfig.price?, hkind, FillConfig.marketPrice?,
      FillConfig.slipped_of_none hslippage, Snapshot.touch, hbuyer, if_true, hask,
      Option.ite_none_right_eq_some, Option.some.injEq] at hat
    exact hat.2.symm
  · obtain ⟨-, hside⟩ := hcourse.drawn ho (c.fill.outcome_draws security o now u)
    have hcounts := OrderEvent.isFill_iff.mp hfill
    have hsign := hside (Scalar.ne_zero_of_tolerance_le hcounts)
    rw [hquantity, sign_pos hbuy, sign_eq_one_iff] at hsign
    exact hsign.le

/-- Where the rules fill nothing, the order is left as it is. -/
theorem visit_of_unfilled (h : f.Purchase c overrides price cash request)
    (hs : f.ledger.get? request.id = some o) (hid : o.id = request.id)
    (ho : o.status.isTerminal = false)
    (hstage : (c.models overrides).fillStage? board f.account o now f.memory = some security)
    (hfill : (c.fill.outcome security o now f.memory).1.isFill = false) :
    let f' := (f.visit (c.models overrides) board now request.id).1
    f'.Purchase c overrides price cash request ∧
      (f'.ledger.get? request.id).map Order.status ≠ some .invalid := by
  intro f'
  obtain ⟨hcourse, hquantity, hsymbol, hkind⟩ := h.stored o hs
  have hlook := visit_of_unchanged Scalar.tolerance_not_le_abs_zero (hid ▸ hs) ho hstage
    ((c.fill.outcome_draws security o now f.memory).eq_unchanged hfill)
  rw [hid] at hlook
  have hr := Ledger.setKind_refiled (o.kind.trigger (FillConfig.reachesStopOf security o)) hs
  obtain ⟨hledger, haccount, hlog⟩ : f'.ledger = f.ledger.setKind request.id
        (o.kind.trigger (FillConfig.reachesStopOf security o)) ∧
      f'.account = f.account ∧ f'.log = f.log := by
    rw [show f' = _ from hlook]
    exact ⟨rfl, rfl, rfl⟩
  rw [← hledger] at hr
  refine ⟨h.refiled hr haccount (hlog.trans (List.append_nil _).symm) (List.forall_mem_nil _)
    ⟨hcourse.part, hcourse.left, hcourse.done⟩ ⟨hquantity, hsymbol, by rw [hkind]; rfl⟩
    (progress_eq hs).symm, ?_⟩
  rw [hr.get?_self]
  exact Order.not_invalid ho

/-- Where the rules fill the order, in whole or in part, the purchase goes on by that. -/
theorem visit_of_filled (h : f.Purchase c overrides price cash request)
    (hslippage : c.fill.slippage = 0) (hprice : 0 < price) (hbuy : 0 < request.quantity)
    (hs : f.ledger.get? request.id = some o) (hid : o.id = request.id)
    (ho : o.status.isTerminal = false) (hask : security.askPrice = price)
    (hstage : (c.models overrides).fillStage? board f.account o now f.memory = some security)
    (hfill : (c.fill.outcome security o now f.memory).1.isFill = true) :
    let f' := (f.visit (c.models overrides) board now request.id).1
    f'.Purchase c overrides price cash request ∧
      (f'.ledger.get? request.id).map Order.status ≠ some .invalid := by
  intro f'
  obtain ⟨hcourse, hquantity, hsymbol, hkind⟩ := h.stored o hs
  obtain ⟨hat, hnonneg⟩ := h.drawn hslippage hbuy hs ho hask hfill
  have hdraws := c.fill.outcome_draws security o now f.memory
  obtain ⟨-, hstatus⟩ := hdraws.of_isFill hfill
  obtain ⟨hbooked, -⟩ := hcourse.drawn ho hdraws
  obtain ⟨hsymbol', -⟩ := hdraws.symbol_and_counts
  have hid' := c.fill.outcome_orderId security o now f.memory
  obtain ⟨l, hr, hlook⟩ := visit_of_fill (hid ▸ hs) ho hstage hfill hstatus
  rw [hid] at hr hlook
  obtain rfl : f'.ledger = l := by rw [show f' = _ from hlook]; rfl
  have haccount : f'.account = _ := congrArg Floor.account hlook
  have hlog : f'.log = _ := congrArg Floor.log hlook
  -- what the rules have drawn up is as good as any event with these properties
  revert hfill hat hnonneg hstatus hbooked hsymbol' hid' hr haccount hlog
  generalize (c.fill.outcome security o now f.memory).1 = drawn
  intro hfill hat hnonneg hstatus hbooked hsymbol' hid' hr haccount hlog
  have hcharged : c.charged overrides o drawn = { drawn with
      fee := (c.plan overrides o.symbol).due o drawn.fillPrice drawn.fillQuantity } := if_pos hfill
  rw [hcharged] at hr haccount hlog
  refine ⟨h.filled hprice hs hr haccount hlog (hid'.trans hid) (hsymbol'.trans hsymbol) hfill hat
    hnonneg ?_ ⟨hbooked.part, hbooked.left, hbooked.done⟩
    ⟨hquantity, hsymbol, by rw [hkind]; rfl⟩ rfl, ?_⟩
  · show (c.plan overrides o.symbol).due o drawn.fillPrice drawn.fillQuantity = _
    rw [FeePlan.due_eq_feeOf _ _ _ (OrderEvent.isFill_iff.mp hfill), hat, hsymbol]
  · rw [hr.get?_self, Option.map_some, Ne, Option.some.injEq]
    intro hinvalid
    have hinvalid : drawn.status = .invalid := hinvalid
    rw [hinvalid] at hstatus
    rcases hstatus with h | h <;> cases h

/-- A look that does not ask whether the account affords the order leaves the purchase as it is, or
cancels the order because it has expired. -/
theorem visit_of_unasked (h : f.Purchase c overrides price cash request)
    (hs : f.ledger.get? request.id = some o) (hid : o.id = request.id)
    (ho : o.status.isTerminal = false) (hb : board.get? request.symbol = some security)
    (hreach : (c.models overrides).reach? board o now f.memory = none) :
    let f' := (f.visit (c.models overrides) board now request.id).1
    f'.Purchase c overrides price cash request ∧
      (f'.ledger.get? request.id).map Order.status ≠ some .invalid ∧
      (f'.docket request.id).firstFill? = (f.docket request.id).firstFill? := by
  intro f'
  have hb' : board.get? o.symbol = some security := (h.stored o hs).2.2.1 ▸ hb
  have hvisit : (f.visit (c.models overrides) board now request.id).1 = f' := rfl
  rw [visit_of_open hs ho] at hvisit
  -- what the models remember plays no part in the purchase
  generalize ((c.models overrides).judge board f.account o now f.memory).2 = memory at hvisit
  have hsame : ({ f with memory := memory } : Floor Rat (Usage Rat)).Purchase c overrides price cash
    request := h.congr rfl rfl rfl
  obtain hhold | hexpiry := Models.judge_of_not_reached f.account hb' hreach
  · rw [hhold] at hvisit
    rw [← hvisit]
    refine ⟨hsame, ?_, rfl⟩
    show (f.ledger.get? request.id).map Order.status ≠ _
    rw [hs]
    exact Order.not_invalid ho
  · rw [hexpiry] at hvisit
    obtain ⟨hkept, hstatus, hfirst⟩ := hsame.close hs hid ho now (.inr rfl) "Order expired"
    rw [← hvisit]
    refine ⟨hkept, fun hinvalid => ?_, hfirst⟩
    cases hstatus.symm.trans hinvalid

/-- A look that asks carries the purchase on if the account affords the order, and makes it invalid
if not. -/
theorem visit_of_asked (h : f.Purchase c overrides price cash request)
    (hslippage : c.fill.slippage = 0) (hprice : 0 < price) (hbuy : 0 < request.quantity)
    (hs : f.ledger.get? request.id = some o) (hid : o.id = request.id)
    (ho : o.status.isTerminal = false) (hask : security.askPrice = price)
    (hreach : (c.models overrides).reach? board o now f.memory = some (security, u)) :
    let f' := (f.visit (c.models overrides) board now request.id).1
    f'.Purchase c overrides price cash request ∧
      ((f'.ledger.get? request.id).map Order.status = some .invalid ↔
        (c.powerCheck overrides f.account security o).sufficient = false) := by
  intro f'
  have hjudge := Config.judge_of_reached f.account hreach
  split at hjudge
  · next hsufficient =>
    have hkept : f'.Purchase c overrides price cash request ∧
        (f'.ledger.get? request.id).map Order.status ≠ some .invalid := by
      cases hfill : (c.fill.outcome security o now f.memory).1.isFill with
      | false => exact h.visit_of_unfilled hs hid ho hjudge hfill
      | true => exact h.visit_of_filled hslippage hprice hbuy hs hid ho hask hjudge hfill
    refine ⟨hkept.1, iff_of_false hkept.2 ?_⟩
    rw [hsufficient]
    exact Bool.noConfusion
  · next hshort =>
    have hvisit : (f.visit (c.models overrides) board now request.id).1 = f' := rfl
    rw [visit_of_open hs ho, hjudge] at hvisit
    generalize ((c.models overrides).judge board f.account o now f.memory).2 = memory at hvisit
    have hsame : ({ f with memory := memory } : Floor Rat (Usage Rat)).Purchase c overrides price
      cash request := h.congr rfl rfl rfl
    obtain ⟨hkept, hstatus, -⟩ := hsame.close hs hid ho now (.inl rfl)
      (c.powerCheck overrides f.account security o).message
    rw [← hvisit]
    exact ⟨hkept, iff_of_true hstatus (Bool.not_eq_true _ ▸ hshort)⟩

/-- A look carries the purchase on, and makes the order invalid exactly if it finds that the account
does not afford it. If it does not ask, nothing is filled. -/
theorem visit (h : f.Purchase c overrides price cash request) (now : Instant)
    (hslippage : c.fill.slippage = 0) (hprice : 0 < price) (hbuy : 0 < request.quantity)
    (hs : f.ledger.get? request.id = some o) (hid : o.id = request.id)
    (ho : o.status.isTerminal = false) (hb : board.get? request.symbol = some security)
    (hask : security.askPrice = price) :
    let f' := (f.visit (c.models overrides) board now request.id).1
    let check? := c.powerCheck? overrides board f.account o now f.memory
    f'.Purchase c overrides price cash request ∧
      ((f'.ledger.get? request.id).map Order.status = some .invalid ↔
        ∃ check, check? = some check ∧ check.sufficient = false) ∧
      (check? = none →
        (f'.docket request.id).firstFill? = (f.docket request.id).firstFill?) := by
  intro f' check?
  cases hreach : (c.models overrides).reach? board o now f.memory with
  | none =>
    have hcheck : check? = none := congrArg (Option.map _) hreach
    obtain ⟨hkept, hstatus, hfirst⟩ := h.visit_of_unasked hs hid ho hb hreach
    refine ⟨hkept, iff_of_false hstatus ?_, fun _ => hfirst⟩
    rintro ⟨check, hsome, -⟩
    cases hcheck.symm.trans hsome
  | some seen =>
    obtain ⟨posted, u⟩ := seen
    obtain ⟨-, hposted, -⟩ := Models.reach?_eq_some hreach
    rw [(h.stored o hs).2.2.1, hb] at hposted
    obtain rfl : security = posted := Option.some.inj hposted
    have hcheck : check? = some (c.powerCheck overrides f.account security o) :=
      congrArg (Option.map _) hreach
    obtain ⟨hkept, hinvalid⟩ := h.visit_of_asked hslippage hprice hbuy hs hid ho hask hreach
    refine ⟨hkept, ?_, fun hnone => ?_⟩
    · rw [hinvalid, hcheck]
      simp only [Option.some.injEq, exists_eq_left']
    · cases hcheck.symm.trans hnone

/-- The pending ids of a floor with one order. -/
theorem pendingIds_eq (h : f.Purchase c overrides price cash request)
    (orderly : f.ledger.Orderly) :
    f.ledger.pendingIds = if f.ledger.isPending request.id then [request.id] else [] := by
  have honly : ∀ j ∈ f.ledger.pendingIds, j = request.id := by
    intro j hj
    obtain ⟨o, hs, -⟩ := (orderly.pending_iff j).mp (Ledger.mem_pendingIds.mp hj)
    exact h.alone j o hs
  have hmem : request.id ∈ f.ledger.pendingIds ↔ f.ledger.isPending request.id = true :=
    Ledger.mem_pendingIds
  have hnodup := f.ledger.pendingIds_nodup
  revert honly hmem hnodup
  generalize f.ledger.pendingIds = ids
  intro honly hmem hnodup
  -- a list without repetition that holds one id at most
  match ids with
  | [] =>
    rw [if_neg fun hp => List.not_mem_nil (hmem.mpr hp)]
  | [j] =>
    obtain rfl := honly j List.mem_cons_self
    rw [if_pos (hmem.mp List.mem_cons_self)]
  | j :: k :: rest =>
    obtain rfl := honly j List.mem_cons_self
    obtain rfl := honly k (List.mem_cons_of_mem _ List.mem_cons_self)
    exact absurd List.mem_cons_self (List.nodup_cons.mp hnodup).1

/-- A pass over a floor with one order is a look at it, if it is pending. -/
theorem pass_eq (h : f.Purchase c overrides price cash request) (orderly : f.ledger.Orderly) :
    (f.pass (c.models overrides) board now).1 = if f.ledger.isPending request.id then
      (f.visit (c.models overrides) board now request.id).1 else f := by
  rw [pass, h.pendingIds_eq orderly]
  split
  · rw [visitAll_cons]
    rfl
  · rfl

theorem before_eq (h : f.Purchase c overrides price cash request) (orderly : f.ledger.Orderly) :
    f.before (c.models overrides) board now request.id = f := by
  have hnone : f.ledger.pendingIds.filter (· < request.id) = [] := by
    rw [h.pendingIds_eq orderly, List.filter_eq_nil_iff]
    intro j hj
    split at hj
    · obtain rfl := List.mem_singleton.mp hj
      simp
    · cases hj
  rw [before, hnone]
  rfl

end Looks

end Purchase

end Floor

end TradingDesk
