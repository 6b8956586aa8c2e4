import Mathlib.Algebra.Order.Field.Rat
import TradingDesk.Proofs.Admission
import TradingDesk.Proofs.Pending
import TradingDesk.Proofs.Progress
/- Proofs.Tradable — whether open orders have something left to trade.

   An order can trade if what is left of it counts and is on the side of its quantity.
   In exact arithmetic nothing that a desk does to an open order takes this away: a fill
   of the built-in rules is a part of what is left, and an update that is accepted leaves
   more than the fill progress on its side (`Docket.Turn.tradable`).

   A placement is not looked at in this way. Its fill progress comes from the caller and
   is stored as it is, so every open order can trade exactly if every accepted placement
   could (`run_openOrders_canTrade_iff`). -/
namespace TradingDesk

namespace Order

variable {o stored : Order Rat}

/-- A quantity that counts is left to fill, on the side of the order. -/
def CanTrade (o : Order Rat) : Prop :=
  o.remaining ≠ 0 ∧ SignType.sign o.remaining = SignType.sign o.quantity

instance (o : Order Rat) : Decidable o.CanTrade := inferInstanceAs (Decidable (_ ∧ _))

theorem remaining_congr {o' : Order Rat} (hq : o'.quantity = o.quantity)
    (hf : o'.filled = o.filled) : o'.remaining = o.remaining := by
  simp only [remaining, hq, hf]

/-- Nothing but the quantity and the fill progress matters. -/
theorem canTrade_congr {o' : Order Rat} (hq : o'.quantity = o.quantity)
    (hf : o'.filled = o.filled) : o'.CanTrade ↔ o.CanTrade := by
  rw [CanTrade, CanTrade, remaining_congr hq hf, hq]

/-- What is left of an order that can trade is the plain difference. -/
theorem CanTrade.remaining_eq (h : o.CanTrade) : o.remaining = o.quantity - o.filled := by
  apply remaining_of_left
  rw [← not_lt, ← Scalar.negligible_iff]
  intro hn
  exact h.1 (if_pos hn)

/-- A difference that counts, on the side of the quantity, makes an order that can trade. -/
theorem CanTrade.of_left (hleft : Scalar.tolerance ≤ |o.quantity - o.filled|)
    (hside : SignType.sign (o.quantity - o.filled) = SignType.sign o.quantity) : o.CanTrade := by
  rw [CanTrade, remaining_of_left hleft]
  exact ⟨Scalar.ne_zero_of_tolerance_le hleft, hside⟩

/-- Whatever was stored, an update that is accepted leaves an order that can trade. -/
theorem canTrade_applyUpdate (request : Order Rat)
    (hv : (stored.validateUpdate request).isOk = true) :
    (stored.applyUpdate (Desk.named request)).CanTrade := by
  obtain ⟨-, -, hroom⟩ := validateUpdate_ok hv
  rw [Scalar.abs_rat, Scalar.abs_rat, not_lt] at hroom
  have hq : (stored.applyUpdate (Desk.named request)).quantity = request.quantity :=
    (applyUpdate_quantity _ _).trans (request.addBrokerId_quantity _)
  have hf : (stored.applyUpdate (Desk.named request)).filled = stored.filled :=
    applyUpdate_filled _ _
  apply CanTrade.of_left
  · rw [hq, hf]
    exact hroom.trans (abs_sub_abs_le_abs_sub request.quantity stored.filled)
  · rw [hq, hf]
    apply Scalar.sign_sub_of_abs_lt
    linarith [Scalar.tolerance_pos]

/-- What the rules draw of an order that can trade fills it to the end, or leaves it able to
trade. -/
theorem CanTrade.drawn {c : FillConfig Rat} {security : Snapshot Rat} {now : Instant}
    {event : OrderEvent Rat} (h : o.CanTrade) (hd : c.Draws security o now event)
    (hopen : event.status.isTerminal = false) : (o.booked event).CanTrade := by
  have hunchanged : (o.booked (OrderEvent.unchanged o now)).CanTrade := by
    rw [booked_of_fillQuantity_eq_zero rfl]
    exact h
  rcases hd with rfl | ⟨price, u, rfl⟩
  · exact hunchanged
  have hpart := c.fillQuantity_partOf security o u
  revert hpart hopen
  generalize (c.fillQuantity security o u).1 = quantity
  intro hopen hpart
  obtain he | ⟨hquantity, hstatus⟩ := FillConfig.filled_cases o now price quantity
  · rw [he]
    exact hunchanged
  · -- the fill leaves the order open, so what it leaves over counts
    have hcounts : Scalar.tolerance ≤ |o.remaining - quantity| := by
      rw [hstatus] at hopen
      rw [← not_lt, ← Scalar.negligible_iff]
      intro hn
      rw [if_pos hn] at hopen
      cases hopen
    have hrest : (o.booked (FillConfig.filled o now price quantity)).quantity -
        (o.booked (FillConfig.filled o now price quantity)).filled = o.remaining - quantity := by
      rw [h.remaining_eq, booked, hquantity, sub_add_eq_sub_sub]
    apply CanTrade.of_left
    · rw [hrest]
      exact hcounts
    · rw [hrest, hpart.rest.sign_eq (Scalar.ne_zero_of_tolerance_le hcounts)]
      exact h.2

/-- Booking what a pass issues about an order that can trade closes it, or leaves it able to
trade. -/
theorem CanTrade.issued {σ : Type} {models : Models Rat σ} {c : FillConfig Rat} {now : Instant}
    {event : OrderEvent Rat} {kind : OrderKind Rat} (h : o.CanTrade)
    (rules : models.fill.FollowsRules c) (hi : models.Issues now o event kind)
    (hopen : event.status.isTerminal = false) : (o.booked event).CanTrade := by
  cases hi with
  | closing message hs =>
    have hterm : (OrderEvent.of o now _).status.isTerminal = false := hopen
    rcases hs with rfl | rfl <;> cases hterm
  | answer hattempt =>
    obtain ⟨answered, fee, ha, rfl⟩ := Models.attemptFill_ok hattempt
    -- the fee is of no account to the order
    have hdrawn : (o.booked answered).CanTrade := h.drawn (rules _ _ _ answered _ ha) hopen
    exact hdrawn

end Order

/-! ## Dockets -/

namespace Docket

variable {σ : Type} {models : Models Rat σ} {c : FillConfig Rat} {id : OrderId}
  {k k' : Docket Rat}

/-- An order is stored, and it can trade as long as it is open. -/
def Tradable (k : Docket Rat) : Prop :=
  ∃ o, k.order = some o ∧ (o.status.isTerminal = false → o.CanTrade)

theorem Turn.tradable (rules : models.fill.FollowsRules c) (h : Turn models id k k')
    (hk : k.Tradable) : k'.Tradable := by
  obtain ⟨o, ho, hc⟩ := hk
  cases h with
  | place => cases ho
  | update request time hv => exact ⟨_, rfl, fun _ => Order.canTrade_applyUpdate request hv⟩
  | cancel time => exact ⟨_, rfl, nofun⟩
  | rekind hopen hi =>
    cases ho
    exact ⟨_, rfl, fun _ => (Order.canTrade_congr rfl rfl).mpr (hc hopen)⟩
  | @book stored asked pending events now event issued kind ha hi hid hkind =>
    cases ho
    obtain rfl := hi.asked_eq rules.keepsToOrder hid hkind
    refine ⟨_, rfl, fun hopen => ?_⟩
    have hbooked := (hc (OrderStatus.isOpen_of_allows ha)).issued rules hi hopen
    exact (Order.canTrade_congr rfl rfl).mpr hbooked
  | drop hdone => exact ⟨o, ho, hc⟩

theorem tradable_of_turns (rules : models.fill.FollowsRules c)
    (h : Relation.ReflTransGen (Turn models id) k k') (hk : k.Tradable) : k'.Tradable := by
  induction h with
  | refl => exact hk
  | tail _ hturn ih => exact hturn.tradable rules ih

end Docket

/-! ## Whole runs -/

namespace Desk

variable {τ : Type}

theorem Accepts.of_prefix {α σ : Type} [Scalar α] {models : Models α σ} {d : Desk α σ}
    {earlier actions : List (Action α)} {request : Order α} (h : Accepts models d earlier request)
    (hp : earlier <+: actions) : Accepts models d actions request := by
  obtain ⟨before, after, rfl, haccepted⟩ := h
  obtain ⟨later, rfl⟩ := hp
  exact ⟨before, after ++ later, by simp, haccepted⟩

/-- Under the built-in rules, with other models of any kind, every open order can trade at every
point of a run exactly if every placement that the run accepts can. -/
theorem run_openOrders_canTrade_iff (c : FillConfig Rat) (models : Models Rat τ)
    (account : Portfolio Rat) (memory : Usage Rat × τ) (actions : List (Action Rat)) :
    let suite := models.withFill c.fillModel
    let start := opening account memory
    (∀ earlier, earlier <+: actions →
      ∀ o ∈ (start.run suite earlier).ledger.openOrders, o.CanTrade) ↔
    ∀ request, Accepts suite start actions request → request.CanTrade := by
  intro suite start
  have hfiled : ∀ request : Order Rat, (filedOrder request).CanTrade ↔ request.CanTrade :=
    fun request => Order.canTrade_congr (filedOrder_quantity request) (filedOrder_filled request)
  constructor
  · intro hopen request haccepts
    obtain ⟨earlier, later, rfl, haccepted⟩ := haccepts
    rw [← hfiled]
    apply hopen (earlier ++ [.place request]) (by simp)
    rw [run_mem_openOrders, filedOrder_id]
    refine ⟨?_, rfl⟩
    obtain ⟨l, hr, hp⟩ := place_of_accepts (place_accepted_iff.mp haccepted)
    rw [run_append, run_cons, step, hp]
    exact hr.get?_self
  · intro hrequests earlier hprefix o ho
    obtain ⟨hs, hopen⟩ := (run_mem_openOrders suite account memory earlier o).mp ho
    -- the order was placed by a request of its id, and has taken turns since
    have hplaced : ∃ request, Accepts suite start earlier request ∧ request.id = o.id := by
      by_contra hnone
      have hfree := (run_order?_eq_none_iff suite account memory earlier).mpr
        fun request haccepts hid => hnone ⟨request, haccepts, hid⟩
      rw [hfree] at hs
      cases hs
    obtain ⟨request, haccepts, hid⟩ := hplaced
    obtain ⟨time, hturns⟩ := run_turns_of_accepted haccepts
    have hrequest := hrequests request (haccepts.of_prefix hprefix)
    obtain ⟨o', ho', hcan⟩ := Docket.tradable_of_turns (models.withFill_followsRules c) hturns
      ⟨_, rfl, fun _ => (hfiled request).mpr hrequest⟩
    rw [hid] at ho'
    obtain rfl := Option.some.inj (ho'.symm.trans hs)
    exact hcan hopen

/-- A placement that was filled before it was placed is accepted. The first buys ten and has them,
so nothing of it is left; the second has twenty, so a pass sells ten for it. -/
theorem openOrders_cannot_trade :
    let c : FillConfig Rat := FillConfig.default
    let models : Models Rat (Usage Rat) := (Config.default : Config Rat).models Table.empty
    let suite := models.withFill c.fillModel
    let start := opening (Portfolio.ofCash "USD" 100000) ((Table.empty : Usage Rat), Table.empty)
    let buy (id : OrderId) (filled : Rat) : Order Rat :=
      { id := id, symbol := "SPY", quantity := 10, kind := .market, time := ⟨60⟩, filled := filled }
    let placed := start.run suite
      [.showSnapshot (Snapshot.ofBar "SPY" (Bar.flat ⟨60⟩ 100 50)), .place (buy 1 10),
        .place (buy 2 20)]
    let scanned := placed.scan suite ⟨60⟩
    placed.ledger.openOrders.map (fun o => (o.id, o.quantity, o.remaining)) =
        [(1, 10, 0), (2, 10, -10)] ∧
      (∀ o ∈ placed.ledger.openOrders, ¬ o.CanTrade) ∧
      (scanned.log.drop placed.log.length).map (fun e => (e.orderId, e.fillQuantity)) =
        [(2, -10)] ∧
      scanned.ledger.openOrders.map Order.id = [1] ∧ scanned.needsPass = true := by
  decide +kernel

end Desk

end TradingDesk
