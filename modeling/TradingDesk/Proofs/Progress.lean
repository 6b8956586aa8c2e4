import TradingDesk.Proofs.Exact
import TradingDesk.Proofs.Sound
import TradingDesk.Proofs.Rules
/- Proofs.Progress — the built-in rules never fill more than was asked for.

   In exact arithmetic an order that was placed without a fill is on course after
   every run: its fill progress is a part of its quantity, it has a quantity that
   counts left as long as it is open and none once it is filled, and all of its
   fills are on its side. One fill keeps this because it is a part of what is
   left, an update because it stays on its side and above the fill progress. -/
namespace TradingDesk

/-! ## The quantity of one fill -/

theorem Usage.draw_bounds (u : Usage Rat) (share : Rat) (symbol : String) (bar : Bar Rat)
    {wanted : Rat} (hw : 0 ≤ wanted) :
    0 ≤ (u.draw share symbol bar wanted).1 ∧ (u.draw share symbol bar wanted).1 ≤ wanted := by
  have ha : 0 ≤ u.allowance share symbol bar := by
    rw [allowance, Scalar.max_rat]
    exact le_max_right _ _
  simp only [draw]
  split
  · exact ⟨le_refl 0, hw⟩
  · rw [Scalar.min_rat]
    exact ⟨le_min hw ha, min_le_left _ _⟩

theorem Order.leavesSale_iff {o : Order Rat} : o.leavesSale = true ↔ o.remaining < 0 := by
  rw [leavesSale, Scalar.cancels_rat, Bool.or_false, Scalar.isNegative_iff]

/-- One evaluation of an order fills a part of what is left of it. -/
theorem FillConfig.fillQuantity_partOf (c : FillConfig Rat) (security : Snapshot Rat)
    (order : Order Rat) (u : Usage Rat) :
    PartOf (c.fillQuantity security order u).1 order.remaining := by
  unfold fillQuantity
  split
  · next share bar _ _ =>
    have hwanted : 0 ≤ Scalar.abs order.remaining := by
      rw [Scalar.abs_rat]; exact abs_nonneg _
    obtain ⟨hnonneg, hle⟩ := u.draw_bounds share security.symbol bar hwanted
    revert hnonneg hle
    generalize u.draw share security.symbol bar (Scalar.abs order.remaining) = drawn
    obtain ⟨size, u'⟩ := drawn
    intro hnonneg hle
    rw [Scalar.abs_rat] at hle
    by_cases hs : order.leavesSale = true
    · simp only [if_pos hs]
      rw [abs_of_neg (Order.leavesSale_iff.mp hs)] at hle
      exact .inr ⟨by linarith, by linarith⟩
    · simp only [if_neg hs]
      rw [abs_of_nonneg (not_lt.mp fun h => hs (Order.leavesSale_iff.mpr h))] at hle
      exact .inl ⟨hnonneg, hle⟩
  · exact (le_total 0 order.remaining).imp (fun h => ⟨h, le_refl _⟩) fun h => ⟨le_refl _, h⟩

namespace Order

variable {o stored : Order Rat}

/-- What is left of an order counts, or is left out. -/
theorem remaining_of_left (h : Scalar.tolerance ≤ |o.quantity - o.filled|) :
    o.remaining = o.quantity - o.filled := by
  have hn : ¬ Scalar.negligible (o.quantity - o.filled) = true :=
    fun hn => absurd (Scalar.negligible_iff.mp hn) (not_lt.mpr h)
  simp only [remaining]
  rw [if_neg hn]

/-! ## Orders on course -/

/-- The order is filled as far as its status says, and not beyond its quantity. -/
structure OnCourse (o : Order Rat) : Prop where
  part : PartOf o.filled o.quantity
  left : o.status.isTerminal = false → Scalar.tolerance ≤ |o.quantity - o.filled|
  done : o.status = .filled → |o.quantity - o.filled| < Scalar.tolerance

theorem tolerance_le_of_validate (h : o.validate.isOk = true) :
    Scalar.tolerance ≤ |o.quantity| := by
  have hn := negligible_of_validate h
  rw [← not_lt]
  exact fun hlt => absurd (Scalar.negligible_iff.mpr hlt) (by rw [hn]; decide)

theorem onCourse_filed (hv : o.validate.isOk = true) (hf : o.filled = 0) :
    (Desk.filedOrder o).OnCourse where
  part := by
    rw [Desk.filedOrder_filled, Desk.filedOrder_quantity, hf]
    exact .zero _
  left _ := by
    rw [Desk.filedOrder_filled, Desk.filedOrder_quantity, hf, sub_zero]
    exact tolerance_le_of_validate hv
  done hs := by
    rw [Desk.filedOrder_status] at hs
    cases hs

/-- An open order on course has a quantity that counts. -/
theorem OnCourse.tolerance_le (h : o.OnCourse) (ho : o.status.isTerminal = false) :
    Scalar.tolerance ≤ |o.quantity| := by
  have hleft := h.left ho
  rw [h.part.abs_sub] at hleft
  linarith [abs_nonneg o.filled]

theorem OnCourse.sign_applyUpdate (h : stored.OnCourse) (ho : stored.status.isTerminal = false)
    (request : Order Rat) (hv : (stored.validateUpdate request).isOk = true) :
    SignType.sign (stored.applyUpdate (Desk.named request)).quantity =
      SignType.sign stored.quantity := by
  obtain ⟨hvalid, hside, -⟩ := validateUpdate_ok hv
  rw [applyUpdate_quantity, Desk.named, addBrokerId_quantity]
  exact Scalar.sign_eq_of_sameSign hside
    (Scalar.ne_zero_of_tolerance_le (tolerance_le_of_validate hvalid))
    (Scalar.ne_zero_of_tolerance_le (h.tolerance_le ho))

theorem OnCourse.applyUpdate (h : stored.OnCourse) (ho : stored.status.isTerminal = false)
    (request : Order Rat) (hv : (stored.validateUpdate request).isOk = true) :
    (stored.applyUpdate (Desk.named request)).OnCourse := by
  obtain ⟨-, hside, hroom⟩ := validateUpdate_ok hv
  have hq : (stored.applyUpdate (Desk.named request)).quantity = request.quantity :=
    (applyUpdate_quantity _ _).trans (request.addBrokerId_quantity _)
  rw [Scalar.abs_rat, Scalar.abs_rat, not_lt] at hroom
  have hle : |stored.filled| ≤ |request.quantity| := by
    linarith [Scalar.tolerance_pos]
  have hpart : PartOf stored.filled request.quantity :=
    h.part.resize (Scalar.sameSign_iff.mp hside) hle
  refine ⟨?_, fun _ => ?_, fun hs => ?_⟩
  · rw [applyUpdate_filled, hq]
    exact hpart
  · rw [applyUpdate_filled, hq, hpart.abs_sub]
    exact hroom
  · rw [applyUpdate_status] at hs
    rw [hs] at ho
    cases ho

theorem OnCourse.closed (h : o.OnCourse) {s : OrderStatus} (hs : s = .invalid ∨ s = .canceled) :
    ({ o with status := s } : Order Rat).OnCourse where
  part := h.part
  left ho := by rcases hs with rfl | rfl <;> cases ho
  done hd := by rcases hs with rfl | rfl <;> cases hd

theorem booked_of_fillQuantity_eq_zero {event : OrderEvent Rat} (h : event.fillQuantity = 0) :
    o.booked event = { o with status := event.status } := by
  rw [booked, h, add_zero]

/-- What the rules draw of an open order keeps it on course, and fills on its side. -/
theorem OnCourse.drawn {c : FillConfig Rat} {security : Snapshot Rat} {now : Instant}
    {event : OrderEvent Rat} (h : o.OnCourse) (ho : o.status.isTerminal = false)
    (hd : c.Draws security o now event) :
    (o.booked event).OnCourse ∧
      (event.fillQuantity ≠ 0 → SignType.sign event.fillQuantity = SignType.sign o.quantity) := by
  have hunchanged : (o.booked (OrderEvent.unchanged o now)).OnCourse := by
    rw [booked_of_fillQuantity_eq_zero rfl]
    exact h
  rcases hd with rfl | ⟨price, u, rfl⟩
  · exact ⟨hunchanged, fun hne => absurd rfl hne⟩
  have hpart := c.fillQuantity_partOf security o u
  revert hpart
  generalize (c.fillQuantity security o u).1 = quantity
  intro hpart
  -- the order is open, so what is left of it counts and is the plain difference
  have hr := remaining_of_left (h.left ho)
  rcases FillConfig.filled_cases o now price quantity with he | ⟨hquantity, hstatus⟩
  · rw [he]
    exact ⟨hunchanged, fun hne => absurd rfl hne⟩
  · have hrest : o.quantity - (o.filled + quantity) = o.remaining - quantity := by
      rw [hr, sub_add_eq_sub_sub]
    have hpart' : PartOf quantity (o.quantity - o.filled) := hr ▸ hpart
    rw [booked, hquantity, hstatus]
    refine ⟨?_, (hpart'.trans h.part.rest).sign_eq⟩
    by_cases hn : Scalar.negligible (o.remaining - quantity) = true
    · rw [if_pos hn]
      refine ⟨h.part.add hpart', nofun, fun _ => ?_⟩
      rw [hrest]
      exact Scalar.negligible_iff.mp hn
    · rw [if_neg hn]
      refine ⟨h.part.add hpart', fun _ => ?_, nofun⟩
      rw [hrest]
      exact not_lt.mp fun hlt => hn (Scalar.negligible_iff.mpr hlt)

/-- Booking what a pass issues about an open order keeps it on course, and fills on its side. -/
theorem OnCourse.issued {σ : Type} {models : Models Rat σ} {c : FillConfig Rat} {now : Instant}
    {event : OrderEvent Rat} {kind : OrderKind Rat} (h : o.OnCourse)
    (rules : models.fill.FollowsRules c) (ho : o.status.isTerminal = false)
    (hi : models.Issues now o event kind) :
    (o.booked event).OnCourse ∧
      (event.fillQuantity ≠ 0 → SignType.sign event.fillQuantity = SignType.sign o.quantity) := by
  cases hi with
  | closing message hs =>
    rw [booked_of_fillQuantity_eq_zero rfl]
    exact ⟨h.closed hs, fun hne => absurd rfl hne⟩
  | answer hattempt =>
    obtain ⟨answered, fee, ha, rfl⟩ := Models.attemptFill_ok hattempt
    -- the fee is of no account to the order
    have hdrawn := h.drawn ho (rules _ _ _ answered _ ha)
    exact hdrawn

end Order

/-! ## Dockets on course -/

/-- Every fill among the events is on one side. -/
def FillsOn (side : SignType) (events : List (OrderEvent Rat)) : Prop :=
  ∀ e ∈ events, e.fillQuantity ≠ 0 → SignType.sign e.fillQuantity = side

theorem FillsOn.concat {side : SignType} {events : List (OrderEvent Rat)} {e : OrderEvent Rat}
    (h : FillsOn side events) (he : e.fillQuantity ≠ 0 → SignType.sign e.fillQuantity = side) :
    FillsOn side (events ++ [e]) := by
  intro e' he'
  rcases List.mem_append.mp he' with he' | he'
  · exact h e' he'
  · rw [List.mem_singleton.mp he']
    exact he

namespace Docket

variable {σ : Type} {models : Models Rat σ} {c : FillConfig Rat} {id : OrderId}
  {k k' : Docket Rat}

/-- The order is stored and on course, and its fills are on its side. -/
def OnCourse (k : Docket Rat) : Prop :=
  ∃ o, k.order = some o ∧ o.OnCourse ∧ FillsOn (SignType.sign o.quantity) k.events

theorem Turn.onCourse (rules : models.fill.FollowsRules c) (h : Turn models id k k')
    (hs : k.Sound id) (hk : k.OnCourse) : k'.OnCourse := by
  obtain ⟨o, ho, hc, hfills⟩ := hk
  cases h with
  | place => cases ho
  | update request time hv =>
    cases ho
    have hside := hc.sign_applyUpdate hs.isOpen request hv
    refine ⟨_, rfl, hc.applyUpdate hs.isOpen request hv, ?_⟩
    rw [hside]
    exact hfills.concat fun hne => absurd rfl hne
  | cancel time =>
    cases ho
    exact ⟨_, rfl, hc.closed (.inr rfl), hfills.concat fun hne => absurd rfl hne⟩
  | rekind hopen hi =>
    cases ho
    exact ⟨_, rfl, ⟨hc.part, hc.left, hc.done⟩, hfills⟩
  | @book stored asked pending events now event issued kind ha hi hid hkind =>
    cases ho
    obtain rfl := hi.asked_eq rules.keepsToOrder hid hkind
    obtain ⟨hbooked, hside⟩ := hc.issued rules (OrderStatus.isOpen_of_allows ha) hi
    exact ⟨_, rfl, ⟨hbooked.part, hbooked.left, hbooked.done⟩, hfills.concat hside⟩
  | drop hdone => exact ⟨o, ho, hc, hfills⟩

theorem onCourse_placed {request : Order Rat} (hv : request.validate.isOk = true)
    (hfresh : request.filled = 0) (time : Instant) :
    (⟨some (Desk.filedOrder request), true,
      [OrderEvent.of (Desk.filedOrder request) time .submitted]⟩ : Docket Rat).OnCourse := by
  refine ⟨_, rfl, Order.onCourse_filed hv hfresh, fun e he hne => ?_⟩
  rw [List.mem_singleton.mp he] at hne
  exact absurd rfl hne

theorem onCourse_of_turns (rules : models.fill.FollowsRules c)
    (h : Relation.ReflTransGen (Turn models id) k k') (hs : k.Sound id) (hk : k.OnCourse) :
    k'.OnCourse := by
  induction h with
  | refl => exact hk
  | tail hturns hturn ih => exact hturn.onCourse rules (sound_of_turns hturns hs) ih

end Docket

namespace Desk

variable {σ : Type} {models : Models Rat σ} {c : FillConfig Rat}

/-- Every accepted order that was placed without a fill is on course. -/
theorem run_onCourse {account : Portfolio Rat} {memory : σ} {actions : List (Action Rat)}
    {request : Order Rat} (rules : models.fill.FollowsRules c)
    (haccepts : Accepts models (opening account memory) actions request)
    (hfresh : request.filled = 0) :
    (((opening account memory).run models actions).docket request.id).OnCourse := by
  obtain ⟨time, hturns⟩ := run_turns_of_accepted haccepts
  exact Docket.onCourse_of_turns rules hturns (Docket.sound_placed request time)
    (Docket.onCourse_placed (validate_of_accepts haccepts) hfresh time)

/-- An event of a step that leaves an order partially filled leaves a quantity that counts. -/
theorem step_partiallyFilled {d : Desk Rat σ} {id : OrderId} (rules : models.fill.FollowsRules c)
    (hf : d.ledger.WellFiled) (hs : (d.docket id).Sound id) (hd : (d.docket id).OnCourse)
    (a : Action Rat) :
    ∃ published, (d.step models a).log = d.log ++ published ∧
      ∀ e ∈ published, e.orderId = id → e.status = .partiallyFilled →
        ∃ after, (d.step models a).order? id = some after ∧
          Scalar.tolerance ≤ |after.quantity - after.filled| := by
  have hstep := step_stepped models hf a
  obtain ⟨published, hlog⟩ := hstep.log_prefix hf
  refine ⟨published, hlog.symm, ?_⟩
  rintro e he rfl hstatus
  obtain ⟨hturn, o, ho, hlast⟩ :=
    hstep.turn_of_published hf rules.keepsToOrder hlog.symm he
  obtain ⟨after, ha, hcourse, -⟩ := hturn.onCourse rules hs hd
  obtain rfl := Option.some.inj (ho.symm.trans ha)
  refine ⟨o, ho, hcourse.left ?_⟩
  -- the order is partially filled now, and so still open
  rcases hlast with hlast | ⟨-, hlast⟩
  · rw [← hlast, hstatus]; rfl
  · rw [hstatus] at hlast; cases hlast

/-- No order is filled beyond its quantity by the built-in rules, whatever the other models do.
After every run, an accepted order that was placed without a fill has had fills on its side alone,
its fill progress is nothing or on its side and at most its quantity as it stands, and it is filled
only when nothing that counts is left; and whatever the desk does next, an event that leaves the
order partially filled leaves a quantity that counts. -/
theorem run_progress (c : FillConfig Rat) (models : Models Rat σ) (account : Portfolio Rat)
    (memory : Usage Rat × σ) (actions : List (Action Rat)) (request : Order Rat)
    (haccepts : Accepts (models.withFill c.fillModel) (opening account memory) actions request)
    (hfresh : request.filled = 0) :
    let suite := models.withFill c.fillModel
    let d := (opening account memory).run suite actions
    ∃ stored, d.order? request.id = some stored ∧
      (∀ e ∈ eventsOf d.log request.id, e.fillQuantity ≠ 0 →
        SignType.sign e.fillQuantity = SignType.sign stored.quantity) ∧
      (stored.filled = 0 ∨ SignType.sign stored.filled = SignType.sign stored.quantity) ∧
      |stored.filled| ≤ |stored.quantity| ∧
      (stored.status = .filled →
        |stored.quantity - stored.filled| < Scalar.tolerance) ∧
      ∀ a : Action Rat, ∃ published, (d.step suite a).log = d.log ++ published ∧
        ∀ e ∈ published, e.orderId = request.id → e.status = .partiallyFilled →
          ∃ after, (d.step suite a).order? request.id = some after ∧
            Scalar.tolerance ≤ |after.quantity - after.filled| := by
  intro suite d
  have rules : suite.fill.FollowsRules c := models.withFill_followsRules c
  have hcourse : (d.docket request.id).OnCourse := run_onCourse rules haccepts hfresh
  have hf : d.ledger.WellFiled := run_wellFiled suite (opening_wellFiled account memory) actions
  have hsound : (d.docket request.id).Sound request.id :=
    run_sound suite account memory actions request.id
  obtain ⟨stored, hs, ho, hfills⟩ := hcourse
  refine ⟨stored, hs, hfills, ?_, ho.part.abs_le, ho.done, fun a => ?_⟩
  · by_cases hz : stored.filled = 0
    · exact .inl hz
    · exact .inr (ho.part.sign_eq hz)
  · exact step_partiallyFilled rules hf hsound ⟨stored, hs, ho, hfills⟩ a

/-- A sale that is filled in part, resized and filled to the end over three bars. -/
theorem run_progress_of_resized_sale :
    let c : FillConfig Rat := ⟨0, 1 / 100, some (1 / 2)⟩
    let models : Models Rat (Usage Rat) := Config.default.models Table.empty
    let start : Portfolio Rat := Portfolio.ofCash "USD" 5000
    let sell : Order Rat :=
      { id := 9, symbol := "SPY", quantity := -10, kind := .market, time := ⟨0⟩, filled := 0 }
    let bar (t : Int) : Action Rat := .showSnapshot (Snapshot.ofBar "SPY" (Bar.flat ⟨t⟩ 100 12))
    let actions := [bar 60, .place sell, .scan ⟨60⟩, .update { sell with quantity := -15 }, bar 120,
      .scan ⟨120⟩, bar 180, .scan ⟨180⟩]
    let d := (opening start (Table.empty, Table.empty)).run (models.withFill c.fillModel) actions
    Accepts (models.withFill c.fillModel) (opening start (Table.empty, Table.empty)) actions
        sell ∧
      (eventsOf d.log 9).map (fun e => (e.status, e.fillQuantity)) =
        [(.submitted, 0), (.partiallyFilled, -6), (.submitted, 0), (.partiallyFilled, -6),
          (.filled, -3)] ∧
      ∃ stored, d.order? 9 = some stored ∧ |stored.filled| ≤ |stored.quantity| := by
  intro c models start sell bar actions d
  have haccepts : Accepts (models.withFill c.fillModel) (opening start (Table.empty, Table.empty))
      actions sell :=
    ⟨[bar 60], [.scan ⟨60⟩, .update { sell with quantity := -15 }, bar 120, .scan ⟨120⟩, bar 180,
      .scan ⟨180⟩], rfl, by decide +kernel⟩
  obtain ⟨stored, hs, -, -, hle, -⟩ :=
    run_progress c models start (Table.empty, Table.empty) actions sell haccepts rfl
  exact ⟨haccepts, by decide +kernel, stored, hs, hle⟩

end Desk

end TradingDesk
