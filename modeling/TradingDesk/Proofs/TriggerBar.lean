import TradingDesk.Proofs.FillPrice
import TradingDesk.Proofs.StopLimit
/- Proofs.TriggerBar — a stop-limit order on the bar that reaches its stop.

   A bar may be looked at more than once. The look that finds the stop reached puts the
   order to the rule for that bar: it trades at the price of the gap, if that is within the
   limit. Nothing records which bar it was, so to every further look at the same bar the
   order is a limit order: it trades at the price of its limit as soon as the bar crosses it
   and has something left. `FillsAt` says so of either part of a run, and
   `run_triggerBar_fills` puts the two together: the order keeps to the price of the gap
   on that bar exactly if no further look trades, or if the two prices are one. They are
   one where the bar opens at the stop or beyond, and within the limit
   (`crossPrice_eq_gapPrice_iff`). -/
namespace TradingDesk

variable {α : Type} [Scalar α]

/-- What the tolerance obeys in exact arithmetic as in rounded: zero does not reach it, and what
reaches it counts. -/
structure Scalar.ToleranceLaws (α : Type) [Scalar α] : Prop where
  zero_lt : ¬ (Scalar.tolerance : α) ≤ Scalar.abs 0
  counts : ∀ x : α, Scalar.tolerance ≤ Scalar.abs x → Scalar.negligible x = false

theorem Scalar.toleranceLaws_rat : Scalar.ToleranceLaws Rat where
  zero_lt := Scalar.tolerance_not_le_abs_zero
  counts x hx := by
    rw [← Bool.not_eq_true, Scalar.negligible_iff, not_lt, ← Scalar.abs_rat]
    exact hx

theorem Scalar.toleranceLaws_float : Scalar.ToleranceLaws Float where
  zero_lt := Scalar.finiteLaws_float.zero_lt
  counts _ := Floating.negligible_of_tolerance_le

/-! ## The two prices -/

namespace FillLook

/-- The look sees a bar with the time and the prices of another; its volume may have changed. -/
def SeesBar (look : FillLook α) (bar : Bar α) : Prop :=
  ∃ volume, look.security.bar = some { bar with volume := volume }

variable {look : FillLook α} {bar : Bar α}

theorem SeesBar.range_eq (h : look.SeesBar bar) (isBuy : Bool) :
    look.range isBuy = ⟨bar.opening, bar.low, bar.high⟩ := by
  obtain ⟨volume, hbar⟩ := h
  rw [range, hbar]

/-- Two looks at one bar see the same prices. -/
theorem SeesBar.prices_eq {look' : FillLook α} (h : look.SeesBar bar) (h' : look'.SeesBar bar)
    (isBuy : Bool) (limit : α) :
    look.crosses isBuy limit = look'.crosses isBuy limit ∧
      look.crossPrice isBuy limit = look'.crossPrice isBuy limit := by
  simp only [crosses, crossPrice, h.range_eq, h'.range_eq, and_self]

/-- The price of a limit is that of the gap exactly if the open is at the stop or beyond, and within
the limit. -/
theorem crossPrice_eq_gapPrice_iff {look : FillLook Rat} {isBuy : Bool} {stop limit : Rat} :
    look.crossPrice isBuy limit = look.gapPrice isBuy stop ↔
      withinLimit isBuy (look.range isBuy).opening limit = true ∧
        withinLimit isBuy stop (look.range isBuy).opening = true := by
  cases isBuy with
  | true =>
    rw [withinLimit_buy, withinLimit_buy, crossPrice, gapPrice, if_pos rfl, if_pos rfl,
      Scalar.min_rat, Scalar.max_rat]
    constructor
    · intro h
      have hlimit := (le_max_left _ stop).trans (h.ge.trans (min_le_right _ limit))
      rw [min_eq_left hlimit] at h
      exact ⟨hlimit, (le_max_right _ _).trans h.ge⟩
    · rintro ⟨hlimit, hstop⟩
      rw [min_eq_left hlimit, max_eq_left hstop]
  | false =>
    rw [withinLimit_sell, withinLimit_sell, crossPrice, gapPrice, if_neg Bool.false_ne_true,
      if_neg Bool.false_ne_true, Scalar.min_rat, Scalar.max_rat]
    constructor
    · intro h
      have hlimit := (le_max_right _ limit).trans (h.le.trans (min_le_left _ stop))
      rw [max_eq_left hlimit] at h
      exact ⟨hlimit, h.le.trans (min_le_right _ _)⟩
    · rintro ⟨hlimit, hstop⟩
      rw [max_eq_left hlimit, min_eq_left hstop]

end FillLook

/-! ## What a look fills -/

/-- Among the events there are fills exactly on one condition, and all at one price. -/
structure FillsAt (price : α) (traded : Prop) (events : List (OrderEvent α)) : Prop where
  price_eq : ∀ e ∈ events, e.isFill = true → e.fillPrice = price
  exists_iff : (∃ e ∈ events, e.isFill = true) ↔ traded

namespace FillsAt

variable {price : α} {traded traded' : Prop} {events : List (OrderEvent α)} {e : OrderEvent α}

theorem nil (htraded : ¬ traded) : FillsAt price traded [] := by
  refine ⟨fun e he => ?_, iff_of_false ?_ htraded⟩
  · cases he
  · rintro ⟨e, he, -⟩
    cases he

theorem congr (h : FillsAt price traded events) (htraded : traded ↔ traded') :
    FillsAt price traded' events := propext htraded ▸ h

theorem singleton (hprice : e.isFill = true → e.fillPrice = price)
    (htraded : e.isFill = true ↔ traded) : FillsAt price traded [e] := by
  refine ⟨List.forall_mem_singleton.mpr hprice, ?_⟩
  rw [← htraded]
  simp only [List.mem_singleton, exists_eq_left]

theorem append {later : List (OrderEvent α)} (h : FillsAt price traded events)
    (h' : FillsAt price traded' later) : FillsAt price (traded ∨ traded') (events ++ later) := by
  refine ⟨List.forall_mem_append.mpr ⟨h.price_eq, h'.price_eq⟩, ?_⟩
  rw [← h.exists_iff, ← h'.exists_iff]
  simp only [List.mem_append, or_and_right, exists_or]

end FillsAt

namespace FillConfig

variable {c : FillConfig α} {security : Snapshot α} {o : Order α} {now : Instant} {u : Usage α}
  {price : α}

theorem fillPrice_outcome (laws : Scalar.ToleranceLaws α)
    (h : (c.outcome security o now u).1.isFill = true) :
    c.price? security o = some (c.outcome security o now u).1.fillPrice :=
  price?_of_isFill laws.zero_lt ⟨u, _, dispatch_eq_outcome c security o now u⟩ h

/-- The bar leaves an order a quantity that counts. -/
def leaves (c : FillConfig α) (o : Order α) (seen : Snapshot α × Usage α) : Bool :=
  decide (Scalar.tolerance ≤ Scalar.abs (c.fillQuantity seen.1 o seen.2).1)

/-- Where its condition is met, an order is filled exactly if the bar leaves it something. -/
theorem isFill_outcome_iff (laws : Scalar.ToleranceLaws α)
    (hprice : c.price? security o = some price) (now : Instant) :
    (c.outcome security o now u).1.isFill = true ↔ c.leaves o (security, u) = true := by
  have hunchanged : (OrderEvent.unchanged o now).isFill = false := decide_eq_false laws.zero_lt
  simp only [outcome, hprice, filled, leaves, decide_eq_true_iff]
  split
  · next hnone =>
    rw [hunchanged]
    refine iff_of_false Bool.false_ne_true fun hcounts => ?_
    rw [laws.counts _ hcounts] at hnone
    cases hnone
  · exact decide_eq_true_iff

end FillConfig

namespace Docket.Examined

variable {c : Config α} {overrides : Table String (FeePlan α)} {o : Order α} {now : Instant}
  {k k' : Docket α} {seen : Option (Snapshot α × Usage α)}

/-- A look leaves an order its quantity, and its kind but for the mark of a stop that is reached. -/
theorem stored (h : Examined c overrides o now k k' seen) (ho : k.order = some o) :
    ∃ o', k'.order = some o' ∧ o'.quantity = o.quantity ∧
      o'.kind = o.kind.trigger (seen.any fun s => FillConfig.reachesStopOf s.1 o) := by
  cases h with
  | held => exact ⟨o, ho, rfl, (OrderKind.trigger_false o.kind).symm⟩
  | @closed event hs hquantity =>
    exact ⟨o.booked event, rfl, rfl, (OrderKind.trigger_false o.kind).symm⟩
  | @left security u hquiet => exact ⟨_, rfl, rfl, rfl⟩
  | @answered security u event price fee hprice hevent => exact ⟨_, rfl, rfl, rfl⟩

/-- A look fills an order exactly if its condition is met and the bar leaves it something, at the
price of the condition. -/
theorem fillsAt (laws : Scalar.ToleranceLaws α) (h : Examined c overrides o now k k' seen)
    (price : α) (met : Bool)
    (hrule : ∀ s, seen = some s → c.fill.price? s.1 o = if met then some price else none) :
    ∃ published, k'.events = k.events ++ published ∧
      FillsAt price (met = true ∧ seen.any (c.fill.leaves o) = true) published := by
  cases h with
  | held => exact ⟨[], (List.append_nil _).symm, .nil fun h => Bool.false_ne_true h.2⟩
  | @closed event hs hquantity =>
    have hfill : ¬ event.isFill = true := by
      rw [OrderEvent.isFill, hquantity]
      exact fun h => laws.zero_lt (of_decide_eq_true h)
    exact ⟨[event], rfl, .singleton (fun h => absurd h hfill)
      (iff_of_false hfill fun h => Bool.false_ne_true h.2)⟩
  | @left security u hunfilled =>
    refine ⟨[], (List.append_nil _).symm, .nil ?_⟩
    rintro ⟨rfl, hleaves⟩
    have hprice : c.fill.price? security o = some price := hrule (security, u) rfl
    rw [Option.any_some, ← FillConfig.isFill_outcome_iff laws hprice now, hunfilled] at hleaves
    cases hleaves
  | @answered security u event at_ fee hprice hevent =>
    have hrule := hrule (security, u) rfl
    rw [hprice] at hrule
    cases met with
    | false => cases hrule
    | true =>
      obtain rfl := Option.some.inj hrule
      subst hevent
      refine ⟨_, rfl, .singleton (fun hfill => ?_) ?_⟩
      · have hat := FillConfig.fillPrice_outcome laws hfill
        exact Option.some.inj (hat.symm.trans hprice)
      · rw [Option.any_some, eq_self_iff_true, true_and]
        exact FillConfig.isFill_outcome_iff laws hprice now

end Docket.Examined

/-! ## What a run fills -/

namespace Desk

variable {c : Config α} {overrides : Table String (FeePlan α)} {d : Desk α (Usage α)}
  {id : OrderId} {o : Order α} {a : Action α} {stop limit : α} {bar : Bar α}

/-- What a scan puts the order under an id to the rules with, if it does. -/
def rulesSee? (c : Config α) (overrides : Table String (FeePlan α)) (d : Desk α (Usage α))
    (now : Instant) (id : OrderId) : Option (Snapshot α × Usage α) :=
  (d.fillStage? (c.models overrides) now id).map
    (·, (d.toFloor.before (c.models overrides) d.board now id).memory)

/-- An action is a scan that puts the order under an id to the rules, with something left for it of
the bar. -/
def offers (c : Config α) (overrides : Table String (FeePlan α)) (id : OrderId)
    (d : Desk α (Usage α)) : Action α → Bool
  | .scan now => (d.order? id).any fun o => (d.rulesSee? c overrides now id).any (c.fill.leaves o)
  | _ => false

/-- A scan of a run does so. -/
def offered (c : Config α) (overrides : Table String (FeePlan α)) (id : OrderId) :
    Desk α (Usage α) → List (Action α) → Bool
  | _, [] => false
  | d, a :: later =>
    d.offers c overrides id a || offered c overrides id (d.step (c.models overrides) a) later

theorem offered_concat (later : List (Action α)) (a : Action α) :
    d.offered c overrides id (later ++ [a]) =
      (d.offered c overrides id later ||
        (d.run (c.models overrides) later).offers c overrides id a) := by
  induction later generalizing d with
  | nil => simp [offered, run]
  | cons b later ih =>
    rw [List.cons_append, offered, ih, offered, Bool.or_assoc]
    rfl

/-- Only an open order is put to the rules. -/
theorem isOpen_of_fillStage? {security : Snapshot α} {now : Instant} (orderly : d.ledger.Orderly)
    (hs : d.order? id = some o)
    (hstage : d.fillStage? (c.models overrides) now id = some security) :
    o.status.isTerminal = false := by
  cases hp : d.ledger.isPending id with
  | false =>
    rw [fillStage?_of_not_pending orderly.wellFiled c.models_followsRules.keepsToOrder hp] at hstage
    cases hstage
  | true =>
    obtain ⟨o', hs', hopen⟩ := (orderly.pending_iff id).mp hp
    rwa [Option.some.inj (hs.symm.trans hs')]

/-- The order under an id is a stop-limit order of a side whose stop is marked as reached. -/
def Armed {σ : Type} (d : Desk α σ) (id : OrderId) (isBuy : Bool) (stop limit : α) : Prop :=
  ∃ o, d.order? id = some o ∧ o.isBuy = isBuy ∧ o.kind = .stopLimit stop limit true

/-- A scan that puts a stop-limit order to the rules, with its stop not reached before, on a bar
that reaches it. It fills the order at the price of the gap, if that is within the limit and the bar
has something left, and marks the stop. -/
theorem scan_trigger (laws : Scalar.ToleranceLaws α) (orderly : d.ledger.Orderly)
    (hs : d.order? id = some o) (hkind : o.kind = .stopLimit stop limit false) {now : Instant}
    {security : Snapshot α}
    (hstage : d.fillStage? (c.models overrides) now id = some security)
    (hreached : (⟨security, now⟩ : FillLook α).reaches o.isBuy stop = true) :
    ∃ published, eventsOf (d.step (c.models overrides) (.scan now)).log id =
        eventsOf d.log id ++ published ∧
      FillsAt ((⟨security, now⟩ : FillLook α).gapPrice o.isBuy stop)
        (withinLimit o.isBuy ((⟨security, now⟩ : FillLook α).gapPrice o.isBuy stop) limit = true ∧
          d.offers c overrides id (.scan now) = true) published ∧
      (d.step (c.models overrides) (.scan now)).Armed id o.isBuy stop limit := by
  have hopen := isOpen_of_fillStage? orderly hs hstage
  have hseen : ∃ u, d.rulesSee? c overrides now id = some (security, u) := by
    rw [rulesSee?, hstage]
    exact ⟨_, rfl⟩
  obtain ⟨u, hseen⟩ := hseen
  have hlook := scan_examined c overrides laws.zero_lt orderly hs hopen now
  rw [← rulesSee?, hseen] at hlook
  have hoffers : d.offers c overrides id (.scan now) = c.fill.leaves o (security, u) := by
    rw [offers, hs, hseen]
    rfl
  rw [FillLook.reaches_eq] at hreached
  rw [FillLook.gapPrice_eq, hoffers]
  obtain ⟨published, hevents, hfills⟩ := hlook.fillsAt laws
    (security.stopCross o.isBuy stop)
    (withinLimit o.isBuy (security.stopCross o.isBuy stop) limit) (by
      rintro s hs'
      obtain rfl := Option.some.inj hs'
      simp only [FillConfig.price?, hkind, Bool.false_eq_true, if_false, hreached, if_true]
      rfl)
  obtain ⟨o', ho', hquantity, hkind'⟩ := hlook.stored hs
  refine ⟨published, hevents, hfills, o', ho', Order.isBuy_congr hquantity, ?_⟩
  rw [hkind', hkind, Option.any_some, FillConfig.reachesStopOf, hkind]
  show OrderKind.stopLimit stop limit (false || security.reachesStop o.isBuy stop) = _
  rw [hreached, Bool.false_or]

variable {isBuy : Bool} {trigger : FillLook α}

/-- Once its stop is marked, a scan that puts the order to the rules on the same bar fills it at the
price of its limit, if the bar crosses the limit and has something left. -/
theorem scan_armed (laws : Scalar.ToleranceLaws α) (orderly : d.ledger.Orderly)
    (hs : d.order? id = some o) (hopen : o.status.isTerminal = false)
    (hkind : o.kind = .stopLimit stop limit true) (hbar : trigger.SeesBar bar) {now : Instant}
    (hsees : ∀ look, d.fillLook? (c.models overrides) id (.scan now) = some look →
      look.SeesBar bar) :
    ∃ published, eventsOf (d.step (c.models overrides) (.scan now)).log id =
        eventsOf d.log id ++ published ∧
      FillsAt (trigger.crossPrice o.isBuy limit) (trigger.crosses o.isBuy limit = true ∧
        d.offers c overrides id (.scan now) = true) published ∧
      (d.step (c.models overrides) (.scan now)).Armed id o.isBuy stop limit := by
  have hlook := scan_examined c overrides laws.zero_lt orderly hs hopen now
  rw [← rulesSee?] at hlook
  have hoffers : d.offers c overrides id (.scan now) =
      (d.rulesSee? c overrides now id).any (c.fill.leaves o) := by
    rw [offers, hs, Option.any_some]
  rw [hoffers]
  obtain ⟨published, hevents, hfills⟩ := hlook.fillsAt laws
    (trigger.crossPrice o.isBuy limit) (trigger.crosses o.isBuy limit) (by
      intro s hseen
      obtain ⟨security, hstage, rfl⟩ := Option.map_eq_some_iff.mp hseen
      have hsame := (hsees ⟨security, now⟩ (by rw [fillLook?, hstage]; rfl)).prices_eq hbar
        o.isBuy limit
      simp only [FillConfig.price?, hkind, if_true]
      rw [FillLook.limitCross?_eq now, hsame.1, hsame.2])
  obtain ⟨o', ho', hquantity, hkind'⟩ := hlook.stored hs
  refine ⟨published, hevents, hfills, o', ho', Order.isBuy_congr hquantity, ?_⟩
  rw [hkind', hkind]
  rfl

/-- So it is with every action that does not update the order. -/
theorem step_armed (laws : Scalar.ToleranceLaws α) (orderly : d.ledger.Orderly)
    (sound : (d.docket id).Sound id) (harmed : d.Armed id isBuy stop limit)
    (hbar : trigger.SeesBar bar)
    (hsees : ∀ look, d.fillLook? (c.models overrides) id a = some look → look.SeesBar bar)
    (hnever : ∀ update, a = .update update → update.id = id →
      (d.update update).accepted = false) :
    ∃ published, eventsOf (d.step (c.models overrides) a).log id =
        eventsOf d.log id ++ published ∧
      FillsAt (trigger.crossPrice isBuy limit) (trigger.crosses isBuy limit = true ∧
        d.offers c overrides id a = true) published ∧
      (d.step (c.models overrides) a).Armed id isBuy stop limit := by
  obtain ⟨o, hs, rfl, hkind⟩ := harmed
  have hquiet : d.offers c overrides id a = false →
      (d.step (c.models overrides) a).docket id = d.docket id →
      ∃ published, eventsOf (d.step (c.models overrides) a).log id =
          eventsOf d.log id ++ published ∧
        FillsAt (trigger.crossPrice o.isBuy limit) (trigger.crosses o.isBuy limit = true ∧
          d.offers c overrides id a = true) published ∧
        (d.step (c.models overrides) a).Armed id o.isBuy stop limit := by
    intro hoffers hsame
    refine ⟨[], ?_, .nil fun h => ?_, o, (congrArg Docket.order hsame).trans hs, rfl, hkind⟩
    · rw [List.append_nil]
      exact congrArg Docket.events hsame
    · rw [hoffers] at h
      exact Bool.false_ne_true h.2
  by_cases hscan : ∃ now, a = .scan now
  · obtain ⟨now, rfl⟩ := hscan
    cases hterm : o.status.isTerminal with
    | false => exact scan_armed laws orderly hs hterm hkind hbar hsees
    | true =>
      have hp : d.ledger.isPending id = false := by
        rw [show d.ledger.isPending id = _ from sound.pending_eq o hs, hterm]
        rfl
      refine hquiet ?_ (run_docket_of_closed orderly.wellFiled sound hs hterm [.scan now])
      rw [offers, rulesSee?, fillStage?_of_not_pending orderly.wellFiled
        c.models_followsRules.keepsToOrder hp]
      cases d.order? id <;> rfl
  · have hoffers : d.offers c overrides id a = false := by
      cases a with
      | scan now => exact absurd ⟨now, rfl⟩ hscan
      | _ => rfl
    obtain hsame | ⟨time, hcanceled⟩ := request_docket (c.models overrides) orderly.wellFiled hs
      (fun now ha => hscan ⟨now, ha⟩) hnever
    · exact hquiet hoffers hsame
    · have hunfilled : ¬ (OrderEvent.of o time .canceled).isFill = true :=
        fun h => laws.zero_lt (of_decide_eq_true h)
      refine ⟨_, congrArg Docket.events hcanceled,
        .singleton (fun h => absurd h hunfilled) (iff_of_false hunfilled ?_),
        _, congrArg Docket.order hcanceled, rfl, hkind⟩
      rw [hoffers]
      exact fun h => Bool.false_ne_true h.2

/-- And with a run of them that looks at no other bar. -/
theorem run_armed (laws : Scalar.ToleranceLaws α) (later : List (Action α))
    (hruns : ∀ before, (d.run (c.models overrides) before).ledger.Orderly ∧
      ((d.run (c.models overrides) before).docket id).Sound id)
    (harmed : d.Armed id isBuy stop limit) (hbar : trigger.SeesBar bar)
    (hsees : ∀ look ∈ d.fillLooks (c.models overrides) id later, look.SeesBar bar)
    (hnever : ∀ before update after, later = before ++ .update update :: after →
      update.id = id → ((d.run (c.models overrides) before).update update).accepted = false) :
    ∃ published, eventsOf (d.run (c.models overrides) later).log id =
        eventsOf d.log id ++ published ∧
      FillsAt (trigger.crossPrice isBuy limit) (trigger.crosses isBuy limit = true ∧
        d.offered c overrides id later = true) published ∧
      (d.run (c.models overrides) later).Armed id isBuy stop limit := by
  induction later using List.reverseRecOn with
  | nil =>
    exact ⟨[], (List.append_nil _).symm, .nil fun h => Bool.false_ne_true h.2, harmed⟩
  | append_singleton later a ih =>
    rw [fillLooks_concat] at hsees
    obtain ⟨published, hevents, hfills, harmed'⟩ := ih
      (fun look hlook => hsees look (List.mem_append_left _ hlook))
      (fun before update after hsplit =>
        hnever before update (after ++ [a]) (by rw [hsplit, List.append_assoc]; rfl))
    obtain ⟨orderly, sound⟩ := hruns later
    obtain ⟨added, hadded, hfills', harmed''⟩ := step_armed laws orderly sound harmed' hbar
      (fun look hlook => hsees look (List.mem_append_right _ (Option.mem_toList.mpr hlook)))
      (fun update ha => hnever later update [] (ha ▸ rfl))
    refine ⟨published ++ added, ?_, (hfills.append hfills').congr ?_, ?_⟩
    · rw [run_append, ← List.append_assoc, ← hevents]
      exact hadded
    · rw [offered_concat, Bool.or_eq_true, and_or_left]
    · rw [run_append]
      exact harmed''

/-- A stop-limit order on the bar that reaches its stop. Let a scan put the order to the rules with
its stop not reached before, on a bar that reaches it, and let the run go on with looks at the same
bar only, whatever it shows of its volume. The first look fills the order at the price of the gap,
exactly if that is within the limit and the bar has something left for the order. The further looks
fill it at the price of its limit, exactly if the bar crosses the limit and has something left for
it at one of them. So the order trades on that bar as if it were used once, not at all after a gap
past the limit and at the price of the gap otherwise, exactly if no further look fills it or the gap
is within the limit and the two prices are one. -/
theorem run_triggerBar_fills (laws : Scalar.ToleranceLaws α) (c : Config α)
    (overrides : Table String (FeePlan α)) (account : Portfolio α) (memory : Usage α)
    (earlier : List (Action α)) (id : OrderId) (o : Order α) (stop limit : α)
    (hs : ((opening account memory).run (c.models overrides) earlier).order? id = some o)
    (hkind : o.kind = .stopLimit stop limit false) (now : Instant) (security : Snapshot α)
    (bar : Bar α) (hbar : security.bar = some bar)
    (hstage : ((opening account memory).run (c.models overrides) earlier).fillStage?
      (c.models overrides) now id = some security)
    (hreached : (⟨security, now⟩ : FillLook α).reaches o.isBuy stop = true)
    (later : List (Action α))
    (hsees : ∀ look ∈ ((opening account memory).run (c.models overrides)
      (earlier ++ [.scan now])).fillLooks (c.models overrides) id later, look.SeesBar bar)
    (hnever : ∀ before update after, later = before ++ .update update :: after →
      update.id = id →
      (((opening account memory).run (c.models overrides)
        (earlier ++ .scan now :: before)).update update).accepted = false) :
    let models := c.models overrides
    let d := (opening account memory).run models earlier
    let passed := (opening account memory).run models (earlier ++ [.scan now])
    let look : FillLook α := ⟨security, now⟩
    let gap := look.gapPrice o.isBuy stop
    let plain := look.crossPrice o.isBuy limit
    let within := withinLimit o.isBuy gap limit = true
    let trades := look.crosses o.isBuy limit = true ∧ passed.offered c overrides id later = true
    ∃ first further, eventsOf passed.log id = eventsOf d.log id ++ first ∧
      eventsOf (passed.run models later).log id = eventsOf passed.log id ++ further ∧
      FillsAt gap (within ∧ d.offers c overrides id (.scan now) = true) first ∧
      FillsAt plain trades further ∧
      ((¬ within → ∀ e ∈ further, ¬ e.isFill = true) ∧
          (∀ e ∈ first ++ further, e.isFill = true → e.fillPrice = gap) ↔
        ¬ trades ∨ within ∧ plain = gap) := by
  intro models d passed look gap plain within trades
  have hpassed : passed = d.step models (.scan now) := run_append models _ earlier [.scan now]
  have hrun : ∀ before, passed.run models before =
      (opening account memory).run models (earlier ++ .scan now :: before) := by
    intro before
    rw [show passed.run models before = _ from (run_append models _ _ before).symm,
      List.append_assoc]
    rfl
  have hlook : look.SeesBar bar := ⟨bar.volume, hbar⟩
  obtain ⟨first, hfirst, hfills, harmed⟩ :=
    scan_trigger laws (run_orderly models account memory earlier) hs hkind hstage hreached
  rw [← hpassed] at hfirst harmed
  obtain ⟨further, hfurther, hfills', -⟩ := run_armed laws later (fun before => by
      rw [hrun]
      exact ⟨run_orderly models account memory _, run_sound models account memory _ id⟩)
    harmed hlook hsees (fun before update after hsplit hid => by
      rw [hrun]
      exact hnever before update after hsplit hid)
  refine ⟨first, further, hfirst, hfurther, hfills, hfills', ?_⟩
  constructor
  · rintro ⟨hgap, hall⟩
    rw [or_iff_not_imp_left, not_not]
    intro htrades
    obtain ⟨e, he, hfill⟩ := hfills'.exists_iff.mpr htrades
    have hwithin : within := by
      by_contra hnot
      exact hgap hnot e he hfill
    exact ⟨hwithin, (hfills'.price_eq e he hfill).symm.trans
      (hall e (List.mem_append_right _ he) hfill)⟩
  · intro h
    have hnone : ¬ trades → ∀ e ∈ further, ¬ e.isFill = true := fun htrades e he hfill =>
      htrades (hfills'.exists_iff.mp ⟨e, he, hfill⟩)
    refine ⟨fun hnot => hnone (h.resolve_right fun hone => hnot hone.1), ?_⟩
    rw [List.forall_mem_append]
    refine ⟨hfills.price_eq, fun e he hfill => ?_⟩
    have hone := h.resolve_left fun htrades => hnone htrades e he hfill
    exact (hfills'.price_eq e he hfill).trans hone.2

/-- A buy that fills in part at the stop, because the bar has had little volume so far. When the bar
is shown with more volume, it fills on at the open, which is better than the stop. The laws hold of
exact numbers as of floating-point ones, in which the prices here are rounded. -/
theorem run_triggerBar_fills_of_volume :
    let c : Config Float := { Config.default with fill := ⟨0, 0.01, some 0.5⟩ }
    let models := c.models Table.empty
    let shown (volume : Float) : Snapshot Float :=
      Snapshot.ofBar "SPY" ⟨⟨60⟩, 100.3, 108, 99, 107, volume⟩
    let buy : Order Float :=
      { id := 1, symbol := "SPY", quantity := 10, kind := .stopLimit 105.1 106.2 false, time := ⟨0⟩
        filled := 0 }
    let earlier : List (Action Float) := [.showSnapshot (shown 8), .place buy]
    let later : List (Action Float) := [.scan ⟨90⟩, .showSnapshot (shown 12), .scan ⟨120⟩]
    let start := opening (Portfolio.ofCash "USD" 100000) (Table.empty : Usage Float)
    let d := start.run models earlier
    let passed := start.run models (earlier ++ [.scan ⟨60⟩])
    Scalar.ToleranceLaws Rat ∧ Scalar.ToleranceLaws Float ∧
      (d.order? 1).map Order.kind = some (.stopLimit 105.1 106.2 false) ∧
      d.fillStage? models ⟨60⟩ 1 = some (shown 8) ∧
      (∀ look ∈ passed.fillLooks models 1 later,
        look.SeesBar ⟨⟨60⟩, 100.3, 108, 99, 107, 8⟩) ∧
      ∃ first further : List (OrderEvent Float),
        eventsOf passed.log 1 = eventsOf d.log 1 ++ first ∧
        eventsOf (passed.run models later).log 1 = eventsOf passed.log 1 ++ further ∧
        (∃ e ∈ first, e.isFill = true) ∧ (∃ e ∈ further, e.isFill = true) ∧
        (∀ e ∈ first, e.isFill = true → e.fillPrice = 105.1) ∧
        ∀ e ∈ further, e.isFill = true → e.fillPrice = 100.3 := by
  intro c models shown buy earlier later start d passed
  have hs : d.order? 1 = some (filedOrder buy) := by decide +kernel
  have hstage : d.fillStage? models ⟨60⟩ 1 = some (shown 8) := by decide +kernel
  have hsecurities : (passed.fillLooks models 1 later).map FillLook.security =
      [shown 8, shown 12] := by decide +kernel
  have hsees : ∀ look ∈ passed.fillLooks models 1 later,
      look.SeesBar ⟨⟨60⟩, 100.3, 108, 99, 107, 8⟩ := by
    intro look hlook
    have hmem : look.security ∈ [shown 8, shown 12] :=
      hsecurities ▸ List.mem_map_of_mem (f := FillLook.security) hlook
    rw [List.mem_cons, List.mem_singleton] at hmem
    rcases hmem with h | h
    · exact ⟨8, congrArg Snapshot.bar h⟩
    · exact ⟨12, congrArg Snapshot.bar h⟩
  have hnever : ∀ before update after, later = before ++ .update update :: after →
      update.id = 1 →
      ((start.run models (earlier ++ .scan ⟨60⟩ :: before)).update update).accepted = false := by
    intro before update after hsplit
    have hmem : Action.update update ∈ later := by
      rw [hsplit]
      exact List.mem_append_right _ List.mem_cons_self
    simp [later] at hmem
  obtain ⟨first, further, hfirst, hfurther, hfills, hfills', -⟩ :=
    run_triggerBar_fills Scalar.toleranceLaws_float c Table.empty (Portfolio.ofCash "USD" 100000)
      Table.empty earlier 1 (filedOrder buy) 105.1 106.2 hs rfl ⟨60⟩ (shown 8)
      ⟨⟨60⟩, 100.3, 108, 99, 107, 8⟩ rfl hstage (by decide +kernel) later hsees hnever
  have hgap :
      (⟨shown 8, ⟨60⟩⟩ : FillLook Float).gapPrice (filedOrder buy).isBuy 105.1 = 105.1 := by
    decide +kernel
  have hplain :
      (⟨shown 8, ⟨60⟩⟩ : FillLook Float).crossPrice (filedOrder buy).isBuy 106.2 = 100.3 := by
    decide +kernel
  refine ⟨Scalar.toleranceLaws_rat, Scalar.toleranceLaws_float, by rw [hs]; rfl, hstage, hsees,
    first, further, hfirst, hfurther, ?_, ?_, ?_, ?_⟩
  · exact hfills.exists_iff.mpr (by decide +kernel)
  · exact hfills'.exists_iff.mpr (by decide +kernel)
  · exact fun e he hfill => (hfills.price_eq e he hfill).trans hgap
  · exact fun e he hfill => (hfills'.price_eq e he hfill).trans hplain

/-- A buy whose stop is passed by a gap above its limit is not filled by the scan that finds the
stop reached, and is filled by the next one, on the same bar, at its limit. -/
theorem stopLimit_trades_behind_gap :
    let c : Config Rat := Config.default
    let models := c.models Table.empty
    let bar : Bar Rat := ⟨⟨60⟩, 107, 108, 99, 107, 1000⟩
    let buy : Order Rat :=
      { id := 1, symbol := "SPY", quantity := 10, kind := .stopLimit 105 106 false, time := ⟨0⟩
        filled := 0 }
    let start := opening (Portfolio.ofCash "USD" 100000) (Table.empty : Usage Rat)
    let d := start.run models [.showSnapshot (Snapshot.ofBar "SPY" bar), .place buy, .scan ⟨60⟩]
    let d' := d.run models [.scan ⟨120⟩]
    withinLimit true (max bar.opening 105) (106 : Rat) = false ∧
      (eventsOf d.log 1).filter OrderEvent.isFill = [] ∧
      (d.order? 1).map Order.kind = some (.stopLimit 105 106 true) ∧
      ((eventsOf d'.log 1).filter OrderEvent.isFill).map (fun e => (e.fillPrice, e.fillQuantity)) =
        [(106, 10)] := by
  decide +kernel

end Desk

end TradingDesk
