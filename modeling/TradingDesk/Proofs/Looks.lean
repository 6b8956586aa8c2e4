import TradingDesk.Proofs.Exact
import TradingDesk.Proofs.FillStage
import TradingDesk.Proofs.Floating
/- Proofs.Looks — the looks of a run at one order.

   Without a cap on participation, what a look makes of an order of which nothing is filled
   yet is settled by the order and the snapshot: when it gets to the rules, it fills the
   order in whole at the price of its condition, or leaves it open with its stop marked if
   that was reached (`Docket.Looked`). `Desk.fillLooks` lists the looks of a run that get
   there, with what they see. -/
namespace TradingDesk

variable {α σ : Type}

/-! ## Orders of which nothing is filled -/

/-- What finite numbers obey in exact arithmetic as in rounded. -/
structure Scalar.FiniteLaws (α : Type) [Scalar α] : Prop where
  sub_zero : ∀ x : α, Scalar.isFinite x = true → x - 0 = x
  negligible_sub_self : ∀ x : α, Scalar.isFinite x = true → Scalar.negligible (x - x) = true
  tolerance_le : ∀ x : α, Scalar.isFinite x = true → Scalar.negligible x = false →
    Scalar.tolerance ≤ Scalar.abs x
  zero_lt : ¬ (Scalar.tolerance : α) ≤ Scalar.abs 0

theorem Scalar.finiteLaws_rat : Scalar.FiniteLaws Rat where
  sub_zero x _ := sub_zero x
  negligible_sub_self x _ := by
    rw [sub_self, Scalar.negligible_iff, abs_zero]
    exact Scalar.tolerance_pos
  tolerance_le x _ hx := by
    rw [← Bool.not_eq_true, Scalar.negligible_iff, not_lt, ← Scalar.abs_rat] at hx
    exact hx
  zero_lt := Scalar.tolerance_not_le_abs_zero

theorem Scalar.finiteLaws_float : Scalar.FiniteLaws Float where
  sub_zero _ := Floating.sub_zero_of_isFinite
  negligible_sub_self _ h := Floating.negligible_of_isZero (Floating.isZero_sub_self h)
  tolerance_le _ := Floating.tolerance_le_abs
  zero_lt := by decide +kernel

variable [Scalar α]

/-- Nothing of the order is filled, and its quantity is a number that counts. -/
structure Order.Fresh (o : Order α) : Prop where
  filled : o.filled = 0
  finite : Scalar.isFinite o.quantity = true
  counts : Scalar.negligible o.quantity = false

theorem Order.fresh_of_validate {o : Order α} (hv : o.validate.isOk = true) (hf : o.filled = 0) :
    o.Fresh where
  filled := hf
  finite := by
    rw [validate] at hv
    split at hv
    · cases hv
    · next hq =>
      have hfinite := (Bool.or_eq_false_iff.mp (Bool.not_eq_true _ ▸ hq)).1
      rwa [Bool.not_eq_false'] at hfinite
  counts := negligible_of_validate hv

theorem Order.Fresh.remaining (laws : Scalar.FiniteLaws α) {o : Order α} (h : o.Fresh) :
    o.remaining = o.quantity := by
  simp only [Order.remaining, h.filled, laws.sub_zero _ h.finite, h.counts, Bool.false_eq_true,
    if_false]

/-- Without a cap the rules fill all of such an order or nothing. -/
theorem FillConfig.outcome_of_fresh (laws : Scalar.FiniteLaws α) {c : FillConfig α}
    (hc : c.participation = none) {o : Order α} (h : o.Fresh) (security : Snapshot α)
    (now : Instant) (u : Usage α) :
    (c.outcome security o now u).1 =
      match c.price? security o with
      | none => OrderEvent.unchanged o now
      | some price => (OrderEvent.of o now .filled).withFill price o.quantity := by
  unfold outcome
  cases c.price? security o with
  | none => rfl
  | some price =>
    simp only [fillQuantity_of_uncapped hc, filled, h.remaining laws, h.counts, Bool.false_eq_true,
      if_false, laws.negligible_sub_self _ h.finite, if_true]

/-- What the rules have to say of an order is a fill, in whole or in part. -/
theorem FillConfig.outcome_of_ne_unchanged {c : FillConfig α} {security : Snapshot α} {o : Order α}
    {now : Instant} {u : Usage α}
    (h : (c.outcome security o now u).1 ≠ OrderEvent.unchanged o now) :
    ∃ price, c.price? security o = some price ∧
      ((c.outcome security o now u).1.status = .filled ∨
        (c.outcome security o now u).1.status = .partiallyFilled) := by
  unfold outcome at h ⊢
  cases hprice : c.price? security o with
  | none =>
    rw [hprice] at h
    exact absurd rfl h
  | some price =>
    rw [hprice] at h
    refine ⟨price, rfl, ?_⟩
    obtain hsame | ⟨-, hstatus⟩ :=
      filled_cases o now price (c.fillQuantity security o u).1
    · exact absurd hsame h
    · simp only [hstatus]
      split
      · exact .inl rfl
      · exact .inr rfl

/-! ## What a look makes of an order -/

namespace Docket

/-- What the look of a pass makes of the docket of an open order, with the security and the memory
that the order is put to the rules with. -/
inductive Examined (c : Config α) (overrides : Table String (FeePlan α)) (o : Order α)
    (now : Instant) (k : Docket α) : Docket α → Option (Snapshot α × Usage α) → Prop where
  /-- The order does not get to the rules, and stays open. -/
  | held : Examined c overrides o now k k none
  /-- It does not get to the rules, and is closed. -/
  | closed {event : OrderEvent α} (hs : event.status.isTerminal = true)
      (hquantity : event.fillQuantity = 0) :
      Examined c overrides o now k ⟨some (o.booked event), false, k.events ++ [event]⟩ none
  /-- The rules have no news of it. -/
  | left {security : Snapshot α} {u : Usage α}
      (hquiet : (c.fill.outcome security o now u).1.isFill = false) :
      Examined c overrides o now k
        ⟨some (o.withKind (o.kind.trigger (FillConfig.reachesStopOf security o))), true, k.events⟩
        (some (security, u))
  /-- The answer of the rules is booked, with its fee. -/
  | answered {security : Snapshot α} {u : Usage α} {event : OrderEvent α} {price fee : α}
      (hprice : c.fill.price? security o = some price)
      (hevent : event = { (c.fill.outcome security o now u).1 with fee := fee }) :
      Examined c overrides o now k
        ⟨some ((o.withKind (o.kind.trigger (FillConfig.reachesStopOf security o))).booked event),
          !event.status.isTerminal, k.events ++ [event]⟩
        (some (security, u))

/-- What the look of a pass makes of the docket of a fresh order without a cap, with the security
that the order is put to the rules with. -/
inductive Looked (c : FillConfig α) (o : Order α) (now : Instant) (k : Docket α) :
    Docket α → Option (Snapshot α) → Prop where
  /-- The order does not get to the rules, and stays open. -/
  | held : Looked c o now k k none
  /-- It does not get to the rules, and is closed. -/
  | closed {event : OrderEvent α} (hs : event.status.isTerminal = true)
      (hfill : event.isFill = false) :
      Looked c o now k ⟨some (o.booked event), false, k.events ++ [event]⟩ none
  /-- Its condition is not met. -/
  | passed {security : Snapshot α} (hprice : c.price? security o = none) :
      Looked c o now k
        ⟨some (o.withKind (o.kind.trigger (FillConfig.reachesStopOf security o))), true, k.events⟩
        (some security)
  /-- It is filled in whole at the price of its condition. -/
  | filled {security : Snapshot α} {price : α} {event : OrderEvent α}
      (hprice : c.price? security o = some price) (htime : event.time = now)
      (hat : event.fillPrice = price) (hquantity : event.fillQuantity = o.quantity)
      (hs : event.status = .filled) :
      Looked c o now k
        ⟨some ((o.withKind (o.kind.trigger (FillConfig.reachesStopOf security o))).booked event),
          false, k.events ++ [event]⟩
        (some security)

/-- Without a cap, a fresh order is filled in whole or not at all. -/
theorem Examined.looked (laws : Scalar.FiniteLaws α) {c : Config α}
    {overrides : Table String (FeePlan α)} (hc : c.fill.participation = none) {o : Order α}
    {now : Instant} {k k' : Docket α} {seen : Option (Snapshot α × Usage α)} (fresh : o.Fresh)
    (h : Examined c overrides o now k k' seen) : Looked c.fill o now k k' (seen.map Prod.fst) := by
  cases h with
  | held => exact .held
  | closed hs hquantity =>
    refine .closed hs ?_
    rw [OrderEvent.isFill, hquantity]
    exact decide_eq_false laws.zero_lt
  | @left security u hquiet =>
    refine .passed ?_
    rw [FillConfig.outcome_of_fresh laws hc fresh security now u] at hquiet
    cases hprice : c.fill.price? security o with
    | none => rfl
    | some price =>
      rw [hprice] at hquiet
      have hfill : ((OrderEvent.of o now .filled).withFill price o.quantity).isFill = true :=
        decide_eq_true (laws.tolerance_le _ fresh.finite fresh.counts)
      exact absurd (hfill.symm.trans hquiet) (by simp)
  | @answered security u event price fee hprice hevent =>
    rw [FillConfig.outcome_of_fresh laws hc fresh security now u, hprice] at hevent
    subst hevent
    exact .filled hprice rfl rfl rfl rfl

end Docket

namespace Floor

variable {c : Config α} {overrides : Table String (FeePlan α)} {f : Floor α (Usage α)}
  {o : Order α}

/-- What a look makes of an open order that is pending. -/
theorem visit_examined (hzero : ¬ (Scalar.tolerance : α) ≤ Scalar.abs 0) (c : Config α)
    (overrides : Table String (FeePlan α)) (board : Board α) (now : Instant)
    (hs : f.ledger.get? o.id = some o) (ho : o.status.isTerminal = false)
    (hp : f.ledger.isPending o.id = true) :
    Docket.Examined c overrides o now (f.docket o.id)
      ((f.visit (c.models overrides) board now o.id).1.docket o.id)
      (((c.models overrides).fillStage? board f.account o now f.memory).map (·, f.memory)) := by
  have hdocket : f.docket o.id = ⟨some o, true, eventsOf f.log o.id⟩ := by
    rw [docket, hs, hp]
  rw [hdocket]
  generalize hleft : (f.visit (c.models overrides) board now o.id).1 = f'
  cases hstage : (c.models overrides).fillStage? board f.account o now f.memory with
  | none =>
    obtain ⟨_, -, hrules⟩ | ⟨verdict, hverdict, hgates⟩ :=
      c.judge_cases overrides board f.account o now
    · rw [(hrules f.memory).1] at hstage
      cases hstage
    · have hvisit : f.visit (c.models overrides) board now o.id = f.settle o now verdict := by
        simp only [visit, hs, ho, Bool.false_eq_true, if_false, (hgates f.memory).2]
      rw [hvisit] at hleft
      obtain rfl | ⟨status, message, hstatus, rfl⟩ := hverdict
      · rw [← hleft, settle, hdocket]
        exact .held
      · obtain ⟨l, hr, hclose⟩ := settle_close now hs ho hstatus message
        obtain rfl : f'.ledger = l := by rw [← hleft, hclose]; rfl
        rw [docket_published hr (by rw [← hleft, hclose]; rfl) rfl]
        refine .closed ?_ rfl
        rcases hstatus with rfl | rfl <;> rfl
  | some security =>
    have hvisit := visit_of_fillStage hs ho hstage
    generalize hevent : c.charged overrides o (c.fill.outcome security o now f.memory).1 = event
      at hvisit
    obtain ⟨fee, hcharged⟩ := c.charged_eq overrides o (c.fill.outcome security o now f.memory).1
    rw [hevent] at hcharged
    have hfill : event.isFill = (c.fill.outcome security o now f.memory).1.isFill := by
      rw [hcharged]
      rfl
    by_cases hquiet : event.status = o.status ∧ (!event.isFill) = true
    · -- no news: only the kind is filed
      have hk := Ledger.setKind_refiled (o.kind.trigger (FillConfig.reachesStopOf security o)) hs
      simp only [settle, if_pos hquiet] at hvisit
      have hledger : f'.ledger = f.ledger.setKind o.id
          (o.kind.trigger (FillConfig.reachesStopOf security o)) := by
        rw [← hleft, hvisit]
      rw [← hledger] at hk
      rw [docket_refiled hk (by rw [← hleft, hvisit]), hp]
      refine .left ?_
      rw [← hfill, ← Bool.not_eq_true']
      exact hquiet.2
    · -- news: then the rules have filled something at the price of the condition
      have hunchanged : (OrderEvent.unchanged o now).isFill = false := decide_eq_false hzero
      have hsame : (c.fill.outcome security o now f.memory).1 ≠ OrderEvent.unchanged o now := by
        intro hsame
        refine hquiet ?_
        rw [hfill, hcharged, hsame, hunchanged]
        exact ⟨rfl, rfl⟩
      obtain ⟨price, hprice, hstatus⟩ := FillConfig.outcome_of_ne_unchanged hsame
      have hid : event.orderId = o.id := by
        rw [hcharged]
        exact c.fill.outcome_orderId security o now f.memory
      obtain ⟨l, hr, hsettle⟩ := settle_news
        (f := { f with memory := (c.fill.outcome security o now f.memory).2 }) now
        (o.kind.trigger (FillConfig.reachesStopOf security o)) hs ho hid hquiet (hcharged ▸ hstatus)
      rw [← hvisit, hleft] at hsettle
      obtain rfl : f'.ledger = l := by rw [hsettle]; rfl
      rw [docket_published hr (by rw [hsettle]; rfl) hid, hp]
      exact .answered hprice hcharged

end Floor

/-! ## Looks of a run -/

/-- What a look sees that puts an order to the fill model. -/
structure FillLook (α : Type) where
  security : Snapshot α
  time : Instant

namespace Desk

variable {models : Models α σ} {d : Desk α σ} {id : OrderId} {o : Order α} {a : Action α}

/-- The security with which a scan puts the order under an id to the fill model, if it does. -/
def fillStage? (models : Models α σ) (d : Desk α σ) (now : Instant) (id : OrderId) :
    Option (Snapshot α) :=
  if d.needsPass then
    let floor := d.toFloor.before models d.board now id
    (floor.ledger.pendingOrder? id).bind fun order =>
      models.fillStage? d.board floor.account order now floor.memory
  else none

/-- A scan makes of an open order what its look at it makes. -/
theorem scan_examined (c : Config α) (overrides : Table String (FeePlan α))
    {d : Desk α (Usage α)} (hzero : ¬ (Scalar.tolerance : α) ≤ Scalar.abs 0)
    (orderly : d.ledger.Orderly) (hs : d.order? id = some o) (ho : o.status.isTerminal = false)
    (now : Instant) :
    Docket.Examined c overrides o now (d.docket id)
      ((d.step (c.models overrides) (.scan now)).docket id)
      ((d.fillStage? (c.models overrides) now id).map
        (·, (d.toFloor.before (c.models overrides) d.board now id).memory)) := by
  cases hn : d.needsPass with
  | false =>
    rw [step, scan, fillStage?, hn, if_neg Bool.false_ne_true, if_neg Bool.false_ne_true]
    exact .held
  | true =>
    have hid : o.id = id := orderly.wellFiled id o hs
    have hp : d.ledger.isPending id = true := (orderly.pending_iff id).mpr ⟨o, hs, ho⟩
    obtain ⟨hfound, hleft⟩ := Floor.pass_docket d.board now orderly.wellFiled
      c.models_followsRules.keepsToOrder hp
    have hs' := (congrArg Docket.order hfound).trans hs
    have hp' := (congrArg Docket.pending hfound).trans hp
    have hlooked : (d.toFloor.before (c.models overrides) d.board now id).ledger.pendingOrder? id =
        some o := Ledger.pendingOrder?_eq_some.mpr ⟨hp', hs'⟩
    have hstage : d.fillStage? (c.models overrides) now id = (c.models overrides).fillStage? d.board
        (d.toFloor.before (c.models overrides) d.board now id).account o now
        (d.toFloor.before (c.models overrides) d.board now id).memory := by
      simp only [fillStage?, hn, if_true, hlooked, Option.bind_some]
    rw [hstage, ← hfound, step, scan, hn, if_pos rfl]
    subst hid
    exact hleft ▸ Floor.visit_examined hzero c overrides d.board now hs' ho hp'

/-- So it does of a fresh order without a cap. -/
theorem scan_looked {c : Config α} {overrides : Table String (FeePlan α)}
    {d : Desk α (Usage α)} (laws : Scalar.FiniteLaws α) (hc : c.fill.participation = none)
    (orderly : d.ledger.Orderly) (hs : d.order? id = some o) (ho : o.status.isTerminal = false)
    (fresh : o.Fresh) (now : Instant) :
    Docket.Looked c.fill o now (d.docket id)
      ((d.step (c.models overrides) (.scan now)).docket id)
      (d.fillStage? (c.models overrides) now id) := by
  have h := (scan_examined c overrides laws.zero_lt orderly hs ho now).looked
    laws hc fresh
  have hseen : ∀ (seen : Option (Snapshot α)) (u : Usage α),
      (seen.map (·, u)).map Prod.fst = seen := fun seen u => by cases seen <;> rfl
  rwa [hseen] at h

/-- No scan puts an order to the fill model that is not pending. -/
theorem fillStage?_of_not_pending (hf : d.ledger.WellFiled) (own : models.fill.KeepsToOrder)
    (hp : d.ledger.isPending id = false) (now : Instant) : d.fillStage? models now id = none := by
  have hfound := Floor.before_docket d.board now id hf own
  have hp' := (congrArg Docket.pending hfound).trans hp
  have hnone : (d.toFloor.before models d.board now id).ledger.pendingOrder? id = none := by
    rw [Ledger.pendingOrder?]
    exact if_neg (Bool.not_eq_true _ ▸ hp')
  simp only [fillStage?, hnone, Option.bind_none, ite_self]

/-- A request, or a change of the market, leaves a stored order that it does not update as it is, or
cancels it. -/
theorem request_docket (models : Models α σ) (hf : d.ledger.WellFiled) (hs : d.order? id = some o)
    (hscan : ∀ now, a ≠ .scan now)
    (hupdate : ∀ request, a = .update request → request.id = id →
      (d.update request).accepted = false) :
    (d.step models a).docket id = d.docket id ∨
      ∃ time, (d.step models a).docket id = ⟨some { o with status := .canceled }, false,
        eventsOf d.log id ++ [OrderEvent.of o time .canceled]⟩ := by
  cases a with
  | place request =>
    left
    cases haccepts : d.accepts request with
    | false => rw [step, place_of_not_accepts haccepts]; rfl
    | true =>
      obtain ⟨l, hr, hp⟩ := place_of_accepts haccepts
      obtain ⟨-, hfree, -⟩ := accepts_iff.mp haccepts
      have hne : id ≠ request.id := by
        rintro rfl
        rw [hs] at hfree
        cases hfree
      rw [step, hp]
      exact Floor.docket_published_of_ne hr rfl (filedOrder_id request) hne
  | update request =>
    left
    cases haccepts : d.acceptsUpdate request with
    | false => rw [step, update_of_not_accepts haccepts]; rfl
    | true =>
      obtain ⟨stored, l, -, hs', -, hr, hu⟩ := update_of_accepts haccepts
      have hne : id ≠ request.id := by
        rintro rfl
        have hrefused := hupdate request rfl rfl
        rw [update_accepted_iff.mpr haccepts] at hrefused
        cases hrefused
      rw [step, hu]
      exact Floor.docket_published_of_ne hr rfl
        ((stored.applyUpdate_id (named request)).trans (hf _ _ hs')) hne
  | cancel request =>
    rcases d.cancel_cases request with hrefused | ⟨hnone, hunmarked⟩ | ⟨stored, hp, hs'⟩
    · left
      rw [step, hrefused]
      rfl
    · have hne : id ≠ request.id := by
        rintro rfl
        rw [hs] at hnone
        cases hnone
      rw [step, hunmarked]
      exact .inl (docket_unmark_of_ne hne)
    · obtain ⟨l, hr, hc⟩ := cancel_of_pending hp hs'
      rw [step, hc]
      by_cases hid : id = request.id
      · subst hid
        obtain rfl := Option.some.inj (hs.symm.trans hs')
        exact .inr ⟨d.eventTime request, Floor.docket_published hr rfl (hf _ _ hs)⟩
      · exact .inl (Floor.docket_published_of_ne hr rfl (hf _ _ hs') hid)
  | scan now => exact absurd rfl (hscan now)
  | showSnapshot s => exact .inl rfl
  | untrack symbol => exact .inl rfl
  | mark symbol price => exact .inl rfl

/-- The look of an action at the order under an id, if it is a scan that puts it to the fill
model. -/
def fillLook? (models : Models α σ) (d : Desk α σ) (id : OrderId) : Action α → Option (FillLook α)
  | .scan now => (d.fillStage? models now id).map fun security => ⟨security, now⟩
  | _ => none

/-- The looks of a run that put the order under an id to the fill model. -/
def fillLooks (models : Models α σ) (id : OrderId) : Desk α σ → List (Action α) → List (FillLook α)
  | _, [] => []
  | d, a :: later => (d.fillLook? models id a).toList ++ fillLooks models id (d.step models a) later

theorem fillLooks_concat (later : List (Action α)) (a : Action α) :
    fillLooks models id d (later ++ [a]) =
      fillLooks models id d later ++ ((d.run models later).fillLook? models id a).toList := by
  induction later generalizing d with
  | nil => simp [fillLooks, run]
  | cons b later ih =>
    rw [List.cons_append, fillLooks, ih, fillLooks, List.append_assoc]
    rfl

end Desk

end TradingDesk
