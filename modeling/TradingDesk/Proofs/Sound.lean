import TradingDesk.Proofs.Run
/- Proofs.Sound — dockets whose parts agree, and where accepted orders start.

   `Docket.Sound` ties the pending set to the stored statuses: an id is pending
   exactly when its order is stored and open. Every turn keeps it, so it holds
   after every run whatever the models do. In particular nothing is left over
   from before an order was accepted: its docket starts with the order as it was
   filed and the one event of its placement, and takes turns from there
   (`run_turns_of_accepted`). -/
namespace TradingDesk

variable {α σ : Type} [Scalar α]

/-! ## Sound dockets -/

namespace Docket

/-- The docket's parts agree: nothing of an id that was never placed, and an order that is stored
under its id and pending as long as it is open. -/
structure Sound (id : OrderId) (k : Docket α) : Prop where
  absent : k.order = none → k.pending = false ∧ k.events = []
  id_eq : ∀ o, k.order = some o → o.id = id
  pending_eq : ∀ o, k.order = some o → k.pending = !o.status.isTerminal
  not_new : ∀ o, k.order = some o → o.status ≠ .new

variable {models : Models α σ} {id : OrderId} {k k' : Docket α}

omit [Scalar α] in
theorem Sound.of_stored (order : Order α) {pending : Bool} {events : List (OrderEvent α)}
    (hid : order.id = id) (hp : pending = !order.status.isTerminal)
    (hn : order.status ≠ .new) : Sound id ⟨some order, pending, events⟩ where
  absent h := by cases h
  id_eq o h := Option.some.inj h ▸ hid
  pending_eq o h := Option.some.inj h ▸ hp
  not_new o h := Option.some.inj h ▸ hn

omit [Scalar α] in
theorem sound_unheard (id : OrderId) : (⟨none, false, []⟩ : Docket α).Sound id where
  absent _ := ⟨rfl, rfl⟩
  id_eq o h := by cases h
  pending_eq o h := by cases h
  not_new o h := by cases h

omit [Scalar α] in
/-- An order that is pending is open. -/
theorem Sound.isOpen {order : Order α} {events : List (OrderEvent α)}
    (h : Sound id ⟨some order, true, events⟩) : order.status.isTerminal = false := by
  have hp := h.pending_eq order rfl
  rwa [eq_comm, Bool.not_eq_true'] at hp

end Docket

/-! ## Statuses of orders that are open -/

theorem OrderStatus.allows_new (s : OrderStatus) : s.allows .new = false := by
  cases s <;> rfl

theorem OrderStatus.isOpen_of_allows {s t : OrderStatus} (h : s.allows t = true) :
    s.isTerminal = false := by
  cases s <;> first | rfl | cases h

theorem OrderStatus.of_open {s : OrderStatus} (ho : s.isTerminal = false) (hn : s ≠ .new) :
    s = .submitted ∨ s = .partiallyFilled := by
  cases s with
  | new => exact absurd rfl hn
  | submitted => exact .inl rfl
  | partiallyFilled => exact .inr rfl
  | filled | canceled | invalid => cases ho

namespace Docket

variable {models : Models α σ} {id : OrderId} {k k' : Docket α}

omit [Scalar α] in
/-- An id is pending exactly when its order is stored and open. -/
theorem Sound.pending_iff (h : k.Sound id) :
    k.pending = true ↔ ∃ o, k.order = some o ∧ o.status.isTerminal = false := by
  constructor
  · intro hp
    cases ho : k.order with
    | none => exact absurd ((h.absent ho).1.symm.trans hp) Bool.false_ne_true
    | some o =>
      rw [h.pending_eq o ho, Bool.not_eq_true'] at hp
      exact ⟨o, rfl, hp⟩
  · rintro ⟨o, ho, hopen⟩
    rw [h.pending_eq o ho, hopen, Bool.not_false]

omit [Scalar α] in
/-- An order that is pending was submitted. -/
theorem Sound.status_of_pending (h : k.Sound id) {o : Order α} (ho : k.order = some o)
    (hp : k.pending = true) : o.status = .submitted ∨ o.status = .partiallyFilled := by
  rw [h.pending_eq o ho, Bool.not_eq_true'] at hp
  exact OrderStatus.of_open hp (h.not_new o ho)

/-! ## What turns keep -/

theorem Turn.sound (h : Turn models id k k') (hk : k.Sound id) : k'.Sound id := by
  cases h with
  | place request time hid hs hv =>
    have hs := Desk.filedOrder_status request
    refine .of_stored _ ((Desk.filedOrder_id request).trans hid) ?_ ?_
    · rw [hs]; rfl
    · rw [hs]; decide
  | @update stored _ request time hv =>
    have hs := stored.applyUpdate_status (Desk.named request)
    refine .of_stored _ ((stored.applyUpdate_id _).trans (hk.id_eq _ rfl)) ?_ ?_
    · rw [hs]; exact hk.pending_eq _ rfl
    · rw [hs]; exact hk.not_new _ rfl
  | @cancel stored _ time =>
    exact .of_stored { stored with status := .canceled } (hk.id_eq stored rfl) rfl nofun
  | @rekind stored _ _ _ _ kind ho hi =>
    exact .of_stored (stored.withKind kind) (hk.id_eq stored rfl)
      (hk.pending_eq stored rfl) (hk.not_new stored rfl)
  | @book stored asked pending _ _ event _ kind ha hi hid hkind =>
    have hp : pending = true := by
      rw [show pending = !stored.status.isTerminal from hk.pending_eq stored rfl,
        OrderStatus.isOpen_of_allows ha, Bool.not_false]
    refine .of_stored ((stored.withKind kind).booked event) (hk.id_eq stored rfl) ?_ ?_
    · rw [hp, Bool.true_and]; rfl
    · intro hn
      rw [show event.status = .new from hn, OrderStatus.allows_new] at ha
      cases ha
  | @drop order _ _ hdone =>
    cases order with
    | none =>
      -- nothing was pending, so nothing changes
      obtain rfl := (hk.absent rfl).2
      exact sound_unheard id
    | some o =>
      refine .of_stored o (hk.id_eq o rfl) ?_ (hk.not_new o rfl)
      rw [hdone o rfl]; rfl

/-- The docket of an order that has just been placed. -/
theorem sound_placed (request : Order α) (time : Instant) :
    (⟨some (Desk.filedOrder request), true,
      [OrderEvent.of (Desk.filedOrder request) time .submitted]⟩ : Docket α).Sound request.id := by
  have hstatus := Desk.filedOrder_status request
  refine .of_stored _ (Desk.filedOrder_id request) ?_ ?_
  · rw [hstatus]; rfl
  · rw [hstatus]; decide

theorem sound_of_turns (h : Relation.ReflTransGen (Turn models id) k k') (hk : k.Sound id) :
    k'.Sound id := by
  induction h with
  | refl => exact hk
  | tail _ ht ih => exact ht.sound ih

end Docket

namespace Desk

/-- After every run, whatever the models did, every docket is sound. -/
theorem run_sound (models : Models α σ) (account : Portfolio α) (memory : σ)
    (actions : List (Action α)) (id : OrderId) :
    (((opening account memory).run models actions).docket id).Sound id :=
  Docket.sound_of_turns (run_turns models (opening_wellFiled account memory) actions id)
    (Docket.sound_unheard id)

/-- After every run, every pending id has an order. -/
theorem run_backed (models : Models α σ) (account : Portfolio α) (memory : σ)
    (actions : List (Action α)) : ((opening account memory).run models actions).ledger.Backed := by
  intro id hp
  obtain ⟨stored, hs, -⟩ := (run_sound models account memory actions id).pending_iff.mp hp
  exact Option.isSome_of_eq_some hs

/-! ## Accepted orders -/

/-- A run accepts a placement: it asks for it at some point, and is not turned away there. -/
def Accepts (models : Models α σ) (d : Desk α σ) (actions : List (Action α)) (request : Order α) :
    Prop :=
  ∃ earlier later, actions = earlier ++ .place request :: later ∧
    ((d.run models earlier).place request).accepted = true

theorem validate_of_accepts {models : Models α σ} {d : Desk α σ} {actions : List (Action α)}
    {request : Order α} (h : Accepts models d actions request) : request.validate.isOk = true := by
  obtain ⟨earlier, later, -, ha⟩ := h
  exact (accepts_iff.mp (place_accepted_iff.mp ha)).2.2

/-- The docket of an accepted order takes turns from the order as it was filed and the event of its
placement. -/
theorem run_turns_of_accepted {models : Models α σ} {account : Portfolio α} {memory : σ}
    {actions : List (Action α)} {request : Order α}
    (h : Accepts models (opening account memory) actions request) :
    ∃ time, Relation.ReflTransGen (Docket.Turn models request.id)
      ⟨some (filedOrder request), true,
        [OrderEvent.of (filedOrder request) time .submitted]⟩
      (((opening account memory).run models actions).docket request.id) := by
  obtain ⟨earlier, later, rfl, ha⟩ := h
  have hf := run_wellFiled models (opening_wellFiled account memory) earlier
  have hsound := run_sound models account memory earlier request.id
  have hstep := step_wellFiled models hf (.place request)
  rw [run_append, run_cons]
  -- nothing but these four facts matters of the run that led up to the placement
  revert hf hsound hstep ha
  generalize (opening account memory).run models earlier = d
  intro ha hf hsound hstep
  have hacc := place_accepted_iff.mp ha
  obtain ⟨-, hn, -⟩ := accepts_iff.mp hacc
  obtain ⟨l, hr, hp⟩ := place_of_accepts hacc
  refine ⟨d.eventTime (filedOrder request), ?_⟩
  have hdocket : (d.step models (.place request)).docket request.id =
      ⟨some (filedOrder request), true,
        [OrderEvent.of (filedOrder request) (d.eventTime (filedOrder request)) .submitted]⟩ := by
    have hevents : eventsOf d.log request.id = [] := (hsound.absent hn).2
    have hr : Ledger.Refiled d.ledger (d.place request).desk.ledger request.id
        (filedOrder request) true := by
      rw [hp]; exact hr
    have hg : (d.place request).desk.log = d.log ++
        [OrderEvent.of (filedOrder request) (d.eventTime (filedOrder request)) .submitted] := by
      rw [hp]; rfl
    rw [step, Floor.docket_published hr hg (filedOrder_id request), hevents, List.nil_append]
  rw [← hdocket]
  exact run_turns models hstep later request.id

end Desk

end TradingDesk
