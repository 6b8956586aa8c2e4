import TradingDesk.Desk
import TradingDesk.Proofs.Ledger
/- Proofs.Request — what a desk does with a placement, an update or a cancel.

   A request is either turned away, and nothing changes, or it is accepted: one
   order is filed anew under the request's id and one event is published. Each
   of the three lemmas states both sides in full. -/
namespace TradingDesk

variable {α σ : Type}

namespace Order

variable [Scalar α] {order stored update : Order α}

/-- A valid order asks for a quantity that counts. -/
theorem negligible_of_validate (h : order.validate.isOk = true) :
    Scalar.negligible order.quantity = false := by
  rw [validate] at h
  split at h
  · cases h
  · next hq => exact (Bool.or_eq_false_iff.mp (Bool.not_eq_true _ ▸ hq)).2

/-- A valid update is itself a valid order, on the side of the stored one, and leaves a quantity
that counts to fill. -/
theorem validateUpdate_ok (h : (stored.validateUpdate update).isOk = true) :
    update.validate.isOk = true ∧ Scalar.sameSign update.quantity stored.quantity = true ∧
      ¬ Scalar.abs update.quantity - Scalar.abs stored.filled < Scalar.tolerance := by
  rw [validateUpdate] at h
  split at h
  · cases h
  · next hv =>
    split at h
    · cases h
    · next hs =>
      split at h
      · cases h
      · next hl =>
        refine ⟨by rw [hv]; rfl, ?_, hl⟩
        rwa [Bool.not_eq_true', Bool.not_eq_false] at hs

end Order

namespace Desk

/-- The order that a desk stores when it accepts a placement. -/
def filedOrder (request : Order α) : Order α := { named request with status := .submitted }

theorem named_id (request : Order α) : (named request).id = request.id :=
  request.addBrokerId_id _

theorem filedOrder_id (request : Order α) : (filedOrder request).id = request.id :=
  named_id request

theorem filedOrder_status (request : Order α) : (filedOrder request).status = .submitted := rfl

theorem filedOrder_filled (request : Order α) : (filedOrder request).filled = request.filled :=
  request.addBrokerId_filled _

theorem filedOrder_quantity (request : Order α) :
    (filedOrder request).quantity = request.quantity :=
  request.addBrokerId_quantity _

theorem filedOrder_kind (request : Order α) : (filedOrder request).kind = request.kind :=
  request.addBrokerId_kind _

variable [Scalar α]

/-- The acknowledgement of an update, which the stored order took. -/
def acknowledgement (stored : Order α) (time : Instant) : OrderEvent α :=
  { OrderEvent.of stored time .submitted with isUpdate := true }

/-- The desk with a ledger of its own, after it published an event. -/
def filing (d : Desk α σ) (l : Ledger α) (event : OrderEvent α) : Desk α σ :=
  d.withFloor ({ d.toFloor with ledger := l }.publish event)

/-! ## Placements -/

theorem accepts_iff {d : Desk α σ} {request : Order α} :
    d.accepts request = true ↔
      request.status = .new ∧ d.order? request.id = none ∧ request.validate.isOk = true := by
  simp [accepts, Table.contains, order?, Ledger.get?, and_assoc]

theorem place_of_accepts {d : Desk α σ} {request : Order α} (h : d.accepts request = true) :
    ∃ l, Ledger.Refiled d.ledger l request.id (filedOrder request) true ∧
      d.place request = ⟨true, filedOrder request,
        { d.filing l (OrderEvent.of (filedOrder request) (d.eventTime (filedOrder request))
            .submitted) with needsPass := true }⟩ := by
  obtain ⟨hs, hn, -⟩ := accepts_iff.mp h
  have hs' : (named request).status = .new := (request.addBrokerId_status _).trans hs
  have hn' : d.ledger.get? (named request).id = none := by rw [named_id]; exact hn
  obtain ⟨l, hl, hr⟩ := Ledger.place?_refiled hs' hn'
  change Ledger.Refiled d.ledger l (named request).id (filedOrder request) true at hr
  rw [named_id] at hr
  refine ⟨l, hr, ?_⟩
  rw [place, if_pos h, hl]
  rfl

theorem place_of_not_accepts {d : Desk α σ} {request : Order α} (h : d.accepts request = false) :
    d.place request = d.refuse request := by
  rw [place, h]
  rfl

theorem place_accepted_iff {d : Desk α σ} {request : Order α} :
    (d.place request).accepted = true ↔ d.accepts request = true := by
  cases h : d.accepts request with
  | false => rw [place_of_not_accepts h]; exact Iff.rfl
  | true =>
    obtain ⟨l, -, hp⟩ := place_of_accepts h
    rw [hp]

/-! ## Updates -/

theorem acceptsUpdate_iff {d : Desk α σ} {request : Order α} :
    d.acceptsUpdate request = true ↔
      ∃ stored, d.ledger.isPending request.id = true ∧ d.order? request.id = some stored ∧
        (stored.validateUpdate request).isOk = true := by
  unfold acceptsUpdate
  cases h : d.ledger.pendingOrder? request.id with
  | none =>
    refine ⟨fun hf => absurd hf Bool.false_ne_true, fun ⟨stored, hp, hs, _⟩ => ?_⟩
    rw [Ledger.pendingOrder?_eq_some.mpr ⟨hp, hs⟩] at h
    cases h
  | some stored =>
    obtain ⟨hp, hs⟩ := Ledger.pendingOrder?_eq_some.mp h
    refine ⟨fun hv => ⟨stored, hp, hs, hv⟩, fun ⟨stored', _, hs', hv⟩ => ?_⟩
    rwa [Option.some.inj (hs.symm.trans hs')]

theorem update_of_accepts {d : Desk α σ} {request : Order α} (h : d.acceptsUpdate request = true) :
    ∃ stored l, d.ledger.isPending request.id = true ∧ d.order? request.id = some stored ∧
      (stored.validateUpdate request).isOk = true ∧
      Ledger.Refiled d.ledger l request.id (stored.applyUpdate (named request)) true ∧
      d.update request = ⟨true, named request,
        { d.filing l (acknowledgement (stored.applyUpdate (named request))
            (d.eventTime request)) with needsPass := true }⟩ := by
  obtain ⟨stored, hp, hs, hv⟩ := acceptsUpdate_iff.mp h
  have hn : d.ledger.pendingOrder? (named request).id = some stored := by
    rw [named_id]; exact Ledger.pendingOrder?_eq_some.mpr ⟨hp, hs⟩
  obtain ⟨l, hl, hr⟩ := Ledger.update?_refiled hn
  rw [named_id] at hr
  refine ⟨stored, l, hp, hs, hv, hr, ?_⟩
  rw [update, if_pos h, hl]
  rfl

theorem update_of_not_accepts {d : Desk α σ} {request : Order α}
    (h : d.acceptsUpdate request = false) : d.update request = d.refuse request := by
  rw [update, h]
  rfl

theorem update_accepted_iff {d : Desk α σ} {request : Order α} :
    (d.update request).accepted = true ↔ d.acceptsUpdate request = true := by
  cases h : d.acceptsUpdate request with
  | false => rw [update_of_not_accepts h]; exact Iff.rfl
  | true =>
    obtain ⟨stored, l, -, -, -, -, hu⟩ := update_of_accepts h
    rw [hu]

/-! ## Cancels -/

theorem cancel_of_pending {d : Desk α σ} {request stored : Order α}
    (hp : d.ledger.isPending request.id = true) (hs : d.order? request.id = some stored) :
    ∃ l, Ledger.Refiled d.ledger l request.id { stored with status := .canceled } false ∧
      d.cancel request = ⟨true, request,
        d.filing l (OrderEvent.of { stored with status := .canceled } (d.eventTime request)
          .canceled)⟩ := by
  have hn := Ledger.pendingOrder?_eq_some.mpr ⟨hp, hs⟩
  have hc : ∃ l, d.ledger.cancel? request.id = some (l, { stored with status := .canceled }) :=
    ⟨_, by rw [Ledger.cancel?, hn]; rfl⟩
  obtain ⟨l, hl⟩ := hc
  obtain ⟨stored', hn', -, hr⟩ := Ledger.cancel?_refiled hl
  refine ⟨l, hr, ?_⟩
  rw [cancel, hl]
  rfl

theorem cancel_of_pendingOrder?_eq_none {d : Desk α σ} {request : Order α}
    (h : d.ledger.pendingOrder? request.id = none) :
    d.cancel request = (d.unmark request.id).refuse request := by
  rw [cancel, Ledger.cancel?, h]
  rfl

omit [Scalar α] in
theorem unmark_of_not_isPending {d : Desk α σ} {id : OrderId}
    (h : d.ledger.isPending id = false) : d.unmark id = d := by
  rw [unmark, Ledger.dropPending_of_not_isPending h]
  rfl

theorem cancel_of_not_isPending {d : Desk α σ} {request : Order α}
    (h : d.ledger.isPending request.id = false) : d.cancel request = d.refuse request := by
  have hnone : d.ledger.pendingOrder? request.id = none := by
    rw [Ledger.pendingOrder?, h]
    rfl
  rw [cancel_of_pendingOrder?_eq_none hnone, unmark_of_not_isPending h]

/-- A cancel is turned away as a whole, finds a mark without an order and takes it off, or finds a
pending order. -/
theorem cancel_cases (d : Desk α σ) (request : Order α) :
    d.cancel request = d.refuse request ∨
      (d.order? request.id = none ∧ d.cancel request = (d.unmark request.id).refuse request) ∨
      ∃ stored, d.ledger.isPending request.id = true ∧ d.order? request.id = some stored := by
  cases hp : d.ledger.isPending request.id with
  | false => exact .inl (cancel_of_not_isPending hp)
  | true =>
    cases hs : d.order? request.id with
    | none =>
      have hnone : d.ledger.pendingOrder? request.id = none := by
        rw [Ledger.pendingOrder?, hp]
        exact hs
      exact .inr (.inl ⟨rfl, cancel_of_pendingOrder?_eq_none hnone⟩)
    | some stored => exact .inr (.inr ⟨stored, rfl, rfl⟩)

/-- Where every pending id has an order, a cancel is turned away as a whole or finds one. -/
theorem cancel_cases_of_backed {d : Desk α σ} (hb : d.ledger.Backed) (request : Order α) :
    d.cancel request = d.refuse request ∨
      ∃ stored, d.ledger.isPending request.id = true ∧ d.order? request.id = some stored := by
  cases hp : d.ledger.isPending request.id with
  | false => exact .inl (cancel_of_not_isPending hp)
  | true =>
    obtain ⟨stored, hs⟩ := Option.isSome_iff_exists.mp (hb request.id hp)
    exact .inr ⟨stored, rfl, hs⟩

end Desk

end TradingDesk
