import Mathlib.Logic.Relation
import TradingDesk.Feed
import TradingDesk.Proofs.Visit
import TradingDesk.Proofs.Request
/- Proofs.Docket — the life of one id.

   A docket is what a floor has on one id: the stored order, whether the id is
   pending, and the events published of it. `Turn` lists the changes that a
   docket can take. `Visited.turn` and the lemmas on requests say that whatever
   the desk does is, seen from each id on its own, at most one turn; where the
   fill model keeps to the order it was asked about, a look at one id leaves
   every other docket alone (`Visited.frame`). -/
namespace TradingDesk

variable {α σ : Type}

/-- What a floor has on one id. -/
structure Docket (α : Type) where
  order : Option (Order α)
  pending : Bool
  events : List (OrderEvent α)

/-- The docket of an id. -/
def Floor.docket (f : Floor α σ) (id : OrderId) : Docket α :=
  ⟨f.ledger.get? id, f.ledger.isPending id, eventsOf f.log id⟩

/-! ## Reading dockets -/

theorem eventsOf_append_self {log : List (OrderEvent α)} {e : OrderEvent α} {id : OrderId}
    (h : e.orderId = id) : eventsOf (log ++ [e]) id = eventsOf log id ++ [e] := by
  simp [eventsOf, h]

theorem eventsOf_append_of_ne {log : List (OrderEvent α)} {e : OrderEvent α} {id : OrderId}
    (h : e.orderId ≠ id) : eventsOf (log ++ [e]) id = eventsOf log id := by
  simp [eventsOf, h]

namespace Floor

variable {f f' : Floor α σ} {id j : OrderId} {order : Order α} {pending : Bool}
  {event : OrderEvent α}

theorem docket_congr (hl : f'.ledger = f.ledger) (hg : f'.log = f.log) (id : OrderId) :
    f'.docket id = f.docket id := by
  rw [docket, docket, hl, hg]

theorem isPending_congr (h : f'.docket j = f.docket j) :
    f'.ledger.isPending j = f.ledger.isPending j :=
  congrArg Docket.pending h

theorem docket_events {published : List (OrderEvent α)} (h : f'.log = f.log ++ published)
    (id : OrderId) : (f'.docket id).events = (f.docket id).events ++ eventsOf published id := by
  rw [docket, docket, h, eventsOf, List.filter_append]
  rfl

theorem docket_refiled (h : Ledger.Refiled f.ledger f'.ledger id order pending)
    (hg : f'.log = f.log) : f'.docket id = ⟨some order, pending, eventsOf f.log id⟩ := by
  rw [docket, h.get?_self, h.isPending_self, hg]

theorem docket_refiled_of_ne (h : Ledger.Refiled f.ledger f'.ledger id order pending)
    (hg : f'.log = f.log) (hj : j ≠ id) : f'.docket j = f.docket j := by
  rw [docket, docket, h.get?_of_ne hj, h.isPending_of_ne hj, hg]

theorem docket_published (h : Ledger.Refiled f.ledger f'.ledger id order pending)
    (hg : f'.log = f.log ++ [event]) (he : event.orderId = id) :
    f'.docket id = ⟨some order, pending, eventsOf f.log id ++ [event]⟩ := by
  rw [docket, h.get?_self, h.isPending_self, hg, eventsOf_append_self he]

theorem docket_published_of_ne (h : Ledger.Refiled f.ledger f'.ledger id order pending)
    (hg : f'.log = f.log ++ [event]) (he : event.orderId = id) (hj : j ≠ id) :
    f'.docket j = f.docket j := by
  have hne : event.orderId ≠ j := fun e => hj (e.symm.trans he)
  rw [docket, docket, h.get?_of_ne hj, h.isPending_of_ne hj, hg, eventsOf_append_of_ne hne]

end Floor

variable [Scalar α]

/-- The changes that the docket of an id can take. -/
inductive Docket.Turn (models : Models α σ) (id : OrderId) : Docket α → Docket α → Prop where
  /-- A placement is accepted. -/
  | place {pending : Bool} {events : List (OrderEvent α)} (request : Order α) (time : Instant)
      (hid : request.id = id) (hs : request.status = .new)
      (hv : request.validate.isOk = true) :
      Turn models id ⟨none, pending, events⟩ ⟨some (Desk.filedOrder request), true,
        events ++ [OrderEvent.of (Desk.filedOrder request) time .submitted]⟩
  /-- An update is accepted. -/
  | update {stored : Order α} {events : List (OrderEvent α)} (request : Order α) (time : Instant)
      (hv : (stored.validateUpdate request).isOk = true) :
      Turn models id ⟨some stored, true, events⟩
        ⟨some (stored.applyUpdate (Desk.named request)), true,
          events ++ [Desk.acknowledgement (stored.applyUpdate (Desk.named request)) time]⟩
  /-- A cancel is accepted. -/
  | cancel {stored : Order α} {events : List (OrderEvent α)} (time : Instant) :
      Turn models id ⟨some stored, true, events⟩ ⟨some { stored with status := .canceled }, false,
        events ++ [OrderEvent.of { stored with status := .canceled } time .canceled]⟩
  /-- An issued event is not booked; what it says of the order's kind stands. -/
  | rekind {stored : Order α} {pending : Bool} {events : List (OrderEvent α)} {now : Instant}
      {event : OrderEvent α} {kind : OrderKind α} (ho : stored.status.isTerminal = false)
      (hi : models.Issues now stored event kind) :
      Turn models id ⟨some stored, pending, events⟩ ⟨some (stored.withKind kind), pending, events⟩
  /-- An issued event is booked. Where it was issued about the order of the id itself, the order
  takes the kind that was issued with it. -/
  | book {stored asked : Order α} {pending : Bool} {events : List (OrderEvent α)} {now : Instant}
      {event : OrderEvent α} {issued : OrderKind α} (kind : OrderKind α)
      (ha : stored.status.allows event.status = true)
      (hi : models.Issues now asked event issued) (hid : event.orderId = id)
      (hk : asked.id = id ∧ asked = stored ∧ kind = issued ∨ asked.id ≠ id ∧ kind = stored.kind) :
      Turn models id ⟨some stored, pending, events⟩
        ⟨some ((stored.withKind kind).booked event), pending && !event.status.isTerminal,
          events ++ [event]⟩
  /-- An id without an open order stops being pending. -/
  | drop {order : Option (Order α)} {pending : Bool} {events : List (OrderEvent α)}
      (h : ∀ o, order = some o → o.status.isTerminal = true) :
      Turn models id ⟨order, pending, events⟩ ⟨order, false, events⟩

/-- Where the fill model keeps to the order it was asked about, an event that is booked on an id was
issued about the order of that id. -/
theorem Models.Issues.asked_eq {models : Models α σ} (own : models.fill.KeepsToOrder)
    {now : Instant} {id : OrderId} {asked stored : Order α} {event : OrderEvent α}
    {issued kind : OrderKind α} (hi : models.Issues now asked event issued)
    (hid : event.orderId = id)
    (hk : asked.id = id ∧ asked = stored ∧ kind = issued ∨ asked.id ≠ id ∧ kind = stored.kind) :
    asked = stored := by
  rcases hk with ⟨-, h, -⟩ | ⟨hne, -⟩
  · exact h
  · exact absurd ((hi.orderId own).symm.trans hid) hne

/-- A turn publishes at most one event. It acknowledges an update, or its status is the order's. -/
theorem Docket.Turn.events_eq {models : Models α σ} {id : OrderId} {k k' : Docket α}
    (h : Turn models id k k') :
    k'.events = k.events ∨ ∃ e o, k'.events = k.events ++ [e] ∧ k'.order = some o ∧
      (e.status = o.status ∨ e.isUpdate = true ∧ e.status = .submitted) := by
  cases h with
  | place request time hid hs hv => exact .inr ⟨_, _, rfl, rfl, .inl rfl⟩
  | update request time hv => exact .inr ⟨_, _, rfl, rfl, .inr ⟨rfl, rfl⟩⟩
  | cancel time => exact .inr ⟨_, _, rfl, rfl, .inl rfl⟩
  | rekind ho hi => exact .inl rfl
  | book kind ha hi hid hk => exact .inr ⟨_, _, rfl, rfl, .inl rfl⟩
  | drop hdone => exact .inl rfl

/-! ## A look at an id -/

namespace Floor

open Relation

variable {models : Models α σ} {now : Instant} {id j : OrderId} {f f' : Floor α σ} {needed : Bool}

theorem Visited.wellFiled (h : Visited models now id f f' needed) (hf : f.ledger.WellFiled) :
    f'.ledger.WellFiled := by
  cases h with
  | stale hs hl ha hg => rw [hl]; exact hf
  | held hl ha hg => rw [hl]; exact hf
  | @rekinded order _ kind hs ho hi hl ha hg =>
    have hid : (order.withKind kind).id = id := hf id order hs
    exact hl ▸ (Ledger.setKind_refiled kind hs).wellFiled hf hid
  | @booked order event kind hs ho hi hl ha hg =>
    have hid : (order.withKind kind).id = id := hf id order hs
    have hk := (Ledger.setKind_refiled kind hs).wellFiled hf hid
    obtain ⟨stored, hs', -, hr⟩ := Ledger.record?_refiled hl
    have hid' : (stored.booked event).id = event.orderId := hk _ stored hs'
    exact hr.wellFiled hk hid'

/-- A look at an id is at most one turn for each id. -/
theorem Visited.turn (h : Visited models now id f f' needed) (hf : f.ledger.WellFiled)
    (j : OrderId) : ReflGen (Docket.Turn models j) (f.docket j) (f'.docket j) := by
  cases h with
  | stale hs hl ha hg =>
    by_cases hj : j = id
    · subst hj
      have hd : f'.docket j = ⟨f.ledger.get? j, false, eventsOf f.log j⟩ := by
        rw [docket, hl, hg, Ledger.isPending_dropPending, if_pos rfl]; rfl
      rw [hd]
      exact .single (.drop hs)
    · have hd : f'.docket j = f.docket j := by
        rw [docket, hl, hg, Ledger.isPending_dropPending, if_neg hj]; rfl
      rw [hd]
  | held hl ha hg => rw [docket_congr hl hg]
  | rekinded hs ho hi hl ha hg =>
    have hr := hl ▸ Ledger.setKind_refiled _ hs
    by_cases hj : j = id
    · subst hj
      rw [docket_refiled hr hg, docket, hs]
      exact .single (.rekind ho hi)
    · rw [docket_refiled_of_ne hr hg hj]
  | @booked order event kind hs ho hi hl ha hg =>
    have hk := Ledger.setKind_refiled kind hs
    obtain ⟨stored, hs', ha', hr⟩ := Ledger.record?_refiled hl
    by_cases he : event.orderId = id
    · -- the event is about the order that was looked at
      obtain rfl : stored = order.withKind kind := by
        rw [he, hk.get?_self] at hs'
        exact (Option.some.inj hs').symm
      rw [he] at hr
      have hr := hk.trans hr
      by_cases hj : j = id
      · subst hj
        rw [docket_published hr hg he, docket, hs, hk.isPending_self]
        exact .single (.book _ ha' hi he (.inl ⟨hf j order hs, rfl, rfl⟩))
      · rw [docket_published_of_ne hr hg he hj]
    · -- the event is about another order: the two ids take one turn each
      rw [hk.get?_of_ne he] at hs'
      by_cases hj : j = event.orderId
      · subst hj
        rw [docket_published (f := { f with ledger := f.ledger.setKind id kind }) hr hg rfl, docket,
          hs', hk.isPending_of_ne he]
        refine .single (.book stored.kind ha' hi rfl (.inr ⟨fun e => he ?_, rfl⟩))
        rw [← e, hf id order hs]
      · have hev : eventsOf f'.log j = eventsOf f.log j := by
          rw [hg, eventsOf_append_of_ne (Ne.symm hj)]
        by_cases hj' : j = id
        · subst hj'
          rw [docket, docket, hev, hr.get?_of_ne hj, hr.isPending_of_ne hj, hk.get?_self,
            hk.isPending_self, hs]
          exact .single (.rekind ho hi)
        · rw [docket, docket, hev, hr.get?_of_ne hj, hr.isPending_of_ne hj, hk.get?_of_ne hj',
            hk.isPending_of_ne hj']

theorem Visited.log_prefix (h : Visited models now id f f' needed) : f.log <+: f'.log := by
  cases h with
  | stale hs hl ha hg => exact hg ▸ List.prefix_rfl
  | held hl ha hg => exact hg ▸ List.prefix_rfl
  | rekinded hs ho hi hl ha hg => exact hg ▸ List.prefix_rfl
  | booked hs ho hi hl ha hg => exact hg ▸ List.prefix_append _ _

/-- Where the fill model keeps to the order it was asked about, a look at an id is about that id
alone. -/
theorem Visited.frame (h : Visited models now id f f' needed) (hf : f.ledger.WellFiled)
    (own : models.fill.KeepsToOrder) (hj : j ≠ id) : f'.docket j = f.docket j := by
  cases h with
  | stale hs hl ha hg =>
    rw [docket, hl, hg, Ledger.isPending_dropPending, if_neg hj]; rfl
  | held hl ha hg => exact docket_congr hl hg j
  | rekinded hs ho hi hl ha hg =>
    exact docket_refiled_of_ne (hl ▸ Ledger.setKind_refiled _ hs) hg hj
  | @booked order event kind hs ho hi hl ha hg =>
    have he : event.orderId = id := (hi.orderId own).trans (hf id order hs)
    obtain ⟨stored, -, -, hr⟩ := Ledger.record?_refiled hl
    rw [he] at hr
    exact docket_published_of_ne ((Ledger.setKind_refiled kind hs).trans hr) hg he hj

end Floor

end TradingDesk
