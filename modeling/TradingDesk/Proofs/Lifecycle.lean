import Mathlib.Data.List.Chain
import TradingDesk.Scalar.Exact
import TradingDesk.Proofs.Sound
import TradingDesk.Proofs.Rules
/- Proofs.Lifecycle — the life of an order, as its events tell it.

   `History` says which events an order with a given status can have: the event
   of its placement, then events that its status allowed, with acknowledgements
   of updates between them while it was open. Every turn of a docket keeps the
   order's events a history of it, provided that no answer of the fill model
   passes for an acknowledgement. A docket whose order is done takes no turn
   that changes it (`Turn.eq_of_closed`), whatever the models do. -/
namespace TradingDesk

variable {α σ : Type}

/-! ## Histories -/

/-- The events that report a status, acknowledgements of updates left out. -/
def statusEvents (events : List (OrderEvent α)) : List (OrderEvent α) :=
  events.filter fun e => !e.isUpdate

theorem statusEvents_append_update {events : List (OrderEvent α)} {e : OrderEvent α}
    (hu : e.isUpdate = true) : statusEvents (events ++ [e]) = statusEvents events := by
  simp [statusEvents, hu]

theorem statusEvents_append_status {events : List (OrderEvent α)} {e : OrderEvent α}
    (hu : e.isUpdate = false) : statusEvents (events ++ [e]) = statusEvents events ++ [e] := by
  simp [statusEvents, hu]

/-- The events that an order with a status can have had. -/
inductive History : List (OrderEvent α) → OrderStatus → Prop where
  | placed {e : OrderEvent α} (hs : e.status = .submitted) (hu : e.isUpdate = false) :
      History [e] .submitted
  | updated {events : List (OrderEvent α)} {s : OrderStatus} {e : OrderEvent α}
      (h : History events s) (ho : s.isTerminal = false) (hs : e.status = .submitted)
      (hu : e.isUpdate = true) : History (events ++ [e]) s
  | moved {events : List (OrderEvent α)} {s : OrderStatus} {e : OrderEvent α}
      (h : History events s) (ha : s.allows e.status = true) (hu : e.isUpdate = false) :
      History (events ++ [e]) e.status

namespace History

variable {events : List (OrderEvent α)} {s : OrderStatus}

/-- The first status reported is that of the placement. -/
theorem first (h : History events s) :
    ∃ e rest, statusEvents events = e :: rest ∧ e.status = .submitted := by
  induction h with
  | placed hs hu => exact ⟨_, [], by simp [statusEvents, hu], hs⟩
  | updated h ho hs hu ih => rwa [statusEvents_append_update hu]
  | @moved events s e h ha hu ih =>
    obtain ⟨first, rest, hf, hs⟩ := ih
    exact ⟨first, rest ++ [e], by rw [statusEvents_append_status hu, hf, List.cons_append], hs⟩

/-- The last status reported is the order's. -/
theorem last (h : History events s) :
    ∃ e, (statusEvents events).getLast? = some e ∧ e.status = s := by
  induction h with
  | placed hs hu => exact ⟨_, by simp [statusEvents, hu], hs⟩
  | updated h ho hs hu ih => rwa [statusEvents_append_update hu]
  | @moved events s e h ha hu ih =>
    exact ⟨e, by rw [statusEvents_append_status hu, List.getLast?_concat], rfl⟩

/-- Each status reported allows the next. -/
theorem chain (h : History events s) :
    (statusEvents events).IsChain fun e e' => e.status.allows e'.status = true := by
  induction h with
  | placed hs hu => simp [statusEvents, hu]
  | updated h ho hs hu ih => rwa [statusEvents_append_update hu]
  | @moved events s e h ha hu ih =>
    obtain ⟨l, hl, hs⟩ := h.last
    rw [statusEvents_append_status hu, List.isChain_append]
    refine ⟨ih, by simp, ?_⟩
    intro x hx y hy
    obtain rfl := Option.some.inj (hl.symm.trans hx)
    obtain rfl : e = y := by simpa using hy
    rwa [hs]

/-- An order that is open has had no event that closes it. -/
theorem not_terminal (h : History events s) (ho : s.isTerminal = false) :
    ∀ e ∈ events, e.status.isTerminal = false := by
  induction h with
  | placed hs hu =>
    intro e he
    rw [List.mem_singleton.mp he, hs]
    rfl
  | updated h ho' hs hu ih =>
    intro e he
    rcases List.mem_append.mp he with he | he
    · exact ih ho' e he
    · rw [List.mem_singleton.mp he, hs]
      rfl
  | moved h ha hu ih =>
    intro e he
    rcases List.mem_append.mp he with he | he
    · exact ih (OrderStatus.isOpen_of_allows ha) e he
    · rwa [List.mem_singleton.mp he]

/-- The last event was published while the order was open, or was its placement. -/
theorem front_not_terminal {front : List (OrderEvent α)} {e : OrderEvent α}
    (h : History (front ++ [e]) s) : ∀ e' ∈ front, e'.status.isTerminal = false := by
  generalize hl : front ++ [e] = events at h
  cases h with
  | placed hs hu =>
    obtain ⟨rfl, -⟩ := List.append_eq_singleton_iff.mp hl |>.resolve_right (by simp)
    simp
  | updated h ho hs hu =>
    obtain ⟨rfl, -⟩ := List.append_inj' hl rfl
    exact h.not_terminal ho
  | moved h ha hu =>
    obtain ⟨rfl, -⟩ := List.append_inj' hl rfl
    exact h.not_terminal (OrderStatus.isOpen_of_allows ha)

/-- No event follows one that closes the order. -/
theorem nothing_after {before after : List (OrderEvent α)} {e : OrderEvent α}
    (h : History (before ++ e :: after) s) (ht : e.status.isTerminal = true) : after = [] := by
  rcases List.eq_nil_or_concat after with rfl | ⟨rest, l, rfl⟩
  · rfl
  · -- with another event at the end, `e` is one of those before it
    rw [List.concat_eq_append, ← List.cons_append, ← List.append_assoc] at h
    have := h.front_not_terminal e (by simp)
    rw [ht] at this
    cases this

/-- At most one event closes the order. -/
theorem closing_count (h : History events s) :
    (events.countP fun e => e.status.isTerminal) ≤ 1 := by
  rcases List.eq_nil_or_concat events with rfl | ⟨front, e, rfl⟩
  · simp
  · rw [List.concat_eq_append] at h ⊢
    have hfront : front.countP (fun e => e.status.isTerminal) = 0 :=
      List.countP_eq_zero.mpr fun e' he' => by rw [h.front_not_terminal e' he']; decide
    rw [List.countP_append, hfront, Nat.zero_add, List.countP_singleton]
    split
    · exact Nat.le_refl 1
    · exact Nat.zero_le 1

/-- So at most one status reported is terminal. -/
theorem terminal_count (h : History events s) :
    (statusEvents events).countP (fun e => e.status.isTerminal) ≤ 1 :=
  Nat.le_trans List.filter_sublist.countP_le h.closing_count

end History

variable [Scalar α]

/-! ## Dockets -/

namespace Docket

variable {models : Models α σ} {id : OrderId} {k k' : Docket α}

/-- The events of the docket are a history of its order. -/
def Told (k : Docket α) : Prop := ∀ o, k.order = some o → History k.events o.status

omit [Scalar α] in
theorem Told.of_stored (order : Order α) {pending : Bool} {events : List (OrderEvent α)}
    (h : History events order.status) : Told ⟨some order, pending, events⟩ :=
  fun _ ho => Option.some.inj ho ▸ h

theorem Turn.told (plain : models.fill.NeverAcknowledges) (h : Turn models id k k')
    (hk : k.Sound id) (ht : k.Told) : k'.Told := by
  cases h with
  | place request time hid hs hv =>
    -- an id without an order has no events yet
    obtain rfl := (hk.absent rfl).2
    exact .of_stored (Desk.filedOrder request) (.placed rfl rfl)
  | @update stored events request time hv =>
    have hs := stored.applyUpdate_status (Desk.named request)
    refine .of_stored _ ?_
    rw [hs]
    exact (ht stored rfl).updated hk.isOpen rfl rfl
  | @cancel stored events time =>
    refine .of_stored { stored with status := .canceled } ?_
    exact (ht stored rfl).moved (OrderStatus.allows_closing hk.isOpen (.inr rfl)) rfl
  | @rekind stored _ _ _ _ kind ho hi =>
    -- the kind is no part of a history
    exact .of_stored (stored.withKind kind) (ht stored rfl)
  | @book stored asked pending events _ event _ kind ha hi hid hkind =>
    refine .of_stored ((stored.withKind kind).booked event) ?_
    exact (ht stored rfl).moved ha (hi.isUpdate plain)
  | drop hdone => exact ht

/-- An order that is done, and no longer pending, stays as it is, and nothing more is said of it. -/
theorem Turn.eq_of_closed {order : Order α} {events : List (OrderEvent α)}
    (h : Turn models id ⟨some order, false, events⟩ k')
    (ho : order.status.isTerminal = true) : k' = ⟨some order, false, events⟩ := by
  generalize hk : (⟨some order, false, events⟩ : Docket α) = k at h
  cases h with
  | place => cases hk
  | update => cases hk
  | cancel => cases hk
  | rekind hopen hi =>
    cases hk
    rw [ho] at hopen
    cases hopen
  | book kind ha hi hid hkind =>
    cases hk
    rw [OrderStatus.isOpen_of_allows ha] at ho
    cases ho
  | drop hdone => cases hk; rfl

theorem told_of_turns (plain : models.fill.NeverAcknowledges)
    (h : Relation.ReflTransGen (Turn models id) k k') (hk : k.Sound id) (ht : k.Told) :
    k'.Told := by
  induction h with
  | refl => exact ht
  | tail hs hturn ih => exact hturn.told plain (sound_of_turns hs hk) ih

theorem eq_of_closed {order : Order α} {events : List (OrderEvent α)}
    (h : Relation.ReflTransGen (Turn models id) ⟨some order, false, events⟩ k')
    (ho : order.status.isTerminal = true) : k' = ⟨some order, false, events⟩ := by
  induction h with
  | refl => rfl
  | tail _ hturn ih =>
    subst ih
    exact hturn.eq_of_closed ho

end Docket

namespace Desk

/-- The events of an order are a history of it after every run. -/
theorem run_told (models : Models α σ) (plain : models.fill.NeverAcknowledges)
    (account : Portfolio α) (memory : σ) (actions : List (Action α)) (id : OrderId) :
    (((opening account memory).run models actions).docket id).Told :=
  Docket.told_of_turns plain (run_turns models (opening_wellFiled account memory) actions id)
    (Docket.sound_unheard id) (fun o h => by cases h)

/-! ## Orders that are done -/

section Closed

variable {models : Models α σ} {d : Desk α σ} {id : OrderId} {stored : Order α}

/-- Once an order is done, no run changes its docket. -/
theorem run_docket_of_closed (hf : d.ledger.WellFiled) (hd : (d.docket id).Sound id)
    (hs : d.order? id = some stored) (ht : stored.status.isTerminal = true)
    (later : List (Action α)) : (d.run models later).docket id = d.docket id := by
  have hp : d.ledger.isPending id = false := by
    have := hd.pending_eq stored hs
    rwa [ht] at this
  have hk : d.docket id = ⟨some stored, false, eventsOf d.log id⟩ := by
    rw [Floor.docket, hp, show d.ledger.get? id = some stored from hs]
  have hturns := run_turns models hf later id
  rw [hk] at hturns ⊢
  exact Docket.eq_of_closed hturns ht

/-- A request that names an order which is stored and not pending is turned away. -/
theorem refused_of_not_pending {request : Order α} (hs : d.order? request.id = some stored)
    (hp : d.ledger.isPending request.id = false) :
    (d.place request).accepted = false ∧ (d.update request).accepted = false ∧
      (d.cancel request).accepted = false := by
  refine ⟨?_, ?_, ?_⟩
  · rw [← Bool.not_eq_true, place_accepted_iff, accepts_iff, hs]
    rintro ⟨-, hn, -⟩
    cases hn
  · rw [← Bool.not_eq_true, update_accepted_iff, acceptsUpdate_iff]
    rintro ⟨-, hp', -⟩
    rw [hp] at hp'
    cases hp'
  · rw [cancel_of_not_isPending hp]
    rfl

end Closed

/-! ## Whole runs -/

/-- The life of an order over a run. The statuses reported of an id start with submitted, each
allows the next, at most one is terminal, and nothing whatever is published of the id after it. Once
the stored order is terminal, it stays the same for the rest of the run, and every further request
with its id is turned away. -/
theorem run_lifecycle (models : Models α σ) (plain : models.fill.NeverAcknowledges)
    (account : Portfolio α) (memory : σ) (actions : List (Action α)) (id : OrderId) :
    let d := (opening account memory).run models actions
    let events := eventsOf d.log id
    (events ≠ [] → ∃ e rest, statusEvents events = e :: rest ∧ e.status = .submitted) ∧
    (statusEvents events).IsChain (fun e e' => e.status.allows e'.status = true) ∧
    (statusEvents events).countP (fun e => e.status.isTerminal) ≤ 1 ∧
    (∀ before e after, events = before ++ e :: after → e.status.isTerminal = true →
      after = []) ∧
    (∀ stored, d.order? id = some stored → stored.status.isTerminal = true →
      ∀ later : List (Action α),
        let d' := d.run models later
        d'.order? id = some stored ∧ eventsOf d'.log id = events ∧
        ∀ request : Order α, request.id = id →
          (d'.place request).accepted = false ∧ (d'.update request).accepted = false ∧
          (d'.cancel request).accepted = false) := by
  intro d events
  have hf : d.ledger.WellFiled := run_wellFiled models (opening_wellFiled account memory) actions
  have hsound : (d.docket id).Sound id := run_sound models account memory actions id
  have htold : (d.docket id).Told := run_told models plain account memory actions id
  have hevents : events = [] ∨ ∃ s, History events s := by
    cases hs : d.order? id with
    | none => exact .inl (hsound.absent hs).2
    | some o => exact .inr ⟨o.status, htold o hs⟩
  refine ⟨?_, ?_, ?_, ?_, ?_⟩
  · intro hne
    obtain ⟨s, h⟩ := hevents.resolve_left hne
    exact h.first
  · rcases hevents with h | ⟨s, h⟩
    · rw [h]; exact .nil
    · exact h.chain
  · rcases hevents with h | ⟨s, h⟩
    · rw [h]; exact Nat.zero_le 1
    · exact h.terminal_count
  · intro before e after he ht
    rcases hevents with h | ⟨s, h⟩
    · rw [h] at he
      simp at he
    · rw [he] at h
      exact h.nothing_after ht
  · intro stored hs ht later d'
    have hd : d'.docket id = d.docket id := run_docket_of_closed hf hsound hs ht later
    have hs' : d'.order? id = some stored := (congrArg Docket.order hd).trans hs
    have hp : d'.ledger.isPending id = false := by
      rw [Floor.isPending_congr hd]
      exact (hsound.pending_eq stored hs).trans (by rw [ht]; rfl)
    refine ⟨hs', congrArg Docket.events hd, ?_⟩
    rintro request rfl
    exact refused_of_not_pending hs' hp

/-- A buying power model that crashes closes the order it was asked about, for good. -/
theorem run_lifecycle_of_crash :
    let models : Models Rat (Usage Rat) :=
      { Config.default.models Table.empty with
        afford := fun _ _ _ _ => Trial.fail (.crash (some "margin feed down")) }
    let buy : Order Rat :=
      { id := 3, symbol := "SPY", quantity := 10, kind := .limit 99, time := ⟨0⟩, filled := 0 }
    let d := (opening (Portfolio.ofCash "USD" 1000) Table.empty).run models
      [.showSnapshot (Snapshot.ofPrice "SPY" ⟨60⟩ 100), .place buy,
        .update { buy with quantity := 12 }, .scan ⟨60⟩]
    models.fill.NeverAcknowledges ∧
      (eventsOf d.log 3).map (fun e => (e.status, e.isUpdate)) =
        [(.submitted, false), (.submitted, true), (.invalid, false)] ∧
      ∀ later : List (Action Rat), ((d.run models later).cancel buy).accepted = false := by
  intro models buy d
  have plain : models.fill.NeverAcknowledges :=
    FillConfig.default.fillModel_followsRules.neverAcknowledges
  have h := run_lifecycle models plain (Portfolio.ofCash "USD" 1000) Table.empty
    [.showSnapshot (Snapshot.ofPrice "SPY" ⟨60⟩ 100), .place buy,
      .update { buy with quantity := 12 }, .scan ⟨60⟩] 3
  have hclosed : (d.order? 3).any (fun o => o.status.isTerminal) = true := by decide +kernel
  obtain ⟨stored, hs, ht⟩ := (Option.any_eq_true _ _).mp hclosed
  refine ⟨plain, by decide +kernel, fun later => ?_⟩
  exact ((h.2.2.2.2 stored hs ht later).2.2 buy rfl).2.2

end Desk

end TradingDesk
