import TradingDesk.Model.Scripted
import TradingDesk.Proofs.Pending
/- Proofs.Frame — what a pass changes, and what it leaves alone.

   A pass looks at the ids that are pending when it begins, in ascending order. Where
   the fill model keeps to the order it was asked about, the look at an id finds the
   docket as the pass found it, and no later look changes what it leaves behind
   (`pass_docket`). So a pass publishes at most one event of each of these ids, in
   their order (`visitAll_published`), and the docket of an order with an event
   differs from what it was by that event alone.

   `Framed` puts this together for a ledger whose pending set agrees with its orders
   (`Ledger.Orderly`), as that of every run does (`run_orderly`). The built-in fill rules
   add that the kind of an order changes by the mark of a reached stop at most, whatever
   the models for buying power, fees and execution answer, faults included. -/
namespace TradingDesk

variable {α σ τ : Type}

/-! ## The invariant of the pending set -/

/-- Every order is stored under its own id, and an id is pending exactly while its order is stored
and open. -/
structure Ledger.Orderly (l : Ledger α) : Prop where
  wellFiled : l.WellFiled
  pending_iff : ∀ id, l.isPending id = true ↔
    ∃ o, l.get? id = some o ∧ o.status.isTerminal = false

/-- An order that is pending is open. -/
theorem Ledger.Orderly.isOpen {l : Ledger α} (orderly : l.Orderly) {id : OrderId} {o : Order α}
    (hp : l.isPending id = true) (hs : l.get? id = some o) : o.status.isTerminal = false := by
  obtain ⟨o', hs', ho⟩ := (orderly.pending_iff id).mp hp
  rwa [Option.some.inj (hs.symm.trans hs')]

theorem Ledger.Orderly.backed {l : Ledger α} (orderly : l.Orderly) : l.Backed := by
  intro id hp
  obtain ⟨o, hs, -⟩ := (orderly.pending_iff id).mp hp
  exact Option.isSome_of_eq_some hs

theorem OrderKind.trigger_false (kind : OrderKind α) : kind.trigger false = kind := by
  cases kind <;> simp [OrderKind.trigger]

variable [Scalar α]

/-- The pending set agrees with the orders after every run, whatever the models did. -/
theorem Desk.run_orderly (models : Models α σ) (account : Portfolio α) (memory : σ)
    (actions : List (Action α)) :
    ((Desk.opening account memory).run models actions).ledger.Orderly where
  wellFiled := Desk.run_wellFiled models (Desk.opening_wellFiled account memory) actions
  pending_iff id := (Desk.run_sound models account memory actions id).pending_iff

/-- What a pass issues about an order comes with its kind, but for the mark of a reached stop. -/
theorem Models.Issues.kind_eq {models : Models α σ} (marks : models.fill.MarksStops)
    {now : Instant} {order : Order α} {event : OrderEvent α} {kind : OrderKind α}
    (h : models.Issues now order event kind) : ∃ reached, kind = order.kind.trigger reached := by
  cases h with
  | closing message h => exact ⟨false, order.kind.trigger_false.symm⟩
  | answer h =>
    obtain ⟨answered, fee, ha, -⟩ := attemptFill_ok h
    exact marks _ _ _ answered _ ha

namespace Floor

variable {models : Models α σ} {board : Board α} {now : Instant} {f : Floor α σ} {id : OrderId}
  {order : Order α}

/-! ## One look of a pass -/

theorem visitAll_append (ids later : List OrderId) :
    (f.visitAll models board now (ids ++ later)).1 =
      ((f.visitAll models board now ids).1.visitAll models board now later).1 := by
  induction ids generalizing f with
  | nil => rfl
  | cons id ids ih =>
    rw [List.cons_append, visitAll_cons, visitAll_cons]
    exact ih

/-- The floor as the look at an id finds it in a pass: the pending ids before it have been looked
at. -/
def before (models : Models α σ) (board : Board α) (now : Instant) (f : Floor α σ) (id : OrderId) :
    Floor α σ :=
  (f.visitAll models board now (f.ledger.pendingIds.filter (· < id))).1

/-- The elements of an ascending list before one of them are those that are less. -/
theorem ascending_split {ids : List OrderId} (ha : ids.Pairwise (· < ·)) (hid : id ∈ ids) :
    ∃ later, ids = ids.filter (· < id) ++ id :: later ∧ id ∉ later := by
  obtain ⟨earlier, later, rfl⟩ := List.append_of_mem hid
  obtain ⟨-, htail, hless⟩ := List.pairwise_append.mp ha
  have hlater : ∀ j ∈ later, id < j := fun j hj => List.rel_of_pairwise_cons htail hj
  have hearlier : ∀ j ∈ earlier, j < id := fun j hj => hless j hj id List.mem_cons_self
  have hfilter : (earlier ++ id :: later).filter (· < id) = earlier := by
    rw [List.filter_append, List.filter_cons, List.filter_eq_self.mpr, List.filter_eq_nil_iff.mpr]
    · simp
    · intro j hj
      simpa using UInt64.le_of_lt (hlater j hj)
    · simpa using hearlier
  rw [hfilter]
  exact ⟨later, rfl, fun h => UInt64.lt_irrefl id (hlater id h)⟩

theorem before_wellFiled (models : Models α σ) (board : Board α) (now : Instant) (id : OrderId)
    (hf : f.ledger.WellFiled) : (f.before models board now id).ledger.WellFiled :=
  visitAll_wellFiled _ hf

/-- The looks at lesser ids leave a docket as the pass found it. -/
theorem before_docket (board : Board α) (now : Instant) (id : OrderId) (hf : f.ledger.WellFiled)
    (own : models.fill.KeepsToOrder) :
    (f.before models board now id).docket id = f.docket id :=
  visitAll_frame board now hf own (by simp)

/-- A pass looks at a pending id once. The look finds the docket as the pass found it and leaves it
as the pass leaves it. -/
theorem pass_docket (board : Board α) (now : Instant) (hf : f.ledger.WellFiled)
    (own : models.fill.KeepsToOrder) (hp : f.ledger.isPending id = true) :
    (f.before models board now id).docket id = f.docket id ∧
      (f.pass models board now).1.docket id =
        ((f.before models board now id).visit models board now id).1.docket id := by
  obtain ⟨later, hids, hlater⟩ :=
    ascending_split f.ledger.pendingIds_ascending (Ledger.mem_pendingIds.mpr hp)
  have hbefore := before_wellFiled models board now id hf
  have hvisit := (visit_visited models board now _ id hbefore).wellFiled hbefore
  refine ⟨before_docket board now id hf own, ?_⟩
  rw [pass, hids, visitAll_append, visitAll_cons]
  exact visitAll_frame board now hvisit own hlater

/-- A look at a pending order marks its stop at most, or publishes one event and books that. -/
theorem Visited.docket_cases {f' : Floor α σ} {needed : Bool}
    (h : Visited models now id f f' needed) (hf : f.ledger.WellFiled)
    (own : models.fill.KeepsToOrder) (marks : models.fill.MarksStops)
    (hs : f.ledger.get? id = some order) (ho : order.status.isTerminal = false)
    (hp : f.ledger.isPending id = true) :
    ∃ reached,
      f'.docket id =
        ⟨some (order.withKind (order.kind.trigger reached)), true, eventsOf f.log id⟩ ∨
      ∃ event, event.orderId = id ∧
        f'.docket id = ⟨some ((order.withKind (order.kind.trigger reached)).booked event),
          !event.status.isTerminal, eventsOf f.log id ++ [event]⟩ := by
  cases h with
  | stale hdone hl ha hg =>
    rw [hdone order hs] at ho
    cases ho
  | held hl ha hg =>
    refine ⟨false, .inl ?_⟩
    rw [docket_congr hl hg, docket, hs, hp, OrderKind.trigger_false]
    rfl
  | rekinded hs' ho' hi hl ha hg =>
    obtain rfl := Option.some.inj (hs.symm.trans hs')
    obtain ⟨reached, rfl⟩ := hi.kind_eq marks
    refine ⟨reached, .inl ?_⟩
    rw [docket_refiled (hl ▸ Ledger.setKind_refiled _ hs) hg, hp]
  | @booked _ event _ hs' ho' hi hl ha hg =>
    obtain rfl := Option.some.inj (hs.symm.trans hs')
    obtain ⟨reached, rfl⟩ := hi.kind_eq marks
    have he : event.orderId = id := (hi.orderId own).trans (hf id order hs)
    refine ⟨reached, .inr ⟨event, he, ?_⟩⟩
    rw [docket_published (Ledger.setKind_record?_refiled hs he hl) hg he, hp, Bool.true_and]

/-! ## The events of a pass -/

/-- A look at an id publishes nothing, or one event of the id. -/
theorem Visited.log_cases {f' : Floor α σ} {needed : Bool}
    (h : Visited models now id f f' needed) (hf : f.ledger.WellFiled)
    (own : models.fill.KeepsToOrder) :
    f'.log = f.log ∨ ∃ event, f'.log = f.log ++ [event] ∧ event.orderId = id := by
  cases h with
  | stale hdone hl ha hg => exact .inl hg
  | held hl ha hg => exact .inl hg
  | rekinded hs ho hi hl ha hg => exact .inl hg
  | booked hs ho hi hl ha hg => exact .inr ⟨_, hg, (hi.orderId own).trans (hf id _ hs)⟩

/-- Looks at ids publish at most one event of each, in the order of the ids. -/
theorem visitAll_published (board : Board α) (now : Instant) (ids : List OrderId)
    (hf : f.ledger.WellFiled) (own : models.fill.KeepsToOrder) :
    ∃ published, (f.visitAll models board now ids).1.log = f.log ++ published ∧
      (published.map OrderEvent.orderId).Sublist ids := by
  induction ids generalizing f with
  | nil => exact ⟨[], (List.append_nil _).symm, List.Sublist.slnil⟩
  | cons id ids ih =>
    have hv := visit_visited models board now f id hf
    obtain ⟨published, hlog, hsub⟩ := ih (hv.wellFiled hf)
    rw [visitAll_cons, hlog]
    obtain hg | ⟨event, hg, he⟩ := hv.log_cases hf own
    · exact ⟨published, by rw [hg], hsub.cons id⟩
    · refine ⟨event :: published, by rw [hg, List.append_assoc]; rfl, ?_⟩
      rw [List.map_cons, he]
      exact hsub.cons_cons id

/-- What a pass changes on the floor, with the events it publishes. -/
structure Framed (f f' : Floor α σ) (published : List (OrderEvent α)) : Prop where
  log : f'.log = f.log ++ published
  /-- At most one event for each id, by ascending id. -/
  ascending : (published.map OrderEvent.orderId).Pairwise (· < ·)
  /-- Events are about ids that were pending. -/
  pending : ∀ e ∈ published, f.ledger.isPending e.orderId = true
  /-- What was not pending is as it was. -/
  untouched : ∀ id, f.ledger.isPending id = false → f'.docket id = f.docket id
  /-- A pending order without an event stays pending, and at most its stop is marked as reached. -/
  unheard : ∀ id o, f.ledger.isPending id = true → f.ledger.get? id = some o →
    (∀ e ∈ published, e.orderId ≠ id) → f'.ledger.isPending id = true ∧
      ∃ reached, f'.ledger.get? id = some { o with kind := o.kind.trigger reached }
  /-- An order with an event has the event's status and fill, and at most its stop is marked as
  reached. It stays pending unless the event ends it. -/
  heard : ∀ e ∈ published, ∀ o, f.ledger.get? e.orderId = some o →
    f'.ledger.isPending e.orderId = !e.status.isTerminal ∧
      ∃ reached, f'.ledger.get? e.orderId = some
        { o with
          kind := o.kind.trigger reached
          status := e.status
          filled := o.filled + e.fillQuantity }
  /-- No id becomes pending. -/
  noEntry : ∀ id, f'.ledger.isPending id = true → f.ledger.isPending id = true

/-- Over a pass a pending order takes at most the mark of its stop, or the one event that the pass
publishes of it. -/
theorem pass_docket_cases (orderly : f.ledger.Orderly) (own : models.fill.KeepsToOrder)
    (marks : models.fill.MarksStops) {published : List (OrderEvent α)}
    (hlog : (f.pass models board now).1.log = f.log ++ published)
    (hp : f.ledger.isPending id = true) (hs : f.ledger.get? id = some order) :
    ∃ reached,
      (eventsOf published id = [] ∧
        (f.pass models board now).1.ledger.isPending id = true ∧
        (f.pass models board now).1.ledger.get? id =
          some (order.withKind (order.kind.trigger reached))) ∨
      ∃ event, eventsOf published id = [event] ∧ event.orderId = id ∧
        (f.pass models board now).1.ledger.isPending id = !event.status.isTerminal ∧
        (f.pass models board now).1.ledger.get? id =
          some ((order.withKind (order.kind.trigger reached)).booked event) := by
  have ho := orderly.isOpen hp hs
  have hf := before_wellFiled models board now id orderly.wellFiled
  obtain ⟨hfound, hleft⟩ := pass_docket board now orderly.wellFiled own hp
  have hold : eventsOf (f.before models board now id).log id = (f.docket id).events :=
    congrArg Docket.events hfound
  have hevents := docket_events hlog id
  obtain ⟨reached, hd | ⟨event, he, hd⟩⟩ :=
    (visit_visited models board now _ id hf).docket_cases hf own marks
      ((congrArg Docket.order hfound).trans hs) ho ((congrArg Docket.pending hfound).trans hp)
  · rw [← hleft, hold] at hd
    rw [hd] at hevents
    exact ⟨reached, .inl ⟨List.append_right_eq_self.mp hevents.symm, congrArg Docket.pending hd,
      congrArg Docket.order hd⟩⟩
  · rw [← hleft, hold] at hd
    rw [hd] at hevents
    exact ⟨reached, .inr ⟨event, (List.append_cancel_left hevents).symm, he,
      congrArg Docket.pending hd, congrArg Docket.order hd⟩⟩

/-- A pass at any time and on any board is framed, where the fill model keeps to the order it was
asked about and changes kinds by the mark of a reached stop only. -/
theorem pass_framed (models : Models α σ) (own : models.fill.KeepsToOrder)
    (marks : models.fill.MarksStops) (board : Board α) (now : Instant)
    (orderly : f.ledger.Orderly) :
    ∃ published, f.Framed (f.pass models board now).1 published := by
  have hf := orderly.wellFiled
  obtain ⟨published, hlog, hsub⟩ := visitAll_published board now f.ledger.pendingIds hf own
  change (f.pass models board now).1.log = f.log ++ published at hlog
  have hpending : ∀ e ∈ published, f.ledger.isPending e.orderId = true := by
    intro e he
    exact Ledger.mem_pendingIds.mp (hsub.subset (List.mem_map_of_mem he))
  have huntouched : ∀ id, f.ledger.isPending id = false →
      (f.pass models board now).1.docket id = f.docket id := by
    intro id hp
    apply visitAll_frame board now hf own
    rw [Ledger.mem_pendingIds, hp]
    exact Bool.false_ne_true
  refine ⟨published, hlog, f.ledger.pendingIds_ascending.sublist hsub, hpending, huntouched, ?_, ?_,
    ?_⟩
  · intro id o hp hs hnone
    obtain ⟨reached, ⟨-, hp', hs'⟩ | ⟨event, hevent, he, -⟩⟩ :=
      pass_docket_cases orderly own marks hlog hp hs
    · exact ⟨hp', reached, hs'⟩
    · have hmem : event ∈ eventsOf published id := hevent ▸ List.mem_singleton_self event
      exact absurd he (hnone event (List.mem_filter.mp hmem).1)
  · intro e he o hs
    have hmem : e ∈ eventsOf published e.orderId :=
      List.mem_filter.mpr ⟨he, beq_self_eq_true _⟩
    obtain ⟨reached, ⟨hnone, -⟩ | ⟨event, hevent, -, hp', hs'⟩⟩ :=
      pass_docket_cases orderly own marks hlog (hpending e he) hs
    · rw [hnone] at hmem
      cases hmem
    · rw [hevent, List.mem_singleton] at hmem
      subst hmem
      exact ⟨hp', reached, hs'⟩
  · intro id hp
    cases h : f.ledger.isPending id with
    | true => rfl
    | false => rw [← h, ← isPending_congr (huntouched id h), hp]

/-- Whether or not an event is published of it, a pending order keeps all but its status, its fill
progress and the mark of its stop. -/
theorem Framed.get?_eq {f' : Floor α σ} {published : List (OrderEvent α)}
    (framed : f.Framed f' published) (hp : f.ledger.isPending id = true)
    (hs : f.ledger.get? id = some order) :
    ∃ reached status filled, f'.ledger.get? id = some
      { order with kind := order.kind.trigger reached, status := status, filled := filled } := by
  by_cases hheard : ∃ e ∈ published, e.orderId = id
  · obtain ⟨e, he, rfl⟩ := hheard
    obtain ⟨-, reached, hs'⟩ := framed.heard e he order hs
    exact ⟨reached, _, _, hs'⟩
  · obtain ⟨-, reached, hs'⟩ :=
      framed.unheard id order hp hs fun e he hid => hheard ⟨e, he, hid⟩
    exact ⟨reached, _, _, hs'⟩

/-- A pass with the built-in fill rules is framed, whatever the models for buying power, fees and
execution answer: its events are about pending ids, at most one for each and by ascending id; an
order without an event keeps all but the mark of its stop, and one with an event takes the event's
status and fill besides; nothing else changes, and nothing becomes pending. -/
theorem pass_frames_orders (models : Models α τ) (c : FillConfig α) (board : Board α)
    (now : Instant) (f : Floor α (Usage α × τ)) (orderly : f.ledger.Orderly) :
    ∃ published, f.Framed (f.pass (models.withFill c.fillModel) board now).1 published :=
  pass_framed _ (models.withFill_followsRules c).keepsToOrder c.fillModel_marksStops.onFirst board
    now orderly

/-- Five orders on a bar of twelve units, half of which may be filled. The stop of the first is
reached at a price beyond its limit, the second is cut short by the volume, the third is on a
security that is not tracked, the fee of the fourth faults, and the last was canceled before. -/
theorem pass_frames_orders_of_five :
    let c : FillConfig Rat := ⟨0, 1 / 100, some (1 / 2)⟩
    let models : Models Rat (Rehearsal Rat (Usage Rat)) :=
      ((Config.default : Config Rat).models Table.empty).scripted
    let outage : Incident Rat := ⟨.fee, none, 3, some 1, .fault (.error ["fee service down"])⟩
    let order (id : OrderId) (kind : OrderKind Rat) : Order Rat :=
      { id := id, symbol := "SPY", quantity := 10, kind := kind, time := ⟨0⟩, filled := 0 }
    let memory : Usage Rat × Rehearsal Rat (Usage Rat) :=
      (Table.empty, ⟨Table.empty, Script.ofIncidents [outage]⟩)
    let actions : List (Action Rat) :=
      [.showSnapshot (Snapshot.ofBar "SPY" (Bar.flat ⟨60⟩ 100 12)),
        .place (order 1 (.stopLimit 98 99 false)), .place (order 2 .market),
        .place { order 3 .market with symbol := "QQQ" }, .place (order 4 .market),
        .place (order 5 .market), .cancel (order 5 .market)]
    let d := (Desk.opening (Portfolio.ofCash "USD" 100000) memory).run
      (models.withFill c.fillModel) actions
    let f' := (d.toFloor.pass (models.withFill c.fillModel) d.board ⟨60⟩).1
    d.ledger.Orderly ∧
      (∃ published, d.toFloor.Framed f' published ∧
        published.map (fun e => (e.orderId, e.status, e.fillQuantity)) =
          [(2, .partiallyFilled, 6), (3, .invalid, 0), (4, .invalid, 0)]) ∧
      (d.order? 1).map Order.kind = some (.stopLimit 98 99 false) ∧
      (f'.ledger.get? 1).map Order.kind = some (.stopLimit 98 99 true) := by
  intro c models outage order memory actions d f'
  have orderly : d.ledger.Orderly := by apply Desk.run_orderly
  obtain ⟨published, framed⟩ := pass_frames_orders models c d.board ⟨60⟩ d.toFloor orderly
  have hpublished : published = f'.log.drop d.log.length := by
    rw [framed.log, List.drop_left]
  refine ⟨orderly, ⟨published, framed, ?_⟩, by decide +kernel, by decide +kernel⟩
  rw [hpublished]
  decide +kernel

end Floor

end TradingDesk
