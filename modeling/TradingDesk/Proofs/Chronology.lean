import TradingDesk.Proofs.Admission
import TradingDesk.Proofs.Timing
/- Proofs.Chronology — in what order the events of an order are dated.

   A pass dates its events by its own time, a request by the later of the latest scan and the
   order it is asked with (`eventTime`). On a run whose clock does not go back, and which
   places no order that is created after the next scan, all of these dates are in order as
   long as a request is dated as the stored order would be. A placement always is. An update
   or a cancel may come with a copy that names another creation time, and is then dated by
   that: the events of an order are in order at every point of a run exactly if each update
   and cancel of it is answered in time (`run_dated_iff`), and one need not be
   (`stale_copies_misdate`). -/
namespace TradingDesk

variable {α σ : Type}

/-- What holds at every index of a list holds wherever the list is split. -/
theorem forall_splits {β : Type} {P : List β → β → List β → Prop} {l : List β}
    (h : ∀ (i : Nat) (hi : i < l.length), P (l.take i) l[i] (l.drop (i + 1))) :
    ∀ earlier b later, l = earlier ++ b :: later → P earlier b later := by
  rintro earlier b later rfl
  simpa using h earlier.length (by simp)

/-! ## Dated events -/

/-- The events of an order are dated in their order, none before the order was created, and while
the order is open none later than the clock. -/
structure Dated (events : List (OrderEvent α)) (o : Order α) (clock : Instant) : Prop where
  ascending : events.Pairwise fun e e' => e.time ≤ e'.time
  created : ∀ e ∈ events, o.time ≤ e.time
  reached : o.status.isTerminal = false → ∀ e ∈ events, e.time ≤ clock

namespace Dated

variable {events : List (OrderEvent α)} {o o' : Order α} {clock clock' : Instant}
  {e : OrderEvent α}

theorem nil (o : Order α) (clock : Instant) : Dated [] o clock := ⟨.nil, nofun, nofun⟩

/-- A further event of an open order that is not dated before the clock. -/
theorem concat (h : Dated events o clock) (ho : o.status.isTerminal = false)
    (hclock : clock ≤ e.time) (hcreated : o.time ≤ clock) (htime : o'.time = o.time)
    (hreached : o'.status.isTerminal = false → e.time ≤ clock') :
    Dated (events ++ [e]) o' clock' := by
  have hbefore : ∀ e' ∈ events, e'.time ≤ e.time := fun e' he' =>
    Instant.le_trans (h.reached ho e' he') hclock
  refine ⟨?_, ?_, ?_⟩
  · rw [List.pairwise_append]
    refine ⟨h.ascending, List.pairwise_singleton _ _, ?_⟩
    intro e' he' last hlast
    rw [List.mem_singleton.mp hlast]
    exact hbefore e' he'
  · intro e' he'
    rw [htime]
    rcases List.mem_append.mp he' with he' | he'
    · exact h.created e' he'
    · rw [List.mem_singleton.mp he']
      exact Instant.le_trans hcreated hclock
  · intro ho' e' he'
    rcases List.mem_append.mp he' with he' | he'
    · exact Instant.le_trans (hbefore e' he') (hreached ho')
    · rw [List.mem_singleton.mp he']
      exact hreached ho'

/-- The clock may go on, and the order change in all but its creation time. -/
theorem later (h : Dated events o clock) (hclock : clock ≤ clock') (htime : o'.time = o.time)
    (hopen : o'.status.isTerminal = false → o.status.isTerminal = false) :
    Dated events o' clock' where
  ascending := h.ascending
  created e he := htime ▸ h.created e he
  reached ho' e he := Instant.le_trans (h.reached (hopen ho') e he) hclock

end Dated

/-! ## The clock of a run -/

/-- The times of the scans among actions. -/
def scanTimes (actions : List (Action α)) : List Instant :=
  actions.filterMap fun
    | .scan now => some now
    | _ => none

theorem scanTimes_append (earlier later : List (Action α)) :
    scanTimes (earlier ++ later) = scanTimes earlier ++ scanTimes later :=
  List.filterMap_append

theorem scanTimes_scan (now : Instant) (later : List (Action α)) :
    scanTimes (.scan now :: later) = now :: scanTimes later := rfl

namespace Desk

variable {d d' : Desk α σ} {o request stored : Order α} {now : Instant}

theorem time_le_eventTime (ht : d.time = some now) (o : Order α) : now ≤ d.eventTime o := by
  rw [eventTime, ht, Instant.le_iff]
  simp only [Instant.ticks_max]
  omega

theorem created_le_eventTime (d : Desk α σ) (o : Order α) : o.time ≤ d.eventTime o := by
  rw [eventTime, Instant.le_iff]
  split
  · simp only [Instant.ticks_max]
    omega
  · exact Int.le_refl _

theorem eventTime_le {t : Instant} (htime : ∀ now, d.time = some now → now ≤ t)
    (hcreated : o.time ≤ t) : d.eventTime o ≤ t := by
  rw [eventTime]
  split
  · next now ht =>
    have hnow := htime now ht
    rw [Instant.le_iff] at hnow hcreated ⊢
    rw [Instant.ticks_max]
    omega
  · exact hcreated

/-- An answer that is not dated before the stored order's creation is not dated before the stored
order would be. -/
theorem eventTime_le_of_created (h : stored.time ≤ d.eventTime request) :
    d.eventTime stored ≤ d.eventTime request :=
  eventTime_le (fun _ ht => time_le_eventTime ht request) h

/-- The date of an answer depends on the clock of the desk and the creation time of the order. -/
theorem eventTime_congr (ht : d'.time = d.time) (ho : request.time = stored.time) :
    d'.eventTime request = d.eventTime stored := by
  rw [eventTime, eventTime, ht, ho]

end Desk

variable [Scalar α]

namespace Desk

variable {models : Models α σ} {c : FillConfig α} {d d' : Desk α σ} {id : OrderId}
  {o request stored : Order α} {now : Instant} {a : Action α}

theorem Files.time_eq (h : Files d d') : d'.time = d.time := by
  cases h <;> rfl

theorem step_time (models : Models α σ) (d : Desk α σ) (a : Action α) :
    (d.step models a).time = (scanTimes [a]).getLast?.or d.time := by
  cases a with
  | place request => exact (d.place_files request).time_eq
  | update request => exact (d.update_files request).time_eq
  | cancel request => exact (d.cancel_files request).time_eq
  | scan now =>
    rw [step, scan]
    split <;> rfl
  | showSnapshot s => rfl
  | untrack symbol => rfl
  | mark symbol price => rfl

/-- A desk has the time of the latest scan. -/
theorem run_time (models : Models α σ) (d : Desk α σ) (actions : List (Action α)) :
    (d.run models actions).time = (scanTimes actions).getLast?.or d.time := by
  induction actions generalizing d with
  | nil => rfl
  | cons a actions ih =>
    show _ = (scanTimes ([a] ++ actions)).getLast?.or d.time
    rw [run_cons, ih, step_time, scanTimes_append, List.getLast?_append, Option.or_assoc]

/-! ## Runs whose clock does not go back -/

/-- The clock of a run does not go back, and no order that the run accepts is created after the next
scan. -/
structure RunsForward (models : Models α σ) (d : Desk α σ) (actions : List (Action α)) : Prop where
  scans : (scanTimes actions).Pairwise (· ≤ ·)
  placements : ∀ earlier request later, actions = earlier ++ .place request :: later →
    ((d.run models earlier).place request).accepted = true →
    ∀ now, (scanTimes later).head? = some now → request.time ≤ now

/-- If the action asks for a placement, its order is not created after the first scan that
follows. -/
def AsksInTime (later : List (Action α)) : Action α → Prop
  | .place request => ∀ now ∈ (scanTimes later).head?, request.time ≤ now
  | _ => True

instance (later : List (Action α)) : DecidablePred (AsksInTime later)
  | .place _ => inferInstanceAs (Decidable (∀ now ∈ (scanTimes later).head?, _))
  | .update _ | .cancel _ | .scan _ | .showSnapshot _ | .untrack _ | .mark _ _ => .isTrue trivial

/-- The same said of what a run is asked for, whether it is accepted or not. -/
theorem RunsForward.of_asked {actions : List (Action α)}
    (hscans : (scanTimes actions).Pairwise (· ≤ ·))
    (h : ∀ (i : Nat) (hi : i < actions.length), AsksInTime (actions.drop (i + 1)) actions[i]) :
    RunsForward models d actions where
  scans := hscans
  placements earlier request later hactions _ := forall_splits
    (P := fun _ a later => AsksInTime later a) h earlier (.place request) later hactions

section Forward

variable {account : Portfolio α} {memory : σ} {actions earlier later : List (Action α)}

/-- An order that is stored has the creation time it was placed with. -/
theorem exists_placement (ho : ((opening account memory).run models actions).order? id = some o) :
    ∃ request, Accepts models (opening account memory) actions request ∧
      request.time = o.time := by
  obtain ⟨request, haccepts, rfl⟩ := exists_accepted ho
  obtain ⟨time, hturns⟩ := run_turns_of_accepted haccepts
  obtain ⟨o', ho', htime⟩ := Docket.time_of_turns hturns rfl
  obtain rfl := Option.some.inj (ho.symm.trans ho')
  exact ⟨request, haccepts, (htime.trans (request.addBrokerId_time _)).symm⟩

/-- No order is created after a scan that comes after its placement. -/
theorem RunsForward.created_le (h : RunsForward models (opening account memory) actions)
    (hactions : actions = earlier ++ .scan now :: later)
    (ho : ((opening account memory).run models earlier).order? id = some o) : o.time ≤ now := by
  obtain ⟨request, ⟨before, after, rfl, haccepted⟩, htime⟩ := exists_placement ho
  rw [← htime]
  have hnext := h.placements before request (after ++ .scan now :: later)
    (by rw [hactions, List.append_assoc]; rfl) haccepted
  rw [scanTimes_append, scanTimes_scan, List.head?_append] at hnext
  cases hfirst : (scanTimes after).head? with
  | none => exact hnext now (by rw [hfirst]; rfl)
  | some first =>
    have hscans := h.scans
    rw [hactions, scanTimes_append, scanTimes_scan, List.pairwise_append] at hscans
    refine Instant.le_trans (hnext first (by rw [hfirst]; rfl)) ?_
    refine hscans.2.2 first ?_ now List.mem_cons_self
    rw [scanTimes_append]
    exact List.mem_append_right _ (List.mem_of_mem_head? hfirst)

/-- A scan comes no earlier than the desk would date an event of a stored order. -/
theorem RunsForward.eventTime_le (h : RunsForward models (opening account memory) actions)
    (hactions : actions = earlier ++ .scan now :: later)
    (ho : ((opening account memory).run models earlier).order? id = some o) :
    ((opening account memory).run models earlier).eventTime o ≤ now := by
  refine Desk.eventTime_le (fun t ht => ?_) (h.created_le hactions ho)
  have hscans := h.scans
  rw [hactions, scanTimes_append, scanTimes_scan, List.pairwise_append] at hscans
  rw [run_time, show (opening account memory).time = none from rfl, Option.or_none] at ht
  exact hscans.2.2 t (List.mem_of_getLast? ht) now List.mem_cons_self

end Forward

/-! ## What a step dates -/

/-- The events of the order under an id are dated in order, up to the clock of the desk. -/
def DatedAt (d : Desk α σ) (id : OrderId) : Prop :=
  ∀ o, d.order? id = some o → Dated (eventsOf d.log id) o (d.eventTime o)

/-- If the action is an accepted update of the id, it is dated as the stored order would be; if it
is an accepted cancel, it is not dated before. -/
def AnswersInTime (d : Desk α σ) (id : OrderId) : Action α → Prop
  | .update request => request.id = id → (d.update request).accepted = true →
      ∀ stored ∈ d.order? id, d.eventTime request = d.eventTime stored
  | .cancel request => request.id = id → (d.cancel request).accepted = true →
      ∀ stored ∈ d.order? id, d.eventTime stored ≤ d.eventTime request
  | _ => True

instance (d : Desk α σ) (id : OrderId) : (a : Action α) → Decidable (d.AnswersInTime id a)
  | .update request => inferInstanceAs (Decidable (request.id = id → _ → ∀ stored ∈ d.order? id, _))
  | .cancel request => inferInstanceAs (Decidable (request.id = id → _ → ∀ stored ∈ d.order? id, _))
  | .place _ | .scan _ | .showSnapshot _ | .untrack _ | .mark _ _ => .isTrue trivial

omit [Scalar α] in
theorem DatedAt.congr (h : d.DatedAt id) (hk : d'.docket id = d.docket id)
    (ht : d'.time = d.time) : d'.DatedAt id := by
  intro o ho
  have hevents : eventsOf d'.log id = eventsOf d.log id := congrArg Docket.events hk
  rw [hevents, eventTime_congr ht rfl]
  exact h o ((congrArg Docket.order hk).symm.trans ho)

/-- Filing an order dates its event, and leaves the other orders alone. -/
theorem DatedAt.filing {l : Ledger α} {j : OrderId} {order : Order α} {pending : Bool}
    {event : OrderEvent α} (h : d.DatedAt id)
    (hr : Ledger.Refiled d.ledger l j order pending) (he : event.orderId = j)
    (hfiled : j = id → Dated (eventsOf d.log id ++ [event]) order (d.eventTime order)) :
    (d.filing l event).DatedAt id := by
  have hr : Ledger.Refiled d.ledger (d.filing l event).ledger j order pending := hr
  have hg : (d.filing l event).log = d.log ++ [event] := rfl
  by_cases hj : id = j
  · subst hj
    intro o ho
    obtain rfl := Option.some.inj (hr.get?_self.symm.trans ho)
    rw [hg, eventsOf_append_self he]
    exact hfiled rfl
  · exact h.congr (Floor.docket_published_of_ne hr hg he hj) rfl

theorem place_datedAt (sound : (d.docket id).Sound id) (h : d.DatedAt id) (request : Order α) :
    (d.place request).desk.DatedAt id := by
  cases haccepts : d.accepts request with
  | false =>
    rw [place_of_not_accepts haccepts]
    exact h
  | true =>
    obtain ⟨l, hr, hp⟩ := place_of_accepts haccepts
    obtain ⟨-, hfree, -⟩ := accepts_iff.mp haccepts
    rw [hp]
    refine DatedAt.filing h hr (filedOrder_id request) ?_
    rintro rfl
    have hnone : eventsOf d.log request.id = [] := (sound.absent hfree).2
    rw [hnone]
    exact (Dated.nil (filedOrder request) _).concat rfl (Instant.le_refl _)
      (created_le_eventTime d _) rfl fun _ => Instant.le_refl _

theorem update_datedAt (orderly : d.ledger.Orderly) (h : d.DatedAt id) (request : Order α)
    (hanswer : d.AnswersInTime id (.update request)) : (d.update request).desk.DatedAt id := by
  cases haccepts : d.acceptsUpdate request with
  | false =>
    rw [update_of_not_accepts haccepts]
    exact h
  | true =>
    obtain ⟨stored, l, hp, hs, -, hr, hu⟩ := update_of_accepts haccepts
    rw [hu]
    have hid := (stored.applyUpdate_id (named request)).trans (orderly.wellFiled _ _ hs)
    refine DatedAt.filing h hr hid ?_
    rintro rfl
    have hdate : d.eventTime request = d.eventTime stored :=
      hanswer rfl (update_accepted_iff.mpr haccepts) stored hs
    have htime := stored.applyUpdate_time (named request)
    have hclock : d.eventTime (stored.applyUpdate (named request)) = d.eventTime stored :=
      eventTime_congr rfl htime
    refine (h stored hs).concat (orderly.isOpen hp hs) ?_ (created_le_eventTime d stored) htime ?_
    · exact hdate ▸ Instant.le_refl _
    · intro _
      rw [hclock]
      exact hdate ▸ Instant.le_refl _

theorem cancel_datedAt (orderly : d.ledger.Orderly) (h : d.DatedAt id) (request : Order α)
    (hanswer : d.AnswersInTime id (.cancel request)) : (d.cancel request).desk.DatedAt id := by
  rcases cancel_cases_of_backed orderly.backed request with hrefused | ⟨stored, hp, hs⟩
  · rw [hrefused]
    exact h
  · obtain ⟨l, hr, hc⟩ := cancel_of_pending hp hs
    rw [hc]
    refine DatedAt.filing h hr (orderly.wellFiled _ _ hs) ?_
    rintro rfl
    have hdate : d.eventTime stored ≤ d.eventTime request :=
      hanswer rfl (by rw [hc]) stored hs
    exact (h stored hs).concat (orderly.isOpen hp hs) hdate (created_le_eventTime d stored) rfl
      nofun

/-- A scan leaves the docket of an id alone, or finds an open order and publishes at most one event
of it, which is dated by the scan. -/
theorem scan_docket (rules : models.fill.FollowsRules c) (marks : models.fill.MarksStops)
    (orderly : d.ledger.Orderly) (now : Instant) (id : OrderId) :
    (d.scan models now).docket id = d.docket id ∨
      ∃ stored o, d.order? id = some stored ∧ stored.status.isTerminal = false ∧
        (d.scan models now).order? id = some o ∧ o.time = stored.time ∧
        (eventsOf (d.scan models now).log id = eventsOf d.log id ∨
          ∃ event, event.time = now ∧
            eventsOf (d.scan models now).log id = eventsOf d.log id ++ [event]) := by
  have hlog := step_log models orderly.wellFiled (.scan now)
  by_cases hn : d.needsPass = true
  · have hfloor : (d.scan models now).toFloor = (d.toFloor.pass models d.board now).1 := by
      rw [scan, if_pos hn]
    rw [step, hfloor] at hlog
    by_cases hp : d.ledger.isPending id = true
    · obtain ⟨stored, hs, ho⟩ := (orderly.pending_iff id).mp hp
      have hevents := Floor.docket_events hlog id
      obtain ⟨reached, ⟨hquiet, -, hleft⟩ | ⟨event, hevent, -, -, hleft⟩⟩ :=
        Floor.pass_docket_cases orderly rules.keepsToOrder marks hlog hp hs
      · rw [hquiet, List.append_nil] at hevents
        rw [← hfloor] at hleft hevents
        exact .inr ⟨stored, _, hs, ho, hleft, rfl, .inl hevents⟩
      · rw [hevent] at hevents
        have hmem : event ∈ eventsOf (d.published models (.scan now)) id :=
          hevent ▸ List.mem_singleton_self event
        have hdate : event.time = now := Floor.time_of_published rules orderly.wellFiled hlog
          (List.mem_filter.mp hmem).1
        rw [← hfloor] at hleft hevents
        exact .inr ⟨stored, _, hs, ho, hleft, rfl, .inr ⟨event, hdate, hevents⟩⟩
    · left
      rw [hfloor]
      exact Floor.visitAll_frame d.board now orderly.wellFiled rules.keepsToOrder fun hid =>
        hp (Ledger.mem_pendingIds.mp hid)
  · left
    rw [scan, if_neg hn]

theorem scan_datedAt (rules : models.fill.FollowsRules c) (marks : models.fill.MarksStops)
    (orderly : d.ledger.Orderly) (h : d.DatedAt id)
    (hnow : ∀ o, d.order? id = some o → d.eventTime o ≤ now) :
    (d.scan models now).DatedAt id := by
  have htime : (d.scan models now).time = some now := step_time models d (.scan now)
  have hclock : ∀ o o', d.order? id = some o →
      d.eventTime o ≤ (d.scan models now).eventTime o' := fun o o' ho =>
    Instant.le_trans (hnow o ho) (time_le_eventTime htime o')
  intro o ho
  obtain hk | ⟨stored, o', hs, hopen, ho', hcreated, hevents⟩ :=
    scan_docket rules marks orderly now id
  · have hs : d.order? id = some o := (congrArg Docket.order hk).symm.trans ho
    rw [show eventsOf (d.scan models now).log id = eventsOf d.log id from
      congrArg Docket.events hk]
    exact (h o hs).later (hclock o o hs) rfl fun hopen => hopen
  · obtain rfl := Option.some.inj (ho'.symm.trans ho)
    rcases hevents with hquiet | ⟨event, hdate, hgrown⟩
    · rw [hquiet]
      exact (h stored hs).later (hclock _ _ hs) hcreated fun _ => hopen
    · rw [hgrown]
      refine (h stored hs).concat hopen ?_ (created_le_eventTime d stored) hcreated fun _ => ?_
      · exact hdate ▸ hnow stored hs
      · exact hdate ▸ time_le_eventTime htime _

/-- A step dates the events of an order in order, if a scan does not come before the date that an
event would have, and a request of the order is answered in time. -/
theorem step_datedAt (rules : models.fill.FollowsRules c) (marks : models.fill.MarksStops)
    (orderly : d.ledger.Orderly) (sound : (d.docket id).Sound id) (h : d.DatedAt id)
    (hscan : ∀ now, a = .scan now → ∀ o, d.order? id = some o → d.eventTime o ≤ now)
    (hanswer : d.AnswersInTime id a) : (d.step models a).DatedAt id := by
  cases a with
  | place request => exact place_datedAt sound h request
  | update request => exact update_datedAt orderly h request hanswer
  | cancel request => exact cancel_datedAt orderly h request hanswer
  | scan now => exact scan_datedAt rules marks orderly h (hscan now rfl)
  | showSnapshot s => exact h
  | untrack symbol => exact h
  | mark symbol price => exact h

/-- An order that is filed with its events dated in order is filed with an event that is not dated
before its creation, nor after the clock while it is open. -/
theorem DatedAt.of_filing {l : Ledger α} {order : Order α} {pending : Bool} {event : OrderEvent α}
    (h : (d.filing l event).DatedAt id) (hr : Ledger.Refiled d.ledger l id order pending)
    (he : event.orderId = id) :
    order.time ≤ event.time ∧
      (order.status.isTerminal = false → event.time ≤ d.eventTime order) := by
  have hmem : event ∈ eventsOf (d.filing l event).log id :=
    List.mem_filter.mpr ⟨List.mem_append_right _ (List.mem_singleton_self event),
      beq_iff_eq.mpr he⟩
  have hdated := h order hr.get?_self
  exact ⟨hdated.created event hmem, fun ho => hdated.reached ho event hmem⟩

/-- An order whose events are dated in order after an answer of it was answered in time. -/
theorem answersInTime_of_datedAt (models : Models α σ) (orderly : d.ledger.Orderly)
    (h : (d.step models a).DatedAt id) : d.AnswersInTime id a := by
  cases a with
  | update request =>
    rintro rfl haccepted stored hs
    obtain ⟨stored', l, hp, hs', -, hr, hu⟩ := update_of_accepts (update_accepted_iff.mp haccepted)
    obtain rfl := Option.some.inj (hs.symm.trans hs')
    rw [step, hu] at h
    have hid := (stored.applyUpdate_id (named request)).trans (orderly.wellFiled _ _ hs)
    have htime := stored.applyUpdate_time (named request)
    have hfiled : (d.filing l (acknowledgement (stored.applyUpdate (named request))
        (d.eventTime request))).DatedAt request.id := h
    obtain ⟨hcreated, hreached⟩ := hfiled.of_filing hr hid
    have hopen := (stored.applyUpdate_status (named request)).symm ▸ orderly.isOpen hp hs
    rw [htime] at hcreated
    refine Instant.le_antisymm ?_ (eventTime_le_of_created hcreated)
    have hclock : d.eventTime (stored.applyUpdate (named request)) = d.eventTime stored :=
      eventTime_congr rfl htime
    exact hclock ▸ hreached hopen
  | cancel request =>
    rintro rfl haccepted stored hs
    rcases cancel_cases_of_backed orderly.backed request with hrefused | ⟨stored', hp, hs'⟩
    · rw [hrefused] at haccepted
      cases haccepted
    · obtain rfl := Option.some.inj (hs.symm.trans hs')
      obtain ⟨l, hr, hc⟩ := cancel_of_pending hp hs
      rw [step, hc] at h
      exact eventTime_le_of_created
        (DatedAt.of_filing (d := d) h hr (orderly.wellFiled _ _ hs)).1
  | place request => trivial
  | scan now => trivial
  | showSnapshot s => trivial
  | untrack symbol => trivial
  | mark symbol price => trivial

/-! ## Whole runs -/

/-- The events of an order are dated in order exactly if it is answered in time. On a run under the
built-in models whose clock does not go back, and which accepts no order that is created after the
next scan: at every point of the run the events of an order are dated in their order, none before
the stored order was created and none after the clock while it is open, exactly if each accepted
update of the order is dated as the stored order would be, and each accepted cancel not before. -/
theorem run_dated_iff (c : Config α) (overrides : Table String (FeePlan α))
    (account : Portfolio α) (memory : Usage α) (actions : List (Action α))
    (forward : RunsForward (c.models overrides) (opening account memory) actions) (id : OrderId) :
    let models := c.models overrides
    let start := opening account memory
    (∀ earlier, earlier <+: actions → ∀ stored,
      (start.run models earlier).order? id = some stored →
      Dated (eventsOf (start.run models earlier).log id) stored
        ((start.run models earlier).eventTime stored)) ↔
    ∀ earlier a later, actions = earlier ++ a :: later →
      (start.run models earlier).AnswersInTime id a := by
  intro models start
  have rules : models.fill.FollowsRules c.fill := c.models_followsRules
  have marks : models.fill.MarksStops := c.models_marksStops
  have orderly : ∀ earlier, (start.run models earlier).ledger.Orderly :=
    run_orderly models account memory
  constructor
  · intro hdated earlier a later hactions
    apply answersInTime_of_datedAt models (orderly earlier)
    have hnext : start.run models (earlier ++ [a]) = (start.run models earlier).step models a :=
      run_append models start earlier [a]
    rw [← hnext]
    exact hdated (earlier ++ [a]) (by simp [hactions])
  · rintro hanswers earlier ⟨rest, hrest⟩
    have hdated : (start.run models earlier).DatedAt id := by
      refine run_induction (P := fun d => d.DatedAt id) (fun o ho => by cases ho) ?_
      intro before a after hsplit hbefore
      have hactions : actions = before ++ a :: (after ++ rest) := by
        rw [← hrest, hsplit, List.append_assoc]
        rfl
      refine step_datedAt rules marks (orderly before) (run_sound models account memory before id)
        hbefore ?_ (hanswers before a (after ++ rest) hactions)
      rintro now rfl o ho
      exact forward.eventTime_le hactions ho
    exact hdated

/-- An order that is updated before the first scan, again with a copy that is older than its
creation, and then filled; and one that is canceled with a copy of a time to come. The copies do no
harm there: both orders are answered in time. -/
theorem run_dated_iff_of_two_orders :
    let c : Config Rat := Config.default
    let models := c.models Table.empty
    let start := opening (Portfolio.ofCash "USD" 100000) (Table.empty : Usage Rat)
    let order (id : OrderId) (price : Rat) (time : Int) : Order Rat :=
      { id := id, symbol := "SPY", quantity := 10, kind := .limit price, time := ⟨time⟩
        filled := 0 }
    let actions : List (Action Rat) :=
      [.showSnapshot (Snapshot.ofBar "SPY" (Bar.flat ⟨60⟩ 100 50)), .place (order 1 98 60),
        .update (order 1 99 60), .scan ⟨60⟩, .place (order 2 90 90), .update (order 1 101 30),
        .scan ⟨120⟩, .cancel (order 2 90 500)]
    let d := start.run models actions
    RunsForward models start actions ∧
      (eventsOf d.log 1).map (fun e => (e.status, e.time)) =
        [(.submitted, ⟨60⟩), (.submitted, ⟨60⟩), (.submitted, ⟨60⟩), (.filled, ⟨120⟩)] ∧
      (eventsOf d.log 2).map (fun e => (e.status, e.time)) =
        [(.submitted, ⟨90⟩), (.canceled, ⟨500⟩)] ∧
      ∀ id ∈ [1, 2], ∀ earlier, earlier <+: actions → ∀ stored,
        (start.run models earlier).order? id = some stored →
        Dated (eventsOf (start.run models earlier).log id) stored
          ((start.run models earlier).eventTime stored) := by
  intro c models start order actions d
  have forward : RunsForward models start actions := .of_asked (by decide) (by decide +kernel)
  refine ⟨forward, by decide +kernel, by decide +kernel, fun id hid => ?_⟩
  refine (run_dated_iff c Table.empty (Portfolio.ofCash "USD" 100000) Table.empty actions forward
    id).mpr ?_
  refine forall_splits (P := fun earlier a _ => (start.run models earlier).AnswersInTime id a) ?_
  -- one id after the other: "for every id" would be decided over the whole id type
  simp only [List.mem_cons, List.not_mem_nil, or_false] at hid
  rcases hid with rfl | rfl
  · decide +kernel
  · decide +kernel

/-- Copies that name another creation time than the order misdate its events. An update with a copy
of a time to come is acknowledged later than the fill that follows it; a cancel with an older copy,
before any scan, is reported before the order was created. The clock does not go back, and the
orders are placed when they are created. -/
theorem stale_copies_misdate :
    let c : Config Rat := Config.default
    let models := c.models Table.empty
    let start := opening (Portfolio.ofCash "USD" 100000) (Table.empty : Usage Rat)
    let order (time : Int) : Order Rat :=
      { id := 1, symbol := "SPY", quantity := 10, kind := .limit 101, time := ⟨time⟩, filled := 0 }
    let updated : List (Action Rat) :=
      [.showSnapshot (Snapshot.ofBar "SPY" (Bar.flat ⟨60⟩ 100 50)), .place (order 60), .scan ⟨60⟩,
        .update (order 300), .scan ⟨120⟩]
    let canceled : List (Action Rat) := [.place (order 60), .cancel (order 30)]
    let d := start.run models updated
    let d' := start.run models canceled
    RunsForward models start updated ∧ RunsForward models start canceled ∧
      (eventsOf d.log 1).map (fun e => (e.status, e.isUpdate, e.time)) =
        [(.submitted, false, ⟨60⟩), (.submitted, true, ⟨300⟩), (.filled, false, ⟨120⟩)] ∧
      (¬ (eventsOf d.log 1).Pairwise fun e e' => e.time ≤ e'.time) ∧
      (eventsOf d'.log 1).map (fun e => (e.status, e.time)) =
        [(.submitted, ⟨60⟩), (.canceled, ⟨30⟩)] ∧
      (d'.order? 1).map Order.time = some ⟨60⟩ := by
  intro c models start order updated canceled d d'
  exact ⟨.of_asked (by decide) (by decide +kernel), .of_asked (by decide) (by decide +kernel),
    by decide +kernel, by decide +kernel, by decide +kernel, by decide +kernel⟩

end Desk

end TradingDesk
