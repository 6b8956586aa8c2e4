import TradingDesk.Proofs.Docket
/- Proofs.Run — passes, requests and runs as turns of dockets.

   Over a pass, a step or a run every docket takes a chain of turns
   (`run_turns`), whatever the models do. Where the fill model keeps to the
   order it was asked about, one step of the desk is at most one turn of each
   docket (`Stepped.turn`). A property of dockets that every turn keeps therefore
   holds of every id after every run. -/
namespace TradingDesk

open Relation

variable {α σ : Type} [Scalar α]

/-! ## Passes -/

namespace Floor

variable {models : Models α σ} {board : Board α} {now : Instant} {f : Floor α σ}

theorem foldl_visit (models : Models α σ) (board : Board α) (now : Instant) (ids : List OrderId)
    (f : Floor α σ) (again : Bool) :
    ids.foldl (fun (f, again) id =>
      let (f, needed) := f.visit models board now id
      (f, again || needed)) (f, again) =
    ((f.visitAll models board now ids).1, again || (f.visitAll models board now ids).2) := by
  induction ids generalizing f again with
  | nil => simp [visitAll]
  | cons id ids ih =>
    rw [visitAll, List.foldl_cons, List.foldl_cons]
    simp only [Bool.false_or]
    rw [ih, ih, Bool.or_assoc]

theorem visitAll_cons (id : OrderId) (ids : List OrderId) :
    f.visitAll models board now (id :: ids) =
      (((f.visit models board now id).1.visitAll models board now ids).1,
        (f.visit models board now id).2 ||
          ((f.visit models board now id).1.visitAll models board now ids).2) := by
  rw [visitAll, List.foldl_cons]
  simp only [Bool.false_or]
  exact foldl_visit models board now ids _ _

/-- What every look at a well-filed floor keeps, the looks of a list keep. -/
theorem visitAll_keeps {P : Floor α σ → Prop}
    (hvisit : ∀ id g g' needed, Visited models now id g g' needed → g.ledger.WellFiled →
      P g → P g')
    (ids : List OrderId) (hf : f.ledger.WellFiled) (hp : P f) :
    P (f.visitAll models board now ids).1 := by
  induction ids generalizing f with
  | nil => exact hp
  | cons id ids ih =>
    have hv := visit_visited models board now f id hf
    rw [visitAll_cons]
    exact ih (hv.wellFiled hf) (hvisit id _ _ _ hv hf hp)

theorem visitAll_wellFiled (ids : List OrderId) (hf : f.ledger.WellFiled) :
    (f.visitAll models board now ids).1.ledger.WellFiled :=
  visitAll_keeps (P := fun g => g.ledger.WellFiled)
    (fun _ _ _ _ hv hg _ => hv.wellFiled hg) ids hf hf

theorem visitAll_turns (ids : List OrderId) (hf : f.ledger.WellFiled) (j : OrderId) :
    ReflTransGen (Docket.Turn models j) (f.docket j)
      ((f.visitAll models board now ids).1.docket j) :=
  visitAll_keeps (P := fun g => ReflTransGen (Docket.Turn models j) (f.docket j) (g.docket j))
    (fun _ _ _ _ hv hg h => h.trans (hv.turn hg j).to_reflTransGen) ids hf .refl

theorem visitAll_log_prefix (ids : List OrderId) (hf : f.ledger.WellFiled) :
    f.log <+: (f.visitAll models board now ids).1.log :=
  visitAll_keeps (P := fun g => f.log <+: g.log)
    (fun _ _ _ _ hv _ h => h.trans hv.log_prefix) ids hf List.prefix_rfl

/-- An id that no look is about keeps its docket. -/
theorem visitAll_frame (board : Board α) (now : Instant) {ids : List OrderId}
    (hf : f.ledger.WellFiled) (own : models.fill.KeepsToOrder) {j : OrderId} (hj : j ∉ ids) :
    (f.visitAll models board now ids).1.docket j = f.docket j := by
  induction ids generalizing f with
  | nil => rfl
  | cons id ids ih =>
    have hv := visit_visited models board now f id hf
    rw [List.mem_cons, not_or] at hj
    rw [visitAll_cons, ih (hv.wellFiled hf) hj.2, hv.frame hf own hj.1]

theorem visitAll_turn {ids : List OrderId} (hf : f.ledger.WellFiled)
    (own : models.fill.KeepsToOrder) (hn : ids.Nodup) (j : OrderId) :
    ReflGen (Docket.Turn models j) (f.docket j)
      ((f.visitAll models board now ids).1.docket j) := by
  induction ids generalizing f with
  | nil => exact .refl
  | cons id ids ih =>
    have hv := visit_visited models board now f id hf
    obtain ⟨hid, hn⟩ := List.nodup_cons.mp hn
    rw [visitAll_cons]
    by_cases hj : j = id
    · -- the looks that follow leave this docket alone
      subst hj
      rw [visitAll_frame board now (hv.wellFiled hf) own hid]
      exact hv.turn hf j
    · rw [← hv.frame hf own hj]
      exact ih (hv.wellFiled hf) hn

end Floor

/-! ## Steps of the desk -/

namespace Desk

variable {models : Models α σ} {d : Desk α σ}

omit [Scalar α] in
theorem docket_unmark (d : Desk α σ) (id : OrderId) :
    (d.unmark id).docket id = ⟨d.order? id, false, eventsOf d.log id⟩ := by
  have hp : (d.unmark id).ledger.isPending id = false := by
    rw [unmark, withFloor, Ledger.isPending_dropPending, if_pos rfl]
  rw [Floor.docket, hp]
  rfl

omit [Scalar α] in
theorem docket_unmark_of_ne {id j : OrderId} (hj : j ≠ id) :
    (d.unmark id).docket j = d.docket j := by
  have hp : (d.unmark id).ledger.isPending j = d.ledger.isPending j := by
    rw [unmark, withFloor, Ledger.isPending_dropPending, if_neg hj]
  rw [Floor.docket, hp]
  rfl

/-- What an action leaves behind on the floor of a desk. -/
inductive Stepped (models : Models α σ) (d : Desk α σ) : Action α → Floor α σ → Prop where
  /-- Nothing changes. -/
  | idle {a : Action α} : Stepped models d a d.toFloor
  /-- One order is filed anew and one event of it is published, which is a turn of its id. -/
  | filed {a : Action α} {l : Ledger α} {id : OrderId} {order : Order α} {pending : Bool}
      {event : OrderEvent α} (hr : Ledger.Refiled d.ledger l id order pending)
      (ho : order.id = id) (he : event.orderId = id)
      (ht : Docket.Turn models id (d.docket id)
        ⟨some order, pending, eventsOf d.log id ++ [event]⟩) :
      Stepped models d a (d.filing l event).toFloor
  /-- An id without an order stops being pending. -/
  | unmarked {a : Action α} {id : OrderId} (hn : d.order? id = none) :
      Stepped models d a (d.unmark id).toFloor
  /-- A pass looks at every pending order. -/
  | passed {now : Instant} :
      Stepped models d (.scan now) (d.toFloor.pass models d.board now).1
  /-- The account is marked. -/
  | marked {symbol : String} {price : α} :
      Stepped models d (.mark symbol price)
        { d.toFloor with account := d.account.mark symbol price }

theorem place_stepped (models : Models α σ) (d : Desk α σ) (request : Order α) :
    Stepped models d (.place request) (d.place request).desk.toFloor := by
  cases h : d.accepts request with
  | false => rw [place_of_not_accepts h]; exact .idle
  | true =>
    obtain ⟨l, hr, hp⟩ := place_of_accepts h
    obtain ⟨hs, hn, hv⟩ := accepts_iff.mp h
    rw [hp]
    refine .filed hr (filedOrder_id request) (filedOrder_id request) ?_
    rw [Floor.docket, show d.ledger.get? request.id = none from hn]
    exact .place request _ rfl hs hv

theorem update_stepped (models : Models α σ) (hf : d.ledger.WellFiled) (request : Order α) :
    Stepped models d (.update request) (d.update request).desk.toFloor := by
  cases h : d.acceptsUpdate request with
  | false => rw [update_of_not_accepts h]; exact .idle
  | true =>
    obtain ⟨stored, l, hp, hs, hv, hr, hu⟩ := update_of_accepts h
    have hid := (stored.applyUpdate_id (named request)).trans (hf _ stored hs)
    rw [hu]
    refine .filed hr hid hid ?_
    rw [Floor.docket, show d.ledger.get? request.id = some stored from hs, hp]
    exact .update request _ hv

theorem cancel_stepped (models : Models α σ) (hf : d.ledger.WellFiled) (request : Order α) :
    Stepped models d (.cancel request) (d.cancel request).desk.toFloor := by
  rcases d.cancel_cases request with h | ⟨hn, h⟩ | ⟨stored, hp, hs⟩
  · rw [h]; exact .idle
  · rw [h]; exact .unmarked hn
  · obtain ⟨l, hr, hc⟩ := cancel_of_pending hp hs
    have hid : stored.id = request.id := hf _ stored hs
    rw [hc]
    refine .filed hr hid hid ?_
    rw [Floor.docket, show d.ledger.get? request.id = some stored from hs, hp]
    exact .cancel _

/-- An action leaves nothing else behind. -/
theorem step_stepped (models : Models α σ) (hf : d.ledger.WellFiled) (a : Action α) :
    Stepped models d a (d.step models a).toFloor := by
  cases a with
  | place request => exact place_stepped models d request
  | update request => exact update_stepped models hf request
  | cancel request => exact cancel_stepped models hf request
  | scan now =>
    rw [step, scan]
    split
    · exact .passed
    · exact .idle
  | showSnapshot s => exact .idle
  | untrack symbol => exact .idle
  | mark symbol price => exact .marked

namespace Stepped

variable {a : Action α} {f : Floor α σ}

theorem wellFiled (h : Stepped models d a f) (hf : d.ledger.WellFiled) : f.ledger.WellFiled := by
  cases h with
  | idle => exact hf
  | filed hr ho he ht => exact hr.wellFiled hf ho
  | unmarked hn => exact hf
  | passed => exact Floor.visitAll_wellFiled _ hf
  | marked => exact hf

/-- Filing an order is a turn of its id and leaves the other dockets alone. -/
theorem filing_turn {l : Ledger α} {id : OrderId} {order : Order α} {pending : Bool}
    {event : OrderEvent α} (hr : Ledger.Refiled d.ledger l id order pending)
    (he : event.orderId = id)
    (ht : Docket.Turn models id (d.docket id)
      ⟨some order, pending, eventsOf d.log id ++ [event]⟩) (j : OrderId) :
    ReflGen (Docket.Turn models j) (d.docket j) ((d.filing l event).docket j) := by
  have hr : Ledger.Refiled d.ledger (d.filing l event).ledger id order pending := hr
  have hg : (d.filing l event).log = d.log ++ [event] := rfl
  by_cases hj : j = id
  · subst hj
    rw [Floor.docket_published hr hg he]
    exact .single ht
  · rw [Floor.docket_published_of_ne hr hg he hj]

/-- Taking the mark off an id without an order is a turn of the id and leaves the other dockets
alone. -/
theorem unmark_turn {id : OrderId} (hn : d.order? id = none) (j : OrderId) :
    ReflGen (Docket.Turn models j) (d.docket j) ((d.unmark id).docket j) := by
  by_cases hj : j = id
  · subst hj
    rw [docket_unmark]
    refine .single (.drop fun o ho => ?_)
    cases hn.symm.trans ho
  · rw [docket_unmark_of_ne hj]

/-- A step of the desk is a chain of turns for each id. -/
theorem turns (h : Stepped models d a f) (hf : d.ledger.WellFiled) (j : OrderId) :
    ReflTransGen (Docket.Turn models j) (d.docket j) (f.docket j) := by
  cases h with
  | idle => exact .refl
  | filed hr ho he ht => exact (filing_turn hr he ht j).to_reflTransGen
  | unmarked hn => exact (unmark_turn hn j).to_reflTransGen
  | passed => exact Floor.visitAll_turns _ hf j
  | marked => exact .refl

/-- A step of the desk is at most one turn for each id, where the fill model keeps to the order it
was asked about. -/
theorem turn (h : Stepped models d a f) (hf : d.ledger.WellFiled)
    (own : models.fill.KeepsToOrder) (j : OrderId) :
    ReflGen (Docket.Turn models j) (d.docket j) (f.docket j) := by
  cases h with
  | idle => exact .refl
  | filed hr ho he ht => exact filing_turn hr he ht j
  | unmarked hn => exact unmark_turn hn j
  | passed => exact Floor.visitAll_turn hf own d.ledger.pendingIds_nodup j
  | marked => exact .refl

theorem log_prefix (h : Stepped models d a f) (hf : d.ledger.WellFiled) : d.log <+: f.log := by
  cases h with
  | idle => exact List.prefix_rfl
  | filed hr ho he ht => exact List.prefix_append _ _
  | unmarked hn => exact List.prefix_rfl
  | passed => exact Floor.visitAll_log_prefix _ hf
  | marked => exact List.prefix_rfl

/-- An event that a step publishes comes of the one turn that the step is for its id. It has the
status of the order after it, or acknowledges an update. -/
theorem turn_of_published (h : Stepped models d a f) (hf : d.ledger.WellFiled)
    (own : models.fill.KeepsToOrder) {published : List (OrderEvent α)}
    (hlog : f.log = d.log ++ published) {e : OrderEvent α} (he : e ∈ published) :
    Docket.Turn models e.orderId (d.docket e.orderId) (f.docket e.orderId) ∧
      ∃ o, f.ledger.get? e.orderId = some o ∧
        (e.status = o.status ∨ e.isUpdate = true ∧ e.status = .submitted) := by
  have hmem : e ∈ eventsOf published e.orderId :=
    List.mem_filter.mpr ⟨he, beq_self_eq_true _⟩
  have hevents := Floor.docket_events hlog e.orderId
  have hgrown : (f.docket e.orderId).events ≠ (d.docket e.orderId).events := by
    intro hsame
    rw [hevents, List.append_right_eq_self] at hsame
    rw [hsame] at hmem
    cases hmem
  -- the events of the id have grown, so the step was a turn of it
  rcases (reflGen_iff _ _ _).mp (h.turn hf own e.orderId) with hsame | hturn
  · exact absurd (congrArg Docket.events hsame) hgrown
  · refine ⟨hturn, ?_⟩
    obtain ⟨last, o, hlast, ho, hstatus⟩ := hturn.events_eq.resolve_left hgrown
    rw [hlast] at hevents
    rw [← List.append_cancel_left hevents, List.mem_singleton] at hmem
    rw [hmem]
    exact ⟨o, hmem ▸ ho, hstatus⟩

end Stepped

theorem step_wellFiled (models : Models α σ) (hf : d.ledger.WellFiled) (a : Action α) :
    (d.step models a).ledger.WellFiled :=
  (step_stepped models hf a).wellFiled hf

/-! ## Requests -/

/-- A request leaves the desk as it is, but for a mark without an order, or files an order with an
event that fills nothing. -/
inductive Files (d : Desk α σ) : Desk α σ → Prop where
  | refused : Files d d
  | unmarked (id : OrderId) : Files d (d.unmark id)
  | filed (l : Ledger α) {event : OrderEvent α} (he : event.fillQuantity = 0) (needed : Bool) :
      Files d { d.filing l event with needsPass := needed }

theorem place_files (d : Desk α σ) (request : Order α) : Files d (d.place request).desk := by
  cases h : d.accepts request with
  | false =>
    rw [place_of_not_accepts h]
    exact .refused
  | true =>
    obtain ⟨l, -, hp⟩ := place_of_accepts h
    rw [hp]
    exact .filed l rfl true

theorem update_files (d : Desk α σ) (request : Order α) : Files d (d.update request).desk := by
  cases h : d.acceptsUpdate request with
  | false =>
    rw [update_of_not_accepts h]
    exact .refused
  | true =>
    obtain ⟨stored, l, -, -, -, -, hu⟩ := update_of_accepts h
    rw [hu]
    exact .filed l rfl true

theorem cancel_files (d : Desk α σ) (request : Order α) : Files d (d.cancel request).desk := by
  rcases d.cancel_cases request with h | ⟨-, h⟩ | ⟨stored, hp, hs⟩
  · rw [h]
    exact .refused
  · rw [h]
    exact .unmarked request.id
  · obtain ⟨l, -, hcancel⟩ := cancel_of_pending hp hs
    rw [hcancel]
    exact .filed l rfl d.needsPass

theorem Files.board_eq {d d' : Desk α σ} (h : Files d d') : d'.board = d.board := by
  cases h <;> rfl

/-- What holds of the board holds after a step, if it does when a snapshot is shown or a security is
no longer tracked. -/
theorem step_board {P : Board α → Prop} {a : Action α} (hp : P d.board)
    (hpost : ∀ s, a = .showSnapshot s → P (d.board.post s))
    (herase : ∀ symbol, a = .untrack symbol → P (Table.erase d.board symbol)) :
    P (d.step models a).board := by
  cases a with
  | place request =>
    rw [step, (d.place_files request).board_eq]
    exact hp
  | update request =>
    rw [step, (d.update_files request).board_eq]
    exact hp
  | cancel request =>
    rw [step, (d.cancel_files request).board_eq]
    exact hp
  | scan now =>
    rw [step, scan]
    split <;> exact hp
  | showSnapshot s => exact hpost s rfl
  | untrack symbol => exact herase symbol rfl
  | mark symbol price => exact hp

/-! ## Runs -/

theorem run_cons (models : Models α σ) (d : Desk α σ) (a : Action α) (actions : List (Action α)) :
    d.run models (a :: actions) = (d.step models a).run models actions := rfl

theorem run_append (models : Models α σ) (d : Desk α σ) (earlier later : List (Action α)) :
    d.run models (earlier ++ later) = (d.run models earlier).run models later :=
  List.foldl_append

omit [Scalar α] in
theorem opening_wellFiled (account : Portfolio α) (memory : σ) :
    (opening account memory).ledger.WellFiled := fun _ _ h => by cases h

/-- What every step of a well-filed desk keeps, a run keeps. -/
theorem run_keeps {P : Desk α σ → Prop} {actions : List (Action α)}
    (hstep : ∀ e, ∀ a ∈ actions, e.ledger.WellFiled → P e → P (e.step models a))
    (hf : d.ledger.WellFiled) (hp : P d) : P (d.run models actions) := by
  induction actions generalizing d with
  | nil => exact hp
  | cons a actions ih =>
    exact ih (fun e b hb => hstep e b (List.mem_cons_of_mem _ hb)) (step_wellFiled models hf a)
      (hstep d a List.mem_cons_self hf hp)

/-- What holds at the start and is kept by every step of a run, taken from where the run has led
to, holds after the run. -/
theorem run_induction {P : Desk α σ → Prop} {actions : List (Action α)} (hp : P d)
    (hstep : ∀ earlier a later, actions = earlier ++ a :: later → P (d.run models earlier) →
      P ((d.run models earlier).step models a)) : P (d.run models actions) := by
  suffices h : ∀ rest earlier, actions = earlier ++ rest → P (d.run models earlier) →
      P (d.run models (earlier ++ rest)) from h actions [] rfl hp
  intro rest
  induction rest with
  | nil =>
    intro earlier _ he
    rwa [List.append_nil]
  | cons a rest ih =>
    intro earlier hactions he
    have hnext : P (d.run models (earlier ++ [a])) := by
      rw [run_append]
      exact hstep earlier a rest hactions he
    have hrest := ih (earlier ++ [a]) (by rw [hactions, List.append_assoc]; rfl) hnext
    rwa [List.append_assoc] at hrest

theorem run_wellFiled (models : Models α σ) (hf : d.ledger.WellFiled)
    (actions : List (Action α)) : (d.run models actions).ledger.WellFiled :=
  run_keeps (P := fun e => e.ledger.WellFiled)
    (fun _ a _ he _ => step_wellFiled models he a) hf hf

/-- A run of the desk is a chain of turns for each id. -/
theorem run_turns (models : Models α σ) (hf : d.ledger.WellFiled) (actions : List (Action α))
    (j : OrderId) :
    ReflTransGen (Docket.Turn models j) (d.docket j) ((d.run models actions).docket j) :=
  run_keeps (P := fun e => ReflTransGen (Docket.Turn models j) (d.docket j) (e.docket j))
    (fun _ a _ he h => h.trans ((step_stepped models he a).turns he j)) hf .refl

end Desk

end TradingDesk
