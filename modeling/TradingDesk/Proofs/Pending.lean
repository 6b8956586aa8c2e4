import TradingDesk.Scalar.Exact
import TradingDesk.Proofs.Sound
import TradingDesk.Proofs.Rules
/- Proofs.Pending — which ids are pending, and when a pass is needed.

   Where the fill model keeps to the order it was asked about, a look needs
   another look exactly when its order is pending after it, and looks at other
   ids do not disturb that; a pass is therefore needed again exactly when it
   leaves something pending, and a desk that is not marked for a pass has
   nothing that a pass could do. -/
namespace TradingDesk

variable {α σ : Type} [Scalar α]

/-! ## Open orders -/

namespace Ledger

variable {l : Ledger α}

omit [Scalar α] in
theorem mem_openOrders (hl : l.WellFiled) {o : Order α} :
    o ∈ l.openOrders ↔ l.isPending o.id = true ∧ l.get? o.id = some o := by
  rw [openOrders, List.mem_filterMap]
  constructor
  · rintro ⟨id, hp, hs⟩
    obtain rfl := hl id o hs
    exact ⟨mem_pendingIds.mp hp, hs⟩
  · rintro ⟨hp, hs⟩
    exact ⟨o.id, mem_pendingIds.mpr hp, hs⟩

omit [Scalar α] in
/-- Where every pending id has its order, the open orders are one for each pending id. -/
theorem openOrders_ids (hl : l.WellFiled)
    (hs : ∀ id, l.isPending id = true → (l.get? id).isSome = true) :
    l.openOrders.map Order.id = l.pendingIds := by
  have key : ∀ ids : List OrderId, (∀ id ∈ ids, (l.get? id).isSome = true) →
      (ids.filterMap l.get?).map Order.id = ids := by
    intro ids h
    induction ids with
    | nil => rfl
    | cons id ids ih =>
      obtain ⟨o, ho⟩ := Option.isSome_iff_exists.mp (h id List.mem_cons_self)
      rw [List.filterMap_cons_some ho, List.map_cons, hl id o ho,
        ih fun j hj => h j (List.mem_cons_of_mem _ hj)]
  exact key _ fun id hid => hs id (mem_pendingIds.mp hid)

omit [Scalar α] in
theorem pendingIds_ascending (l : Ledger α) : l.pendingIds.Pairwise (· < ·) :=
  l.pending.keys_ascending.imp Std.compare_eq_lt.mp

end Ledger

/-! ## When a pass is needed again -/

namespace Floor

variable {models : Models α σ} {board : Board α} {now : Instant} {id : OrderId}
  {f f' : Floor α σ} {needed : Bool}

/-- A look at a pending id is needed again exactly when the id is pending after it. -/
theorem Visited.needed_eq (h : Visited models now id f f' needed) (hf : f.ledger.WellFiled)
    (own : models.fill.KeepsToOrder) (hp : f.ledger.isPending id = true) :
    needed = f'.ledger.isPending id := by
  cases h with
  | stale hs hl ha hg => rw [hl, Ledger.isPending_dropPending, if_pos rfl]
  | held hl ha hg => rw [hl, hp]
  | rekinded hs ho hi hl ha hg => rw [hl, (Ledger.setKind_refiled _ hs).isPending_self, hp]
  | @booked order event kind hs ho hi hl ha hg =>
    have he : event.orderId = id := (hi.orderId own).trans (hf id order hs)
    obtain ⟨stored, -, -, hr⟩ := Ledger.record?_refiled hl
    rw [he, (Ledger.setKind_refiled kind hs).isPending_self, hp, Bool.true_and] at hr
    exact hr.isPending_self.symm

/-- Looks at pending ids are needed again exactly when one of them is pending after all looks. -/
theorem visitAll_needed_iff (board : Board α) (now : Instant) {ids : List OrderId}
    (hf : f.ledger.WellFiled) (own : models.fill.KeepsToOrder) (hn : ids.Nodup)
    (hp : ∀ id ∈ ids, f.ledger.isPending id = true) :
    (f.visitAll models board now ids).2 = true ↔
      ∃ id ∈ ids, (f.visitAll models board now ids).1.ledger.isPending id = true := by
  induction ids generalizing f with
  | nil => simp [visitAll]
  | cons id ids ih =>
    have hv := visit_visited models board now f id hf
    have hf' := hv.wellFiled hf
    obtain ⟨hid, hn⟩ := List.nodup_cons.mp hn
    have hrest : ∀ j ∈ ids, (f.visit models board now id).1.ledger.isPending j = true := by
      intro j hj
      have hne : j ≠ id := fun e => hid (e ▸ hj)
      rw [isPending_congr (hv.frame hf own hne)]
      exact hp j (List.mem_cons_of_mem _ hj)
    have hfirst := isPending_congr (visitAll_frame board now hf' own hid)
    rw [visitAll_cons, Bool.or_eq_true, ih hf' hn hrest,
      hv.needed_eq hf own (hp id List.mem_cons_self), ← hfirst]
    simp only [List.mem_cons, exists_eq_or_imp]

/-- A pass is needed again exactly when it leaves something pending. -/
theorem pass_needed_eq (hf : f.ledger.WellFiled) (own : models.fill.KeepsToOrder) :
    (f.pass models board now).2 = (f.pass models board now).1.ledger.hasPending := by
  have hneeded := visitAll_needed_iff board now hf own
    f.ledger.pendingIds_nodup fun id hid => Ledger.mem_pendingIds.mp hid
  rw [Bool.eq_iff_iff, Ledger.hasPending_iff, pass, hneeded]
  constructor
  · rintro ⟨id, -, hp⟩
    exact ⟨id, hp⟩
  · rintro ⟨id, hp⟩
    refine ⟨id, ?_, hp⟩
    by_cases hid : id ∈ f.ledger.pendingIds
    · exact hid
    · -- an id that was not pending has not become so
      rw [isPending_congr (visitAll_frame board now hf own hid)] at hp
      exact Ledger.mem_pendingIds.mpr hp

/-- With nothing pending a pass does nothing. -/
theorem pass_of_idle (h : f.ledger.hasPending = false) : f.pass models board now = (f, false) := by
  have hids : f.ledger.pendingIds = [] := by
    rw [List.eq_nil_iff_forall_not_mem]
    intro id hid
    have hp := Ledger.hasPending_iff.mpr ⟨id, Ledger.mem_pendingIds.mp hid⟩
    rw [h] at hp
    cases hp
  rw [pass, hids]
  rfl

end Floor

namespace Desk

variable {models : Models α σ} {d : Desk α σ}

theorem cancel_hasPending (request : Order α)
    (h : (d.cancel request).desk.ledger.hasPending = true) : d.ledger.hasPending = true := by
  rcases d.cancel_cases request with hc | ⟨-, hc⟩ | ⟨stored, hp, hs⟩
  · rwa [hc] at h
  · rw [hc] at h
    obtain ⟨id, hp⟩ := Ledger.hasPending_iff.mp h
    have hp : (d.ledger.dropPending request.id).isPending id = true := hp
    rw [Ledger.isPending_dropPending] at hp
    split at hp
    · cases hp
    · exact Ledger.hasPending_iff.mpr ⟨id, hp⟩
  · exact Ledger.hasPending_iff.mpr ⟨request.id, hp⟩

theorem cancel_needsPass (request : Order α) : (d.cancel request).desk.needsPass = d.needsPass := by
  rcases d.cancel_cases request with hc | ⟨-, hc⟩ | ⟨stored, hp, hs⟩
  · rw [hc]; rfl
  · rw [hc]; rfl
  · obtain ⟨l, -, hc⟩ := cancel_of_pending hp hs
    rw [hc]; rfl

/-- A step keeps the desk's mark that something could be done for what is pending. -/
theorem step_needsPass (hf : d.ledger.WellFiled) (own : models.fill.KeepsToOrder)
    (hd : d.ledger.hasPending = true → d.needsPass = true) (a : Action α)
    (h : (d.step models a).ledger.hasPending = true) : (d.step models a).needsPass = true := by
  cases a with
  | place request =>
    cases hr : d.accepts request with
    | false =>
      rw [step, place_of_not_accepts hr] at h ⊢
      exact hd h
    | true =>
      -- an accepted request marks the desk
      obtain ⟨l, -, hp⟩ := place_of_accepts hr
      rw [step, hp]
  | update request =>
    cases hr : d.acceptsUpdate request with
    | false =>
      rw [step, update_of_not_accepts hr] at h ⊢
      exact hd h
    | true =>
      obtain ⟨stored, l, -, -, -, -, hu⟩ := update_of_accepts hr
      rw [step, hu]
  | cancel request =>
    rw [step, cancel_needsPass]
    exact hd (cancel_hasPending request h)
  | scan now =>
    cases hn : d.needsPass with
    | false =>
      rw [step, scan, hn] at h
      rw [hd h] at hn
      cases hn
    | true =>
      rw [step, scan, if_pos hn] at h ⊢
      exact (Floor.pass_needed_eq hf own).trans h
  | showSnapshot s => exact hd h
  | untrack symbol => exact hd h
  | mark symbol price => exact hd h

theorem run_needsPass (own : models.fill.KeepsToOrder) (hf : d.ledger.WellFiled)
    (hd : d.ledger.hasPending = true → d.needsPass = true) (actions : List (Action α)) :
    (d.run models actions).ledger.hasPending = true → (d.run models actions).needsPass = true :=
  run_keeps (P := fun e => e.ledger.hasPending = true → e.needsPass = true)
    (fun _ a _ he h => step_needsPass he own h a) hf hd

theorem scan_of_needsPass (models : Models α σ) (h : d.needsPass = true) (now : Instant) :
    (d.scan models now).needsPass = (d.toFloor.pass models d.board now).2 ∧
      (d.scan models now).ledger = (d.toFloor.pass models d.board now).1.ledger := by
  rw [scan, if_pos h]
  exact ⟨rfl, rfl⟩

/-! ## What is pending after a run -/

/-- The open orders are the orders that are stored and open. -/
theorem run_mem_openOrders (models : Models α σ) (account : Portfolio α) (memory : σ)
    (actions : List (Action α)) (o : Order α) :
    o ∈ ((opening account memory).run models actions).ledger.openOrders ↔
      ((opening account memory).run models actions).order? o.id = some o ∧
        o.status.isTerminal = false := by
  have hiff := (run_sound models account memory actions o.id).pending_iff
  rw [Ledger.mem_openOrders (run_wellFiled models (opening_wellFiled account memory) actions)]
  constructor
  · rintro ⟨hp, hs⟩
    obtain ⟨o', hs', ho⟩ := hiff.mp hp
    obtain rfl := Option.some.inj (hs.symm.trans hs')
    exact ⟨hs, ho⟩
  · rintro ⟨hs, ho⟩
    exact ⟨hiff.mpr ⟨o, hs, ho⟩, hs⟩

/-- The open orders are listed by ascending id. -/
theorem run_openOrders_ascending (models : Models α σ) (account : Portfolio α) (memory : σ)
    (actions : List (Action α)) :
    (((opening account memory).run models actions).ledger.openOrders.map Order.id).Pairwise
      (· < ·) := by
  have hfiled := run_wellFiled models (opening_wellFiled account memory) actions
  rw [Ledger.openOrders_ids hfiled fun id hp => ?_]
  · exact Ledger.pendingIds_ascending _
  · obtain ⟨o, hs, -⟩ := (run_sound models account memory actions id).pending_iff.mp hp
    exact Option.isSome_of_eq_some hs

/-- The pending ids, the open orders and the mark for a further pass agree after every run: an id is
pending exactly when its order is stored and open, and then it was submitted; the open orders are
the orders of the pending ids, each once and by ascending id; while anything is pending the desk is
marked, and a pass marks it again exactly when it leaves something pending; on a desk without the
mark a pass does nothing. -/
theorem run_pending (models : Models α σ) (own : models.fill.KeepsToOrder)
    (account : Portfolio α) (memory : σ) (actions : List (Action α)) :
    let d := (opening account memory).run models actions
    (∀ id, d.ledger.isPending id = true ↔
      ∃ o, d.order? id = some o ∧ o.status.isTerminal = false) ∧
    (∀ id o, d.ledger.isPending id = true → d.order? id = some o →
      o.status = .submitted ∨ o.status = .partiallyFilled) ∧
    (∀ o, o ∈ d.ledger.openOrders ↔ d.order? o.id = some o ∧ o.status.isTerminal = false) ∧
    (d.ledger.openOrders.map Order.id).Pairwise (· < ·) ∧
    (∀ id, d.ledger.isPending id = true → d.needsPass = true) ∧
    (∀ now, (d.toFloor.pass models d.board now).2 = true ↔
      ∃ id, (d.toFloor.pass models d.board now).1.ledger.isPending id = true) ∧
    (∀ now, d.needsPass = true → ((d.scan models now).needsPass = true ↔
      ∃ id, (d.scan models now).ledger.isPending id = true)) ∧
    (∀ now, d.needsPass = false → d.toFloor.pass models d.board now = (d.toFloor, false)) := by
  intro d
  have hsound : ∀ id, (d.docket id).Sound id := run_sound models account memory actions
  have hmark : d.ledger.hasPending = true → d.needsPass = true :=
    run_needsPass own (opening_wellFiled account memory) nofun actions
  have hpass : ∀ now, (d.toFloor.pass models d.board now).2 = true ↔
      ∃ id, (d.toFloor.pass models d.board now).1.ledger.isPending id = true := by
    intro now
    have hfiled := run_wellFiled models (opening_wellFiled account memory) actions
    rw [Floor.pass_needed_eq hfiled own, Ledger.hasPending_iff]
  refine ⟨fun id => (hsound id).pending_iff, fun id o hp hs => (hsound id).status_of_pending hs hp,
    run_mem_openOrders models account memory actions,
    run_openOrders_ascending models account memory actions,
    fun id hp => hmark (Ledger.hasPending_iff.mpr ⟨id, hp⟩), hpass, ?_, ?_⟩
  · intro now hn
    obtain ⟨hagain, hl⟩ := scan_of_needsPass models hn now
    rw [hagain, hl, hpass]
  · intro now hn
    refine Floor.pass_of_idle ?_
    rw [← Bool.not_eq_true]
    exact fun hp => absurd (hmark hp) (Bool.not_eq_true _ ▸ hn)

/-- An order that was cut short by the volume of a bar is pending, and a further pass is marked. -/
theorem run_pending_of_partial_fill :
    let c : Config Rat := { Config.default with fill := ⟨0, 1 / 100, some (1 / 2)⟩ }
    let models := c.models Table.empty
    let buy : Order Rat :=
      { id := 7, symbol := "SPY", quantity := 10, kind := .market, time := ⟨0⟩, filled := 0 }
    let d := (opening (Portfolio.ofConfig c.account) Table.empty).run models
      [.showSnapshot (Snapshot.ofBar "SPY" (Bar.flat ⟨60⟩ 100 12)), .place buy, .scan ⟨60⟩]
    models.fill.KeepsToOrder ∧
      d.ledger.openOrders.map (fun o => (o.id, o.status, o.filled)) = [(7, .partiallyFilled, 6)] ∧
      d.needsPass = true := by
  intro c models buy d
  have own : models.fill.KeepsToOrder := c.models_followsRules.keepsToOrder
  have hp : d.ledger.isPending 7 = true := by decide +kernel
  have h := run_pending models own (Portfolio.ofConfig c.account) Table.empty
    [.showSnapshot (Snapshot.ofBar "SPY" (Bar.flat ⟨60⟩ 100 12)), .place buy, .scan ⟨60⟩]
  exact ⟨own, by decide +kernel, h.2.2.2.2.1 7 hp⟩

end Desk

end TradingDesk
