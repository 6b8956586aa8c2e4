import TradingDesk.Proofs.Gates
/- Proofs.Timing — which pass a fill is dated by, and when that is before its order.

   Every event that a pass publishes is dated by the pass (`Floor.time_of_published`), and
   the creation time of an order stays what it was when the order was placed
   (`Docket.Turn.time_eq`). So a fill is dated by a scan of the run, and an order that had to
   wait is filled after its creation only. Market orders do not wait, whatever their creation
   time: no order trades before it was created exactly if no scan fills one ahead of its
   creation (`run_fills_after_creation_iff`), and a scan can (`market_order_fills_ahead`). -/
namespace TradingDesk

variable {α σ : Type}

/-! ## Order of instants -/

namespace Instant

variable {s t u : Instant}

theorem le_iff : s ≤ t ↔ s.ticks ≤ t.ticks := Iff.rfl

theorem ticks_max (s t : Instant) : (max s t).ticks = max s.ticks t.ticks := by
  show (if s ≤ t then t else s).ticks = _
  split
  · next h => exact (Int.max_eq_right (le_iff.mp h)).symm
  · next h => exact (Int.max_eq_left (Int.le_of_lt (Int.not_le.mp h))).symm

theorem not_le : ¬ s ≤ t ↔ t < s := Int.not_le

theorem not_lt : ¬ s < t ↔ t ≤ s := Int.not_lt

theorem le_of_lt (h : s < t) : s ≤ t := Int.le_of_lt h

theorem le_refl (s : Instant) : s ≤ s := Int.le_refl _

theorem le_antisymm (h : s ≤ t) (h' : t ≤ s) : s = t := by
  cases s; cases t; cases Int.le_antisymm h h'; rfl

theorem le_trans (h : s ≤ t) (h' : t ≤ u) : s ≤ u := Int.le_trans h h'

end Instant

variable [Scalar α]

/-! ## The dates of a pass -/

/-- What a pass may book is dated by the pass, where the fill model follows the built-in rules. -/
theorem Models.Issues.time_eq {models : Models α σ} {c : FillConfig α}
    (rules : models.fill.FollowsRules c) {now : Instant} {order : Order α} {event : OrderEvent α}
    {kind : OrderKind α} (h : models.Issues now order event kind) : event.time = now := by
  cases h with
  | closing message h => rfl
  | answer h =>
    obtain ⟨answered, fee, ha, rfl⟩ := attemptFill_ok h
    rcases rules _ _ _ answered _ ha with rfl | ⟨price, u, rfl⟩
    · rfl
    · show (FillConfig.filled order now price _).time = now
      unfold FillConfig.filled
      split <;> rfl

namespace Floor

variable {models : Models α σ} {c : FillConfig α} {board : Board α} {now : Instant}
  {id : OrderId} {f f' : Floor α σ} {e : OrderEvent α} {published : List (OrderEvent α)}

/-- The event that a look adds to the log was issued about the open order under the id. -/
theorem Visited.issued {needed : Bool} (h : Visited models now id f f' needed)
    (hlog : f'.log = f.log ++ [e]) :
    ∃ order kind, f.ledger.get? id = some order ∧ order.status.isTerminal = false ∧
      models.Issues now order e kind := by
  cases h with
  | stale hs hl ha hg => simp [hg] at hlog
  | held hl ha hg => simp [hg] at hlog
  | rekinded hs ho hi hl ha hg => simp [hg] at hlog
  | booked hs ho hi hl ha hg =>
    obtain rfl : _ = e := by simpa [hg] using hlog
    exact ⟨_, _, hs, ho, hi⟩

/-- A pass dates what it publishes. -/
theorem time_of_published (rules : models.fill.FollowsRules c) (hf : f.ledger.WellFiled)
    (hlog : (f.pass models board now).1.log = f.log ++ published) (he : e ∈ published) :
    e.time = now := by
  have hlook := look_of_published hf rules.keepsToOrder hlog he
  have hbefore := before_wellFiled models board now e.orderId hf
  obtain ⟨order, kind, -, -, hi⟩ := (visit_visited models board now _ _ hbefore).issued hlook
  exact hi.time_eq rules

/-- An order that a pass fills was due, as the pass found it. -/
theorem due_of_fill (hzero : ¬ (Scalar.tolerance : α) ≤ Scalar.abs 0)
    (own : models.fill.KeepsToOrder) (hf : f.ledger.WellFiled)
    (hlog : (f.pass models board now).1.log = f.log ++ published) (he : e ∈ published)
    (hfill : e.isFill = true) :
    ∃ order, f.ledger.get? e.orderId = some order ∧
      (order.kind = .market ∨ order.time < now) := by
  have hlook := look_of_published hf own hlog he
  obtain ⟨order, kind, hs, hanswer⟩ := judge_of_fill hzero hfill hlook
  obtain ⟨security, m, hreach, -⟩ := Models.judge_answer hanswer
  obtain ⟨hwaits, -⟩ := Models.reach?_eq_some hreach
  have hfound : (f.before models board now e.orderId).ledger.get? e.orderId =
      f.ledger.get? e.orderId :=
    congrArg Docket.order (before_docket board now e.orderId hf own)
  exact ⟨order, hfound.symm.trans hs, Order.waits_eq_false_iff.mp hwaits⟩

end Floor

/-! ## Creation times -/

namespace Docket

variable {models : Models α σ} {id : OrderId} {k k' : Docket α} {o : Order α}

/-- A stored order keeps its creation time, whatever turn its docket takes. -/
theorem Turn.time_eq (h : Turn models id k k') (ho : k.order = some o) :
    ∃ o', k'.order = some o' ∧ o'.time = o.time := by
  cases h with
  | place => cases ho
  | update request time hv =>
    cases ho
    exact ⟨_, rfl, Order.applyUpdate_time _ _⟩
  | cancel time =>
    cases ho
    exact ⟨_, rfl, rfl⟩
  | rekind hopen hi =>
    cases ho
    exact ⟨_, rfl, rfl⟩
  | book kind ha hi hid hk =>
    cases ho
    exact ⟨_, rfl, rfl⟩
  | drop hdone => exact ⟨o, ho, rfl⟩

theorem time_of_turns (h : Relation.ReflTransGen (Turn models id) k k') (ho : k.order = some o) :
    ∃ o', k'.order = some o' ∧ o'.time = o.time := by
  induction h with
  | refl => exact ⟨o, ho, rfl⟩
  | tail _ hturn ih =>
    obtain ⟨o₁, ho₁, htime₁⟩ := ih
    obtain ⟨o₂, ho₂, htime₂⟩ := hturn.time_eq ho₁
    exact ⟨o₂, ho₂, htime₂.trans htime₁⟩

end Docket

namespace Desk

variable {models : Models α σ} {c : FillConfig α} {d : Desk α σ} {id : OrderId} {o : Order α}
  {e : OrderEvent α} {a : Action α}

/-- A stored order keeps its creation time over a run. -/
theorem run_order?_time (models : Models α σ) (hf : d.ledger.WellFiled) (ho : d.order? id = some o)
    (actions : List (Action α)) :
    ∃ o', (d.run models actions).order? id = some o' ∧ o'.time = o.time :=
  Docket.time_of_turns (run_turns models hf actions id) ho

/-! ## What an action publishes -/

/-- The events that an action adds to the log. -/
def published (models : Models α σ) (d : Desk α σ) (a : Action α) : List (OrderEvent α) :=
  (d.step models a).log.drop d.log.length

theorem step_log (models : Models α σ) (hf : d.ledger.WellFiled) (a : Action α) :
    (d.step models a).log = d.log ++ d.published models a := by
  have hstep := step_stepped models hf a
  obtain ⟨published, hlog⟩ := hstep.log_prefix hf
  rw [Desk.published, ← hlog, List.drop_left]

theorem published_of_log {published : List (OrderEvent α)}
    (h : (d.step models a).log = d.log ++ published) : d.published models a = published := by
  rw [Desk.published, h, List.drop_left]

/-- What a run adds to the log is what its actions publish. -/
theorem mem_run_log (hf : d.ledger.WellFiled) {actions : List (Action α)} :
    e ∈ (d.run models actions).log ↔ e ∈ d.log ∨ ∃ earlier a later,
      actions = earlier ++ a :: later ∧ e ∈ (d.run models earlier).published models a := by
  induction actions generalizing d with
  | nil => simp [run]
  | cons a actions ih =>
    rw [run_cons, ih (step_wellFiled models hf a), step_log models hf, List.mem_append]
    constructor
    · rintro ((hd | ha) | ⟨earlier, b, later, rfl, hb⟩)
      · exact .inl hd
      · exact .inr ⟨[], a, actions, rfl, ha⟩
      · exact .inr ⟨a :: earlier, b, later, rfl, hb⟩
    · rintro (hd | ⟨earlier, b, later, hactions, hb⟩)
      · exact .inl (.inl hd)
      · rcases List.cons_eq_append_iff.mp hactions with ⟨rfl, hab⟩ | ⟨rest, rfl, rfl⟩
        · cases hab
          exact .inl (.inr hb)
        · exact .inr ⟨rest, b, later, rfl, hb⟩

/-- A request publishes no fill. -/
theorem not_isFill_of_files (hzero : ¬ (Scalar.tolerance : α) ≤ Scalar.abs 0)
    (h : Files d (d.step models a)) (he : e ∈ d.published models a) : e.isFill = false := by
  generalize hd : d.step models a = d' at h
  cases h with
  | refused =>
    rw [published, hd, List.drop_length] at he
    cases he
  | unmarked id =>
    have hlog : (d.step models a).log = d.log ++ [] := by rw [hd, List.append_nil]; rfl
    rw [published_of_log hlog] at he
    cases he
  | @filed l event hquantity needed =>
    have hlog : (d.step models a).log = d.log ++ [event] := by rw [hd]; rfl
    rw [published_of_log hlog, List.mem_singleton] at he
    rw [OrderEvent.isFill, he, hquantity]
    exact decide_eq_false hzero

/-- A fill is published by a scan that it is dated by, and of an order that was due there. -/
theorem scan_of_fill (hzero : ¬ (Scalar.tolerance : α) ≤ Scalar.abs 0)
    (rules : models.fill.FollowsRules c) (hf : d.ledger.WellFiled)
    (he : e ∈ d.published models a) (hfill : e.isFill = true) :
    a = .scan e.time ∧ ∃ found, d.order? e.orderId = some found ∧
      (found.kind = .market ∨ found.time < e.time) := by
  have hquiet : ¬ Files d (d.step models a) := fun h => by
    rw [not_isFill_of_files hzero h he] at hfill
    cases hfill
  have hempty : d.published models a ≠ [] := List.ne_nil_of_mem he
  cases a with
  | place request => exact absurd (d.place_files request) hquiet
  | update request => exact absurd (d.update_files request) hquiet
  | cancel request => exact absurd (d.cancel_files request) hquiet
  | scan now =>
    by_cases hn : d.needsPass = true
    · have hlog := step_log models hf (.scan now)
      rw [step, scan, if_pos hn] at hlog
      obtain rfl := Floor.time_of_published rules hf hlog he
      exact ⟨rfl, Floor.due_of_fill hzero rules.keepsToOrder hf hlog he hfill⟩
    · refine absurd ?_ hempty
      rw [published, step, scan, if_neg hn]
      exact List.drop_length
  | showSnapshot s => exact absurd List.drop_length hempty
  | untrack symbol => exact absurd List.drop_length hempty
  | mark symbol price => exact absurd List.drop_length hempty

/-! ## Fills and creation times -/

/-- A scan publishes a fill of a market order at a time before the order was created. -/
def FillsAhead (models : Models α σ) (d : Desk α σ) (now : Instant) : Prop :=
  ∃ e ∈ d.published models (.scan now), e.isFill = true ∧
    ∃ order, d.order? e.orderId = some order ∧ order.kind = .market ∧ now < order.time

/-- No order trades before it was created, but for market orders that a scan fills ahead of their
creation. Of any run under the built-in models, with scan times in any order: a fill is dated by the
scan that published it, and the order was a market order there or was created before, and keeps its
creation time from there on; and all fills are dated at or after the creation of the stored order
exactly if no scan of the run fills ahead. -/
theorem run_fills_after_creation_iff (c : Config α) (overrides : Table String (FeePlan α))
    (hzero : ¬ (Scalar.tolerance : α) ≤ Scalar.abs 0) (account : Portfolio α) (memory : Usage α)
    (actions : List (Action α)) :
    let models := c.models overrides
    let start := opening account memory
    let d := start.run models actions
    (∀ e ∈ d.log, e.isFill = true → ∃ earlier later found stored,
      actions = earlier ++ .scan e.time :: later ∧
      e ∈ (start.run models earlier).published models (.scan e.time) ∧
      (start.run models earlier).order? e.orderId = some found ∧
      (found.kind = .market ∨ found.time < e.time) ∧
      d.order? e.orderId = some stored ∧ stored.time = found.time) ∧
    ((∀ e ∈ d.log, e.isFill = true → ∀ stored, d.order? e.orderId = some stored →
        stored.time ≤ e.time) ↔
      ∀ earlier now later, actions = earlier ++ .scan now :: later →
        ¬ FillsAhead models (start.run models earlier) now) := by
  intro models start d
  have rules : models.fill.FollowsRules c.fill := c.models_followsRules
  have hstart : start.ledger.WellFiled := opening_wellFiled account memory
  have hscans : ∀ e ∈ d.log, e.isFill = true → ∃ earlier later found stored,
      actions = earlier ++ .scan e.time :: later ∧
      e ∈ (start.run models earlier).published models (.scan e.time) ∧
      (start.run models earlier).order? e.orderId = some found ∧
      (found.kind = .market ∨ found.time < e.time) ∧
      d.order? e.orderId = some stored ∧ stored.time = found.time := by
    intro e he hfill
    obtain hnone | ⟨earlier, a, later, hactions, ha⟩ := (mem_run_log hstart).mp he
    · cases hnone
    have hearlier := run_wellFiled models hstart earlier
    obtain ⟨rfl, found, hfound, hdue⟩ := scan_of_fill hzero rules hearlier ha hfill
    obtain ⟨stored, hstored, htime⟩ :=
      run_order?_time models hearlier hfound (.scan e.time :: later)
    rw [← run_append, ← hactions] at hstored
    exact ⟨earlier, later, found, stored, hactions, ha, hfound, hdue, hstored, htime⟩
  refine ⟨hscans, ?_, ?_⟩
  · rintro hafter earlier now later hactions ⟨e, he, hfill, order, ho, hkind, hahead⟩
    have hearlier := run_wellFiled models hstart earlier
    obtain ⟨hscan, -⟩ := scan_of_fill hzero rules hearlier he hfill
    obtain rfl := Action.scan.inj hscan
    obtain ⟨stored, hstored, htime⟩ :=
      run_order?_time models hearlier ho (.scan e.time :: later)
    rw [← run_append, ← hactions] at hstored
    have hlogged : e ∈ d.log :=
      (mem_run_log hstart).mpr (.inr ⟨earlier, _, later, hactions, he⟩)
    have hle := hafter e hlogged hfill stored hstored
    rw [htime] at hle
    exact Instant.not_le.mpr hahead hle
  · intro hnone e he hfill stored hstored
    obtain ⟨earlier, later, found, stored', hactions, hpublished, hfound, hdue, hstored', htime⟩ :=
      hscans e he hfill
    obtain rfl := Option.some.inj (hstored.symm.trans hstored')
    rw [htime]
    rcases hdue with hmarket | hlater
    · refine Instant.not_lt.mp fun hahead => ?_
      exact hnone earlier e.time later hactions
        ⟨e, hpublished, hfill, found, hfound, hmarket, hahead⟩
    · exact Instant.le_of_lt hlater

/-- Two orders of one creation time and a clock that goes back before it. The market order is filled
at once; the limit is met all along, waits for a later time and is filled then. No scan of the run
fills ahead. -/
theorem run_fills_after_creation_iff_of_clock_going_back :
    let c : Config Rat := Config.default
    let models := c.models Table.empty
    let start := opening (Portfolio.ofCash "USD" 100000) (Table.empty : Usage Rat)
    let order (id : OrderId) (kind : OrderKind Rat) : Order Rat :=
      { id := id, symbol := "SPY", quantity := 10, kind := kind, time := ⟨60⟩, filled := 0 }
    let actions : List (Action Rat) :=
      [.showSnapshot (Snapshot.ofBar "SPY" (Bar.flat ⟨60⟩ 100 50)), .place (order 1 .market),
        .place (order 2 (.limit 101)), .scan ⟨60⟩, .scan ⟨30⟩, .scan ⟨120⟩]
    let d := start.run models actions
    ¬ (Scalar.tolerance : Rat) ≤ Scalar.abs 0 ∧
      (d.log.filter OrderEvent.isFill).map (fun e => (e.orderId, e.time)) =
        [(1, ⟨60⟩), (2, ⟨120⟩)] ∧
      ∀ earlier now later, actions = earlier ++ .scan now :: later →
        ¬ FillsAhead models (start.run models earlier) now := by
  intro c models start order actions d
  have hzero : ¬ (Scalar.tolerance : Rat) ≤ Scalar.abs 0 := by decide +kernel
  have hchecked : ∀ e ∈ d.log, e.isFill = true →
      (d.order? e.orderId).all (fun o => decide (o.time ≤ e.time)) = true := by decide +kernel
  obtain ⟨-, h⟩ := run_fills_after_creation_iff c Table.empty hzero (Portfolio.ofCash "USD" 100000)
    Table.empty actions
  refine ⟨hzero, by decide +kernel, h.mp fun e he hfill stored hstored => ?_⟩
  have hafter := hchecked e he hfill
  rw [hstored] at hafter
  exact of_decide_eq_true hafter

/-- A market order whose creation time is still to come is filled by the next scan, before it was
created and before the placement that its first event reports. -/
theorem market_order_fills_ahead :
    let models := (Config.default : Config Rat).models Table.empty
    let buy : Order Rat :=
      { id := 1, symbol := "SPY", quantity := 10, kind := .market, time := ⟨120⟩, filled := 0 }
    let d := (opening (Portfolio.ofCash "USD" 100000) Table.empty).run models
      [.showSnapshot (Snapshot.ofBar "SPY" (Bar.flat ⟨60⟩ 100 50)), .place buy, .scan ⟨60⟩]
    d.log.map (fun e => (e.orderId, e.status, e.isFill, e.time)) =
        [(1, .submitted, false, ⟨120⟩), (1, .filled, true, ⟨60⟩)] ∧
      (d.order? 1).map Order.time = some ⟨120⟩ ∧
      ¬ ∀ e ∈ d.log, e.isFill = true → ∀ stored, d.order? e.orderId = some stored →
        stored.time ≤ e.time := by
  intro models buy d
  have hstored : (d.order? 1).map Order.time = some ⟨120⟩ := by decide +kernel
  obtain ⟨stored, hs, htime⟩ := Option.map_eq_some_iff.mp hstored
  obtain ⟨e, he, hfill, hid, hdate⟩ :
      ∃ e ∈ d.log, e.isFill = true ∧ e.orderId = 1 ∧ e.time = ⟨60⟩ := by decide +kernel
  refine ⟨by decide +kernel, hstored, fun h => ?_⟩
  have hle := h e he hfill stored (hid ▸ hs)
  rw [htime, hdate] at hle
  exact absurd hle (by decide)

end Desk

end TradingDesk
