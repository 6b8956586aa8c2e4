import TradingDesk.Proofs.Fault
import TradingDesk.Proofs.Frame
/- Proofs.Gates — the gates that every fill has passed.

   A pass puts an order to the fill model only when no gate before it holds the order
   or closes it (`judge_answer`, `judgeExecutable_answer`). A fill that a pass publishes
   is an answer of the fill model in the one look at its order (`look_of_published`,
   `judge_of_fill`), so the order was `Cleared` there: it was due and unexpired, its
   security was tracked, priced and in a session it may trade in, and the account as the
   looks before had left it could afford it. Fees may be of any kind, faults included.

   The gates also say what can be left open by a pass: an order that has to wait, or one
   whose security is tracked and that has not expired (`pass_open`). -/
namespace TradingDesk

variable {α σ τ : Type}

theorem OrderKind.isMarket_iff {kind : OrderKind α} : kind.isMarket = true ↔ kind = .market := by
  cases kind <;> simp [isMarket]

theorem OrderKind.isMarket_trigger (kind : OrderKind α) (reached : Bool) :
    (kind.trigger reached).isMarket = kind.isMarket := by
  cases kind <;> rfl

variable [Scalar α]

omit [Scalar α] in
theorem Order.waits_eq_false_iff {order : Order α} {now : Instant} :
    order.waits now = false ↔ order.kind = .market ∨ order.time < now := by
  have hlt : ¬ now ≤ order.time ↔ order.time < now := Int.not_le
  rw [waits, Bool.and_eq_false_iff, decide_eq_false_iff_not, hlt, Bool.not_eq_false',
    OrderKind.isMarket_iff, or_comm]

/-! ## The gates of a look -/

namespace Models

variable {models : Models α σ} {board : Board α} {account : Portfolio α} {order : Order α}
  {now : Instant} {memory : σ} {event : OrderEvent α} {kind : OrderKind α}

omit [Scalar α] in
/-- An order that gets to the models is due, tracked and unexpired, and may execute. -/
theorem reach?_eq_some {security : Snapshot α} {m : σ}
    (h : models.reach? board order now memory = some (security, m)) :
    order.waits now = false ∧ board.get? order.symbol = some security ∧
      order.isExpired now = false ∧ models.executable security order memory = (true, m) := by
  unfold reach? at h
  split at h
  · cases h
  · next hwaits =>
    split at h
    · cases h
    · next posted hb =>
      split at h
      · cases h
      · next hexpired =>
        split at h
        · cases h
        · next memory' he =>
          cases h
          exact ⟨Bool.not_eq_true _ ▸ hwaits, hb, Bool.not_eq_true _ ▸ hexpired, he⟩

/-- The fill model answers about an order that may execute only when the account affords it. -/
theorem judgeExecutable_answer {security : Snapshot α}
    (h : (models.judgeExecutable account security order now memory).1 = .answer event kind) :
    ∃ check m m', models.checkPower account security order memory = (.ok check, m) ∧
      check.sufficient = true ∧
      models.attemptFill security order now m = (.ok (event, kind), m') := by
  unfold judgeExecutable at h
  rcases hpower : models.checkPower account security order memory with ⟨fault | check, m⟩
  · rw [hpower] at h
    cases h
  · rw [hpower] at h
    simp only at h
    split at h
    · next hsufficient =>
      unfold judgeFill at h
      rcases hfill : models.attemptFill security order now m with ⟨fault | answer, m'⟩
      · rw [hfill] at h
        cases h
      · rw [hfill] at h
        cases h
        exact ⟨check, m, m', rfl, hsufficient, hfill⟩
    · cases h

/-- The fill model answers about an order only when the order gets to the models. -/
theorem judge_answer (h : (models.judge board account order now memory).1 = .answer event kind) :
    ∃ security m, models.reach? board order now memory = some (security, m) ∧
      (models.judgeExecutable account security order now m).1 = .answer event kind := by
  obtain ⟨security, -, hreach, hjudge⟩ | ⟨-, hheld, -⟩ :=
    models.judge_cases board account order now memory
  · rw [hjudge] at h
    exact ⟨security, _, hreach, h⟩
  · obtain hhold | ⟨status, message, hclose⟩ := hheld
    · rw [hhold] at h
      cases h
    · rw [hclose] at h
      cases h

/-- An order that need not wait is closed when its security is not tracked or it has expired. -/
theorem judge_close (hwaits : order.waits now = false)
    (h : board.get? order.symbol = none ∨ order.isExpired now = true) :
    ∃ event, (models.judge board account order now memory).1 = .close event := by
  unfold judge
  rw [hwaits]
  cases hb : board.get? order.symbol with
  | none => exact ⟨_, rfl⟩
  | some security =>
    have hexpired : order.isExpired now = true := h.resolve_left (by simp [hb])
    simp only [hexpired, if_true]
    exact ⟨_, rfl⟩

end Models

namespace Floor

variable {models : Models α σ} {board : Board α} {now : Instant} {f : Floor α σ} {id : OrderId}
  {order : Order α} {e : OrderEvent α}

theorem commit_log (f : Floor α σ) (event : OrderEvent α) :
    (f.commit event).1.log = f.log ∨ (f.commit event).1.log = f.log ++ [event] := by
  unfold commit
  split
  · exact .inr rfl
  · exact .inl rfl

/-- An event that is committed to the log is the one that was published. -/
theorem eq_of_commit_log {event : OrderEvent α} (h : (f.commit event).1.log = f.log ++ [e]) :
    e = event := by
  obtain hsame | hgrown := f.commit_log event
  · rw [hsame] at h
    simp at h
  · rw [hgrown] at h
    simpa using h.symm

/-- What a verdict publishes is a fill only if the fill model answered with it. -/
theorem settle_log (hzero : ¬ (Scalar.tolerance : α) ≤ Scalar.abs 0) (hfill : e.isFill = true)
    {verdict : Verdict α} (hv : models.MayJudge now order verdict)
    (h : (f.settle order now verdict).1.log = f.log ++ [e]) :
    ∃ kind, verdict = .answer e kind := by
  have hnone : ∀ event : OrderEvent α, event.fillQuantity = 0 → e ≠ event := by
    intro event hq he
    rw [he, OrderEvent.isFill, hq] at hfill
    exact hzero (of_decide_eq_true hfill)
  cases hv with
  | hold => simp [settle] at h
  | close message hs => exact absurd (eq_of_commit_log h) (hnone _ rfl)
  | fault report =>
    exact absurd (eq_of_commit_log (f := f.report order.id report) h) (hnone _ rfl)
  | @answer event kind hi =>
    simp only [settle] at h
    split at h
    · simp at h
    · have he := eq_of_commit_log (f := { f with ledger := f.ledger.setKind order.id kind }) h
      exact ⟨kind, by rw [he]⟩

/-- A fill that a look publishes is the answer of the fill model about the open order under the
id. -/
theorem judge_of_fill (hzero : ¬ (Scalar.tolerance : α) ≤ Scalar.abs 0) (hfill : e.isFill = true)
    (h : (f.visit models board now id).1.log = f.log ++ [e]) :
    ∃ order kind, f.ledger.get? id = some order ∧
      (models.judge board f.account order now f.memory).1 = .answer e kind := by
  obtain ⟨order, hs, -, -, hvisit⟩ | ⟨-, -, hvisit⟩ := visit_cases models board now f id
  · rw [hvisit] at h
    have hv := models.judge_mayJudge board f.account order now f.memory
    obtain ⟨kind, hkind⟩ := settle_log (f := { f with memory := _ }) hzero hfill hv h
    exact ⟨order, kind, hs, hkind⟩
  · rw [hvisit] at h
    simp at h

/-- An order that a look closes is pending no longer. -/
theorem isPending_visit_of_close (hf : f.ledger.WellFiled) (own : models.fill.KeepsToOrder)
    (hp : f.ledger.isPending id = true) (hs : f.ledger.get? id = some order)
    (ho : order.status.isTerminal = false)
    (h : ∃ event, (models.judge board f.account order now f.memory).1 = .close event) :
    (f.visit models board now id).1.ledger.isPending id = false := by
  obtain ⟨event, hclose⟩ := h
  rw [← (visit_visited models board now f id hf).needed_eq hf own hp]
  obtain ⟨order', hs', -, -, hvisit⟩ | ⟨hdone, -⟩ := visit_cases models board now f id
  · obtain rfl := Option.some.inj (hs.symm.trans hs')
    rw [hvisit, hclose]
    rfl
  · rw [hdone order hs] at ho
    cases ho

/-! ## A whole pass -/

/-- An event that a pass publishes is published by the look at its id. -/
theorem look_of_published (hf : f.ledger.WellFiled) (own : models.fill.KeepsToOrder)
    {published : List (OrderEvent α)}
    (hlog : (f.pass models board now).1.log = f.log ++ published) (he : e ∈ published) :
    ((f.before models board now e.orderId).visit models board now e.orderId).1.log =
      (f.before models board now e.orderId).log ++ [e] := by
  have hp : f.ledger.isPending e.orderId = true := by
    obtain ⟨published', hlog', hsub⟩ := visitAll_published board now f.ledger.pendingIds hf own
    obtain rfl : published = published' := List.append_cancel_left (hlog.symm.trans hlog')
    exact Ledger.mem_pendingIds.mp (hsub.subset (List.mem_map_of_mem he))
  have hbefore := before_wellFiled models board now e.orderId hf
  obtain ⟨hfound, hleft⟩ := pass_docket board now hf own hp
  have hevents := docket_events hlog e.orderId
  rw [hleft, ← hfound] at hevents
  have hmem : e ∈ eventsOf published e.orderId :=
    List.mem_filter.mpr ⟨he, beq_self_eq_true _⟩
  -- the look publishes one event of its id at most, and the pass has published `e` of it
  obtain hquiet | ⟨event, hgrown, hid⟩ :=
    (visit_visited models board now _ e.orderId hbefore).log_cases hbefore own
  · have hnone : eventsOf published e.orderId = [] := by
      apply List.append_right_eq_self.mp
      rw [← hevents, docket, docket, hquiet]
    rw [hnone] at hmem
    cases hmem
  · have hone : eventsOf published e.orderId = [event] := by
      refine List.append_cancel_left (Eq.trans hevents.symm ?_)
      rw [docket, docket, hgrown, eventsOf_append_self hid]
    rw [hone, List.mem_singleton] at hmem
    rw [hgrown, hmem]

/-- A pass closes a pending order that is due and whose security is not tracked or that has
expired. -/
theorem isPending_pass_of_close (hf : f.ledger.WellFiled) (own : models.fill.KeepsToOrder)
    (hp : f.ledger.isPending id = true) (hs : f.ledger.get? id = some order)
    (ho : order.status.isTerminal = false) (hwaits : order.waits now = false)
    (h : board.get? order.symbol = none ∨ order.isExpired now = true) :
    (f.pass models board now).1.ledger.isPending id = false := by
  obtain ⟨hfound, hleft⟩ := pass_docket board now hf own hp
  rw [isPending_congr hleft]
  apply isPending_visit_of_close (before_wellFiled models board now id hf) own
  · rw [isPending_congr hfound, hp]
  · exact (congrArg Docket.order hfound).trans hs
  · exact ho
  · exact Models.judge_close hwaits h

/-- What is open after a pass has to wait for a later time, or its security is tracked and it has
not expired. -/
theorem pass_open (orderly : f.ledger.Orderly) (own : models.fill.KeepsToOrder)
    (marks : models.fill.MarksStops) (board : Board α) (now : Instant) {o : Order α}
    (hp : (f.pass models board now).1.ledger.isPending id = true)
    (hs : (f.pass models board now).1.ledger.get? id = some o) :
    o.kind ≠ .market ∧ now ≤ o.time ∨
      (∃ security, board.get? o.symbol = some security) ∧ o.isExpired now = false := by
  obtain ⟨published, framed⟩ := pass_framed models own marks board now orderly
  have hp₀ := framed.noEntry id hp
  obtain ⟨order, hs₀, ho⟩ := (orderly.pending_iff id).mp hp₀
  -- neither the wait nor the two gates look at what the pass has changed of the order
  have hsame : o.waits now = order.waits now ∧ o.symbol = order.symbol ∧
      o.isExpired now = order.isExpired now := by
    obtain ⟨reached, status, filled, hs'⟩ := framed.get?_eq hp₀ hs₀
    obtain rfl := Option.some.inj (hs.symm.trans hs')
    simp [Order.waits, Order.isExpired, OrderKind.isMarket_trigger]
  obtain ⟨hwaits, hsymbol, hexpired⟩ := hsame
  cases hw : order.waits now with
  | true =>
    rw [hw, Order.waits, Bool.and_eq_true, decide_eq_true_iff, Bool.not_eq_true'] at hwaits
    refine .inl ⟨?_, hwaits.1⟩
    rw [Ne, ← OrderKind.isMarket_iff, hwaits.2]
    exact Bool.false_ne_true
  | false =>
    have hkept : ¬ (board.get? order.symbol = none ∨ order.isExpired now = true) := by
      intro hclosed
      rw [isPending_pass_of_close orderly.wellFiled own hp₀ hs₀ ho hw hclosed] at hp
      cases hp
    obtain ⟨htracked, hunexpired⟩ := not_or.mp hkept
    rw [hsymbol, hexpired]
    exact .inr ⟨Option.ne_none_iff_exists'.mp htracked, Bool.not_eq_true _ ▸ hunexpired⟩

end Floor

/-! ## The built-in gates -/

/-- The built-in models, but for fees of any kind. The fees have a memory beside that of the fill
rules. -/
def Config.modelsCharging (c : Config α) (fees : String → FeeModel α (Usage α × τ)) :
    Models α (Usage α × τ) where
  executable security _ m := (c.execution.executable security, m)
  afford account security order fee :=
    Trial.give (account.check (effectiveLeverage c.power.leverage) security order fee)
  fill := c.fill.fillModel.onFirst
  fees := fees

/-- The order has passed every gate of a look at the floor. -/
structure Cleared (c : Config α) (fees : String → FeeModel α (Usage α × τ)) (board : Board α)
    (now : Instant) (f : Floor α (Usage α × τ)) (order : Order α) (security : Snapshot α) :
    Prop where
  /-- Only a market order trades at the time of its creation. -/
  due : order.kind = .market ∨ order.time < now
  unexpired : order.timeInForce.isExpired order.time now = false
  tracked : board.get? order.symbol = some security
  priced : 0 < security.lastPrice
  trading : c.execution.requireOpenMarket = true → security.session ≠ .closed
  opening : order.kind = .marketOnOpen → security.session = .opening
  closing : order.kind = .marketOnClose → security.session = .closing
  /-- The account affords the unfilled quantity and its fee. -/
  afforded : ∃ fee memory,
    (fees order.symbol).fee security order (referencePrice security order) order.remaining
      f.memory = (.ok fee, memory) ∧
    (f.account.check (effectiveLeverage c.power.leverage) security order fee).sufficient = true

theorem FillConfig.session_of_price? {c : FillConfig α} {security : Snapshot α} {order : Order α}
    {price : α} (h : c.price? security order = some price) :
    (order.kind = .marketOnOpen → security.session = .opening) ∧
      (order.kind = .marketOnClose → security.session = .closing) := by
  constructor <;>
  · intro hk
    simp only [price?, hk, crossPrice?] at h
    split at h
    · next hcross => exact hcross.1
    · cases h

/-- An order that the built-in rules fill in a look has passed every gate. -/
theorem Cleared.of_answer {c : Config α} {fees : String → FeeModel α (Usage α × τ)}
    {board : Board α} {now : Instant} {f : Floor α (Usage α × τ)} {order : Order α}
    {e : OrderEvent α} {kind : OrderKind α} (hzero : ¬ (Scalar.tolerance : α) ≤ Scalar.abs 0)
    (hfill : e.isFill = true)
    (h : ((c.modelsCharging fees).judge board f.account order now f.memory).1 = .answer e kind) :
    ∃ security, Cleared c fees board now f order security := by
  obtain ⟨security, m, hreach, hanswer⟩ := Models.judge_answer h
  obtain ⟨hwaits, hb, hexpired, hexecutable⟩ := Models.reach?_eq_some hreach
  obtain ⟨hallowed, rfl⟩ : c.execution.executable security = true ∧ f.memory = m :=
    Prod.mk.inj hexecutable
  obtain ⟨hprice, hsession⟩ := Bool.and_eq_true _ _ ▸ hallowed
  obtain ⟨check, m, m', hpower, hsufficient, hattempt⟩ := Models.judgeExecutable_answer hanswer
  obtain ⟨fee, m₁, hfee, hafford⟩ := Trial.andThen_ok hpower
  obtain ⟨rfl, -⟩ : _ = check ∧ m₁ = m := by
    simpa [Config.modelsCharging, Trial.give] using hafford
  obtain ⟨answered, fee', ha, rfl⟩ := Models.attemptFill_ok hattempt
  obtain ⟨-, hunchanged | ⟨price, u, hprice?, -⟩⟩ := FillConfig.fillModel_answers_at ha.of_onFirst
  · rw [hunchanged] at hfill
    exact absurd (of_decide_eq_true hfill) hzero
  · obtain ⟨hopening, hclosing⟩ := FillConfig.session_of_price? hprice?
    refine ⟨security, Order.waits_eq_false_iff.mp hwaits, hexpired, hb, of_decide_eq_true hprice,
      ?_, hopening, hclosing, fee, m₁, hfee, hsufficient⟩
    intro hrequired hclosed
    simp [hrequired, hclosed, SessionState.isOpen] at hsession

namespace Desk

/-- A scan of a desk that is marked while anything is pending leaves what a pass leaves. -/
theorem scan_toFloor {models : Models α σ} {d : Desk α σ}
    (hmark : d.ledger.hasPending = true → d.needsPass = true) (now : Instant) :
    (d.scan models now).toFloor = (d.toFloor.pass models d.board now).1 := by
  cases hn : d.needsPass with
  | true => simp [scan, hn]
  | false =>
    have hidle : d.ledger.hasPending = false := by
      rw [← Bool.not_eq_true]
      intro hp
      rw [hmark hp] at hn
      cases hn
    rw [Floor.pass_of_idle hidle]
    simp [scan, hn]

/-- Every fill has passed every gate. Of a scan after any run under the built-in models, with fees
of any kind: a fill that it publishes is of an order that was cleared, as stored, on the floor that
the looks at lesser ids had left; and what is open after it has to wait for a later time, or its
security is tracked and it has not expired. -/
theorem run_fills_cleared (c : Config α) (fees : String → FeeModel α (Usage α × τ))
    (hzero : ¬ (Scalar.tolerance : α) ≤ Scalar.abs 0) (account : Portfolio α)
    (memory : Usage α × τ) (actions : List (Action α)) (now : Instant) :
    let models := c.modelsCharging fees
    let d := (opening account memory).run models actions
    let d' := d.scan models now
    (∃ published, d'.log = d.log ++ published ∧ ∀ e ∈ published, e.isFill = true →
      let f := d.before models d.board now e.orderId
      ∃ order security, f.ledger.get? e.orderId = some order ∧
        Cleared c fees d.board now f order security) ∧
    ∀ o ∈ d'.ledger.openOrders, o.kind ≠ .market ∧ now ≤ o.time ∨
      (∃ security, d.board.get? o.symbol = some security) ∧
        o.timeInForce.isExpired o.time now = false := by
  intro models d d'
  have orderly : d.ledger.Orderly := run_orderly models account memory actions
  have own : models.fill.KeepsToOrder := c.fill.fillModel_followsRules.onFirst.keepsToOrder
  have marks : models.fill.MarksStops := c.fill.fillModel_marksStops.onFirst
  have hfloor : d'.toFloor = (d.toFloor.pass models d.board now).1 :=
    scan_toFloor (run_needsPass own (opening_wellFiled account memory) nofun actions) now
  rw [hfloor]
  constructor
  · obtain ⟨published, hlog, -⟩ :=
      Floor.visitAll_published d.board now d.ledger.pendingIds orderly.wellFiled own
    refine ⟨published, hlog, ?_⟩
    intro e he hfill f
    have hlook := Floor.look_of_published orderly.wellFiled own hlog he
    obtain ⟨order, kind, hs, hanswer⟩ := Floor.judge_of_fill hzero hfill hlook
    obtain ⟨security, hcleared⟩ := Cleared.of_answer hzero hfill hanswer
    exact ⟨order, security, hs, hcleared⟩
  · intro o ho
    have hfiled : (d.toFloor.pass models d.board now).1.ledger.WellFiled :=
      Floor.visitAll_wellFiled _ orderly.wellFiled
    obtain ⟨hp, hs⟩ := (Ledger.mem_openOrders hfiled).mp ho
    exact Floor.pass_open orderly own marks d.board now hp hs

/-- Five orders in an opening cross, with a fee that grows by the call. The first two are filled,
the third cannot be afforded after them, and the last two wait: one for the closing cross, and one
for a time after its creation. -/
theorem run_fills_cleared_of_cross :
    let c : Config Rat := Config.default
    let fees : String → FeeModel Rat (Usage Rat × Nat) := fun _ =>
      ⟨.perUnit, fun _ _ _ _ m => (.ok m.2, (m.1, m.2 + 1))⟩
    let models := c.modelsCharging fees
    let order (id : OrderId) (kind : OrderKind Rat) (time : Int) : Order Rat :=
      { id := id, symbol := "SPY", quantity := 4, kind := kind, time := ⟨time⟩, filled := 0 }
    let memory : Usage Rat × Nat := (Table.empty, 0)
    let actions : List (Action Rat) :=
      [.showSnapshot { Snapshot.ofBar "SPY" (Bar.flat ⟨60⟩ 100 50) with session := .opening },
        .place (order 1 .market 60), .place (order 2 .marketOnOpen 0),
        .place (order 3 .marketOnOpen 0),
        .place { order 4 .marketOnClose 0 with quantity := 1 }, .place (order 5 (.limit 200) 60)]
    let d := (opening (Portfolio.ofCash "USD" 1000) memory).run models actions
    let d' := d.scan models ⟨60⟩
    let f := d.before models d.board ⟨60⟩ 2
    ¬ (Scalar.tolerance : Rat) ≤ Scalar.abs 0 ∧
      (d'.log.drop d.log.length).map (fun e => (e.orderId, e.status, e.fee)) =
        [(1, .filled, 1), (2, .filled, 3), (3, .invalid, 0)] ∧
      f.account.cash = 599 ∧
      (∃ order security, f.ledger.get? 2 = some order ∧ order.kind = .marketOnOpen ∧
        Cleared c fees d.board ⟨60⟩ f order security) ∧
      d'.ledger.openOrders.map Order.id = [4, 5] ∧
      ∀ o ∈ d'.ledger.openOrders, o.kind ≠ .market ∧ ⟨60⟩ ≤ o.time ∨
        (∃ security, d.board.get? o.symbol = some security) ∧
          o.timeInForce.isExpired o.time ⟨60⟩ = false := by
  intro c fees models order memory actions d d' f
  have hzero : ¬ (Scalar.tolerance : Rat) ≤ Scalar.abs 0 := by decide +kernel
  obtain ⟨⟨published, hlog, hcleared⟩, hopen⟩ :=
    run_fills_cleared c fees hzero (Portfolio.ofCash "USD" 1000) memory actions ⟨60⟩
  have hpublished : published = d'.log.drop d.log.length := by
    rw [hlog, List.drop_left]
  obtain ⟨e, he, hid, hfill⟩ : ∃ e ∈ published, e.orderId = 2 ∧ e.isFill = true := by
    rw [hpublished]
    decide +kernel
  have hkind : ∀ order, f.ledger.get? 2 = some order → order.kind = .marketOnOpen := by
    have hstored : (f.ledger.get? 2).map Order.kind = some .marketOnOpen := by decide +kernel
    intro order hs
    simpa [hs] using hstored
  -- at the default transparency the run itself would be unfolded
  refine ⟨hzero, by decide +kernel, by decide +kernel, ?_, by decide +kernel,
    by with_reducible exact hopen⟩
  obtain ⟨order, security, hs, hc⟩ := hcleared e he hfill
  rw [hid] at hs hc
  exact ⟨order, security, hs, hkind order hs, hc⟩

end Desk

end TradingDesk
