import TradingDesk.Proofs.Gates
/- Proofs.FillStage — looks that get to the fill rules, and what comes of them.

   A look puts an order to the fill model when it has passed every gate before it, the check
   of buying power included (`fillStage?`). The built-in models never fault, and only the fill
   rules ask their memory: a look either answers with what the rules make of the order, or it
   holds the order or closes it, and which of the two does not depend on the memory
   (`Config.judge_cases`).

   What a verdict does to a floor depends on the ledger and the account alone
   (`Floor.settle_determined`), so two floors with the same of both take one verdict alike. -/
namespace TradingDesk

variable {α σ : Type} [Scalar α]

/-! ## Getting to the fill model -/

/-- The security with which a look puts an order to the fill model. -/
def Models.fillStage? (models : Models α σ) (board : Board α) (account : Portfolio α)
    (order : Order α) (now : Instant) (memory : σ) : Option (Snapshot α) :=
  (models.reach? board order now memory).bind fun (security, memory) =>
    match models.checkPower account security order memory with
    | (.ok check, _) => if check.sufficient then some security else none
    | (.error _, _) => none

/-! ## The fee of a plan -/

namespace FeePlan

/-- What the plan charges for a fill on its schedule. -/
def due (plan : FeePlan α) (order : Order α) (price quantity : α) : α :=
  if Scalar.negligible quantity then 0
  else match plan.schedule with
    | .perOrder => if order.isUnfilled then plan.charge order price quantity else 0
    | .perUnit => plan.charge order price quantity

/-- The model of a plan never faults. -/
theorem model_fee_eq (plan : FeePlan α) (security : Snapshot α) (order : Order α)
    (price quantity : α) :
    (plan.model : FeeModel α σ).fee security order price quantity =
      Trial.give (plan.due order price quantity) := by
  unfold FeeModel.fee due
  split
  · rfl
  · show (match plan.schedule with
      | .perOrder => if order.isUnfilled then Trial.give (plan.charge order price quantity)
        else Trial.give 0
      | .perUnit => Trial.give (plan.charge order price quantity)) = _
    cases plan.schedule with
    | perUnit => rfl
    | perOrder => cases order.isUnfilled <;> rfl

end FeePlan

/-! ## What the rules make of an order -/

namespace FillConfig

/-- The answer of the rules to an order, and the memory after it. -/
def outcome (c : FillConfig α) (security : Snapshot α) (order : Order α) (now : Instant)
    (u : Usage α) : OrderEvent α × Usage α :=
  match c.price? security order with
  | none => (OrderEvent.unchanged order now, u)
  | some price =>
    (filled order now price (c.fillQuantity security order u).1,
      (c.fillQuantity security order u).2)

theorem dispatch_eq_outcome (c : FillConfig α) (security : Snapshot α) (order : Order α)
    (now : Instant) (u : Usage α) :
    c.fillModel.dispatch security order now u =
      (.ok ((c.outcome security order now u).1, order.kind.trigger (reachesStopOf security order)),
        (c.outcome security order now u).2) := by
  rw [dispatch_eq_fillIf, outcome]
  cases c.price? security order with
  | none => rfl
  | some price => rfl

/-- Without a cap an order fills what is left of it. -/
theorem fillQuantity_of_uncapped {c : FillConfig α} (hc : c.participation = none)
    (security : Snapshot α) (order : Order α) (u : Usage α) :
    c.fillQuantity security order u = (order.remaining, u) := by
  unfold fillQuantity
  rw [hc]

theorem outcome_orderId (c : FillConfig α) (security : Snapshot α) (order : Order α)
    (now : Instant) (u : Usage α) : (c.outcome security order now u).1.orderId = order.id := by
  unfold outcome
  cases c.price? security order with
  | none => rfl
  | some price => exact filled_orderId _ _

/-- The outcome of an order is an answer that the rules draw. -/
theorem outcome_draws (c : FillConfig α) (security : Snapshot α) (order : Order α) (now : Instant)
    (u : Usage α) : c.Draws security order now (c.outcome security order now u).1 :=
  fillModel_answers ⟨u, _, dispatch_eq_outcome c security order now u⟩

end FillConfig

/-! ## Verdicts of the built-in models -/

namespace Config

variable {c : Config α} {overrides : Table String (FeePlan α)} {board : Board α}
  {account : Portfolio α} {order : Order α} {now : Instant} {security : Snapshot α}

/-- The fee plan of a symbol. -/
def plan (c : Config α) (overrides : Table String (FeePlan α)) (symbol : String) : FeePlan α :=
  (FeePlans.mk c.fees overrides).plan symbol

/-- The answer of the built-in models to whether an account affords an order. -/
def powerCheck (c : Config α) (overrides : Table String (FeePlan α)) (account : Portfolio α)
    (security : Snapshot α) (order : Order α) : PowerCheck α :=
  account.check (effectiveLeverage c.power.leverage) security order
    ((c.plan overrides order.symbol).due order (referencePrice security order) order.remaining)

theorem checkPower_give (c : Config α) (overrides : Table String (FeePlan α))
    (account : Portfolio α) (security : Snapshot α) (order : Order α) :
    (c.models overrides).checkPower account security order =
      Trial.give (c.powerCheck overrides account security order) := by
  funext u
  have hfee := FeePlan.model_fee_eq (σ := Usage α) (c.plan overrides order.symbol) security order
    (referencePrice security order) order.remaining
  show Trial.andThen (((c.plan overrides order.symbol).model).fee _ _ _ _) _ u = _
  rw [hfee]
  rfl

/-- The security with which the built-in models put an order to the rules, whatever they
remember. -/
theorem fillStage?_eq (c : Config α) (overrides : Table String (FeePlan α)) (board : Board α)
    (account : Portfolio α) (order : Order α) (now : Instant) (u : Usage α) :
    (c.models overrides).fillStage? board account order now u =
      if order.waits now then none
      else (board.get? order.symbol).bind fun security =>
        if order.isExpired now then none
        else if c.execution.executable security &&
            (c.powerCheck overrides account security order).sufficient then some security
        else none := by
  unfold Models.fillStage? Models.reach?
  cases order.waits now with
  | true => rfl
  | false =>
    cases board.get? order.symbol with
    | none => rfl
    | some security =>
      cases order.isExpired now with
      | true => rfl
      | false =>
        have hveto : (c.models overrides).executable security order u =
            (c.execution.executable security, u) := rfl
        simp only [Bool.false_eq_true, if_false, hveto, Option.bind_some]
        cases c.execution.executable security with
        | false => rfl
        | true => simp [checkPower_give, Trial.give]

/-- The event with the fee of its fill. -/
def charged (c : Config α) (overrides : Table String (FeePlan α)) (order : Order α)
    (event : OrderEvent α) : OrderEvent α :=
  if event.isFill then
    { event with
      fee := (c.plan overrides order.symbol).due order event.fillPrice event.fillQuantity }
  else event

/-- Charging an event changes its fee at most. -/
theorem charged_eq (c : Config α) (overrides : Table String (FeePlan α)) (order : Order α)
    (event : OrderEvent α) :
    ∃ fee, c.charged overrides order event = { event with fee := fee } := by
  unfold charged
  split
  · exact ⟨_, rfl⟩
  · exact ⟨event.fee, rfl⟩

theorem charged_of_not_isFill {event : OrderEvent α} (h : event.isFill = false) :
    c.charged overrides order event = event := by
  rw [charged, h, if_neg Bool.false_ne_true]

/-- An attempt to fill under the built-in models gives the outcome of the order with its fee. -/
theorem attemptFill_eq (c : Config α) (overrides : Table String (FeePlan α))
    (security : Snapshot α) (order : Order α) (now : Instant) (u : Usage α) :
    (c.models overrides).attemptFill security order now u =
      (.ok (c.charged overrides order (c.fill.outcome security order now u).1,
        order.kind.trigger (FillConfig.reachesStopOf security order)),
        (c.fill.outcome security order now u).2) := by
  have hdispatch : (c.models overrides).fill.dispatch security order now u = _ :=
    FillConfig.dispatch_eq_outcome c.fill security order now u
  simp only [Models.attemptFill, Trial.andThen, hdispatch, charged]
  split
  · have hfee : ∀ price quantity,
        ((c.models overrides).fees order.symbol).fee security order price quantity = _ :=
      FeePlan.model_fee_eq (c.plan overrides order.symbol) security order
    simp only [Trial.andThen, hfee, Trial.give]
  · rfl

/-- A look under the built-in models either gets to the rules, and then it answers with the outcome
of the order; or it holds the order or closes it, and leaves the memory alone. Which of the two, and
what it does without the rules, does not depend on the memory. -/
theorem judge_cases (c : Config α) (overrides : Table String (FeePlan α)) (board : Board α)
    (account : Portfolio α) (order : Order α) (now : Instant) :
    (∃ security, board.get? order.symbol = some security ∧ ∀ u,
      (c.models overrides).fillStage? board account order now u = some security ∧
      (c.models overrides).judge board account order now u =
        (.answer (c.charged overrides order (c.fill.outcome security order now u).1)
          (order.kind.trigger (FillConfig.reachesStopOf security order)),
          (c.fill.outcome security order now u).2)) ∨
    ∃ verdict, (verdict = .hold ∨ ∃ status message, (status = .invalid ∨ status = .canceled) ∧
        verdict = .close ((OrderEvent.of order now status).withMessage message)) ∧ ∀ u,
      (c.models overrides).fillStage? board account order now u = none ∧
      (c.models overrides).judge board account order now u = (verdict, u) := by
  simp only [fillStage?_eq]
  unfold Models.judge
  cases order.waits now with
  | true => exact .inr ⟨_, .inl rfl, fun u => ⟨rfl, rfl⟩⟩
  | false =>
    cases board.get? order.symbol with
    | none => exact .inr ⟨_, .inr ⟨.invalid, _, .inl rfl, rfl⟩, fun u => ⟨rfl, rfl⟩⟩
    | some security =>
      cases order.isExpired now with
      | true => exact .inr ⟨_, .inr ⟨.canceled, _, .inr rfl, rfl⟩, fun u => ⟨rfl, rfl⟩⟩
      | false =>
        have hveto : ∀ u, (c.models overrides).executable security order u =
            (c.execution.executable security, u) := fun u => rfl
        simp only [Bool.false_eq_true, if_false, hveto, Option.bind_some]
        cases c.execution.executable security with
        | false => exact .inr ⟨_, .inl rfl, fun u => ⟨rfl, rfl⟩⟩
        | true =>
          simp only [Models.judgeExecutable, checkPower_give, Trial.give, Bool.true_and]
          cases (c.powerCheck overrides account security order).sufficient with
          | false => exact .inr ⟨_, .inr ⟨.invalid, _, .inl rfl, rfl⟩, fun u => ⟨rfl, rfl⟩⟩
          | true =>
            refine .inl ⟨security, rfl, fun u => ⟨rfl, ?_⟩⟩
            simp only [if_true, Models.judgeFill, attemptFill_eq]

/-- The verdict of a look that gets to the rules. -/
theorem judge_of_fillStage {u : Usage α}
    (h : (c.models overrides).fillStage? board account order now u = some security) :
    (c.models overrides).judge board account order now u =
      (.answer (c.charged overrides order (c.fill.outcome security order now u).1)
        (order.kind.trigger (FillConfig.reachesStopOf security order)),
        (c.fill.outcome security order now u).2) := by
  obtain ⟨_, -, hrules⟩ | ⟨_, -, hgates⟩ := c.judge_cases overrides board account order now
  · obtain rfl := Option.some.inj ((hrules u).1.symm.trans h)
    exact (hrules u).2
  · rw [(hgates u).1] at h
    cases h

end Config

/-! ## What a verdict does -/

namespace Floor

variable {f : Floor α σ}

/-- What becomes of the ledger and the account when an event is committed, and whether the event is
published, depends on the two alone. -/
theorem commit_determined (ledger : Ledger α) (account : Portfolio α) (event : OrderEvent α) :
    ∃ ledger' account' published taken, ∀ f : Floor α σ, f.ledger = ledger →
      f.account = account → f.commit event =
        (⟨ledger', account', f.memory, f.log ++ published, f.reports⟩, taken) := by
  cases h : ledger.record? event with
  | none =>
    refine ⟨ledger, account, [], false, ?_⟩
    rintro f rfl rfl
    rw [commit_of_none h, List.append_nil]
  | some l =>
    refine ⟨l, account.applyFill event, [event], true, ?_⟩
    rintro f rfl rfl
    rw [commit_of_some h]
    rfl

/-- So it is with a verdict. -/
theorem settle_determined (ledger : Ledger α) (account : Portfolio α) (order : Order α)
    (now : Instant) (verdict : Verdict α) :
    ∃ ledger' account' published reported again, ∀ f : Floor α σ, f.ledger = ledger →
      f.account = account → f.settle order now verdict =
        (⟨ledger', account', f.memory, f.log ++ published, f.reports ++ reported⟩, again) := by
  cases verdict with
  | hold =>
    refine ⟨ledger, account, [], [], true, ?_⟩
    rintro f rfl rfl
    rw [settle, List.append_nil, List.append_nil]
  | close event =>
    obtain ⟨l, a, published, taken, hcommit⟩ := commit_determined (σ := σ) ledger account event
    refine ⟨l, a, published, [], false, ?_⟩
    intro f hl ha
    rw [settle, hcommit f hl ha, List.append_nil]
  | fault message =>
    obtain ⟨l, a, published, taken, hcommit⟩ :=
      commit_determined (σ := σ) ledger account (faultEvent order now message)
    refine ⟨l, a, published, [(order.id, message)], false, ?_⟩
    intro f hl ha
    rw [settle, hcommit (f.report order.id message) hl ha]
    rfl
  | answer event kind =>
    by_cases hquiet : event.status = order.status ∧ !event.isFill
    · refine ⟨ledger.setKind order.id kind, account, [], [], true, ?_⟩
      rintro f rfl rfl
      simp only [settle, if_pos hquiet, List.append_nil]
    · obtain ⟨l, a, published, taken, hcommit⟩ :=
        commit_determined (σ := σ) (ledger.setKind order.id kind) account event
      refine ⟨l, a, published, [], !taken || !event.status.isTerminal, ?_⟩
      rintro f rfl rfl
      simp only [settle, if_neg hquiet, List.append_nil,
        hcommit { f with ledger := f.ledger.setKind order.id kind } rfl rfl]

theorem settle_memory (f : Floor α σ) (order : Order α) (now : Instant) (verdict : Verdict α) :
    (f.settle order now verdict).1.memory = f.memory := by
  obtain ⟨l, a, published, reported, again, hsettle⟩ :=
    settle_determined (σ := σ) f.ledger f.account order now verdict
  rw [hsettle f rfl rfl]

/-- An answer that nothing happened leaves at most the order's kind. -/
theorem settle_unchanged (hzero : ¬ (Scalar.tolerance : α) ≤ Scalar.abs 0) (f : Floor α σ)
    (order : Order α) (now : Instant) (kind : OrderKind α) :
    f.settle order now (.answer (OrderEvent.unchanged order now) kind) =
      ({ f with ledger := f.ledger.setKind order.id kind }, true) := by
  have hquiet : (OrderEvent.unchanged order now).isFill = false := decide_eq_false hzero
  have hsame : (OrderEvent.unchanged order now).status = order.status := rfl
  simp only [settle, hquiet, hsame, Bool.not_false, and_self, if_true]

/-- A verdict that closes an open order is booked and published. -/
theorem settle_close {order : Order α} (now : Instant) {status : OrderStatus}
    (hs : f.ledger.get? order.id = some order) (ho : order.status.isTerminal = false)
    (hstatus : status = .invalid ∨ status = .canceled) (message : String) :
    let event := (OrderEvent.of order now status).withMessage message
    ∃ l, f.ledger.Refiled l order.id (order.booked event) false ∧
      (f.settle order now (.close event)).1 = { f with ledger := l }.publish event := by
  intro event
  have hs' : f.ledger.get? event.orderId = some order := hs
  obtain ⟨l, hl, hr⟩ := Ledger.record?_of_allows hs' (OrderStatus.allows_closing ho hstatus)
  have hterm : event.status.isTerminal = true := by rcases hstatus with rfl | rfl <;> rfl
  rw [hterm, Bool.not_true, Bool.and_false] at hr
  exact ⟨l, hr, by rw [settle, commit_of_some hl]⟩

/-- An answer with news of an open order that the rules may give is booked and published. -/
theorem settle_news {order : Order α} (now : Instant) {event : OrderEvent α} (kind : OrderKind α)
    (hs : f.ledger.get? order.id = some order) (ho : order.status.isTerminal = false)
    (hid : event.orderId = order.id)
    (hnews : ¬ (event.status = order.status ∧ (!event.isFill) = true))
    (hstatus : event.status = .filled ∨ event.status = .partiallyFilled) :
    ∃ l, f.ledger.Refiled l order.id ((order.withKind kind).booked event)
        (f.ledger.isPending order.id && !event.status.isTerminal) ∧
      (f.settle order now (.answer event kind)).1 = { f with ledger := l }.publish event := by
  have hk := Ledger.setKind_refiled kind hs
  have hs' : (f.ledger.setKind order.id kind).get? event.orderId = some (order.withKind kind) := by
    rw [hid]
    exact hk.get?_self
  obtain ⟨l, hl, -⟩ := Ledger.record?_of_allows hs' (OrderStatus.allows_filling ho hstatus)
  refine ⟨l, Ledger.setKind_record?_refiled hs hid hl, ?_⟩
  simp only [settle, if_neg hnews]
  rw [commit_of_some (f := { f with ledger := f.ledger.setKind order.id kind }) hl]

/-- A fill is news. -/
theorem not_quiet_of_isFill {event : OrderEvent α} {status : OrderStatus}
    (hfill : event.isFill = true) : ¬ (event.status = status ∧ (!event.isFill) = true) := by
  rw [hfill]
  exact fun h => Bool.false_ne_true h.2

/-! ## Looks that get to the rules -/

section Rules

variable {c : Config α} {overrides : Table String (FeePlan α)} {board : Board α}
  {f : Floor α (Usage α)} {order : Order α} {now : Instant} {security : Snapshot α}

theorem visit_of_fillStage (hs : f.ledger.get? order.id = some order)
    (ho : order.status.isTerminal = false)
    (h : (c.models overrides).fillStage? board f.account order now f.memory = some security) :
    f.visit (c.models overrides) board now order.id =
      { f with memory := (c.fill.outcome security order now f.memory).2 }.settle order now
        (.answer (c.charged overrides order (c.fill.outcome security order now f.memory).1)
          (order.kind.trigger (FillConfig.reachesStopOf security order))) := by
  rw [visit_of_open hs ho, Config.judge_of_fillStage h]

/-- Where nothing comes of an order, a look leaves at most the mark of its stop. -/
theorem visit_of_unchanged (hzero : ¬ (Scalar.tolerance : α) ≤ Scalar.abs 0)
    (hs : f.ledger.get? order.id = some order) (ho : order.status.isTerminal = false)
    (h : (c.models overrides).fillStage? board f.account order now f.memory = some security)
    (hsame : (c.fill.outcome security order now f.memory).1 = OrderEvent.unchanged order now) :
    (f.visit (c.models overrides) board now order.id).1 =
      { f with
        ledger := f.ledger.setKind order.id
          (order.kind.trigger (FillConfig.reachesStopOf security order))
        memory := (c.fill.outcome security order now f.memory).2 } := by
  have hquiet : (OrderEvent.unchanged order now).isFill = false := decide_eq_false hzero
  rw [visit_of_fillStage hs ho h, hsame, Config.charged_of_not_isFill hquiet,
    settle_unchanged hzero]

/-- A fill that comes of an order is booked and published with its fee. -/
theorem visit_of_fill (hs : f.ledger.get? order.id = some order)
    (ho : order.status.isTerminal = false)
    (h : (c.models overrides).fillStage? board f.account order now f.memory = some security)
    (hfill : (c.fill.outcome security order now f.memory).1.isFill = true)
    (hstatus : (c.fill.outcome security order now f.memory).1.status = .filled ∨
      (c.fill.outcome security order now f.memory).1.status = .partiallyFilled) :
    let event := c.charged overrides order (c.fill.outcome security order now f.memory).1
    ∃ l, f.ledger.Refiled l order.id
        ((order.withKind (order.kind.trigger (FillConfig.reachesStopOf security order))).booked
          event) (f.ledger.isPending order.id && !event.status.isTerminal) ∧
      (f.visit (c.models overrides) board now order.id).1 =
        { f with
          ledger := l
          memory := (c.fill.outcome security order now f.memory).2 }.publish event := by
  intro event
  obtain ⟨fee, hevent⟩ :=
    c.charged_eq overrides order (c.fill.outcome security order now f.memory).1
  have hid : event.orderId = order.id := by
    simp only [event, hevent]
    exact c.fill.outcome_orderId security order now f.memory
  rw [visit_of_fillStage hs ho h]
  refine settle_news (f := { f with memory := (c.fill.outcome security order now f.memory).2 })
    now _ hs ho hid (not_quiet_of_isFill ?_) ?_
  · simp only [event, hevent]
    exact hfill
  · simp only [event, hevent]
    exact hstatus

end Rules

end Floor

end TradingDesk
