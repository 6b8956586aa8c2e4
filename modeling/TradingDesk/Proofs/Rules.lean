import TradingDesk.Proofs.Visit
/- Proofs.Rules — what the built-in fill rules answer.

   Whatever the kind of the order, the rules answer that nothing happened or with
   a fill of the quantity that the bar's allowance leaves (`fillModel_answers`), at
   the price of the order's condition; and they leave the order its kind, but for
   the mark of a stop that is reached (`fillModel_answers_at`). So they keep to the
   order they were asked about and acknowledge no update, and so does every suite of
   models that takes its fills from them. -/
namespace TradingDesk

variable {α : Type}

variable [Scalar α]

namespace FillConfig

variable {c : FillConfig α} {security : Snapshot α} {order : Order α} {now : Instant}
  {event : OrderEvent α} {kind : OrderKind α}

/-- The event says that nothing happened to the order, or fills what one evaluation of it may
fill. -/
def Draws (c : FillConfig α) (security : Snapshot α) (order : Order α) (now : Instant)
    (event : OrderEvent α) : Prop :=
  event = OrderEvent.unchanged order now ∨
    ∃ price u, event = filled order now price (c.fillQuantity security order u).1

theorem fillIf_cases {price? : Option α} {u u' : Usage α}
    (h : c.fillIf security order now price? u = (.ok event, u')) :
    event = OrderEvent.unchanged order now ∨
      ∃ price, price? = some price ∧
        event = filled order now price (c.fillQuantity security order u).1 := by
  cases price? with
  | none =>
    simp only [fillIf, Trial.give, Prod.mk.injEq, Except.ok.injEq] at h
    exact .inl h.1.symm
  | some price =>
    simp only [fillIf, fillAt, Prod.mk.injEq, Except.ok.injEq] at h
    exact .inr ⟨price, rfl, h.1.symm⟩

/-- The price at which the rules fill an order now, if the condition of its kind is met. -/
def price? (c : FillConfig α) (security : Snapshot α) (order : Order α) : Option α :=
  match order.kind with
  | .market => c.marketPrice? security order
  | .limit price => security.limitCross? order.isBuy price
  | .stopMarket stop => c.stopMarketPrice? security order stop
  | .stopLimit stop limit triggered =>
    if triggered then security.limitCross? order.isBuy limit
    else if security.reachesStop order.isBuy stop then triggerPrice? security order stop limit
    else none
  | .marketOnOpen => c.crossPrice? security order .opening security.opening
  | .marketOnClose => c.crossPrice? security order .closing security.close

/-- Whether the order has a stop that the snapshot reaches. -/
def reachesStopOf (security : Snapshot α) (order : Order α) : Bool :=
  order.kind.stopPrice?.any (security.reachesStop order.isBuy)

/-- Whatever the kind of the order, the rules fill it at the price of its condition, if that is met,
and mark its stop if that is reached. -/
theorem dispatch_eq_fillIf (c : FillConfig α) (security : Snapshot α) (order : Order α)
    (now : Instant) :
    c.fillModel.dispatch security order now =
      (c.fillIf security order now (c.price? security order)).andThen fun event =>
        Trial.give (event, order.kind.trigger (reachesStopOf security order)) := by
  cases hk : order.kind with
  | stopLimit stop limit triggered =>
    simp only [FillModel.dispatch, hk, fillModel, stopLimitRule, price?, reachesStopOf,
      OrderKind.stopPrice?, Option.any_some, OrderKind.trigger]
    cases triggered with
    | true =>
      simp only [keepingKind, hk, if_true, Bool.true_or]
    | false =>
      cases security.reachesStop order.isBuy stop with
      | true => rfl
      | false => rfl
  | _ =>
    simp only [FillModel.dispatch, hk, fillModel, price?, keepingKind, OrderKind.trigger]

/-- An answer of the rules fills at the price of the order's condition, or says that nothing
happened. Either way the kind is the order's, but for the mark of a stop that is reached. -/
theorem fillModel_answers_at (h : c.fillModel.Answers security order now event kind) :
    kind = order.kind.trigger (reachesStopOf security order) ∧
      (event = OrderEvent.unchanged order now ∨
        ∃ price u, c.price? security order = some price ∧
          event = filled order now price (c.fillQuantity security order u).1) := by
  obtain ⟨u, u', h⟩ := h
  rw [dispatch_eq_fillIf] at h
  obtain ⟨answered, u₁, hfill, hgive⟩ := Trial.andThen_ok h
  simp only [Trial.give, Prod.mk.injEq, Except.ok.injEq] at hgive
  obtain ⟨⟨rfl, rfl⟩, -⟩ := hgive
  refine ⟨rfl, ?_⟩
  rcases fillIf_cases hfill with hsame | ⟨price, hprice, hfilled⟩
  · exact .inl hsame
  · exact .inr ⟨price, u, hprice, hfilled⟩

theorem dispatch_eq (c : FillConfig α) (security : Snapshot α) (order : Order α) (now : Instant) :
    ∃ price? kind, c.fillModel.dispatch security order now =
      (c.fillIf security order now price?).andThen fun event => Trial.give (event, kind) :=
  ⟨_, _, c.dispatch_eq_fillIf security order now⟩

theorem fillModel_answers (h : c.fillModel.Answers security order now event kind) :
    c.Draws security order now event := by
  obtain ⟨-, hsame | ⟨price, u, -, hfilled⟩⟩ := fillModel_answers_at h
  · exact .inl hsame
  · exact .inr ⟨price, u, hfilled⟩

/-- The event of a quantity that does not count says that nothing happened; any other has the
quantity, and says whether what is left over counts. -/
theorem filled_cases (order : Order α) (now : Instant) (price quantity : α) :
    filled order now price quantity = OrderEvent.unchanged order now ∨
      (filled order now price quantity).fillQuantity = quantity ∧
        (filled order now price quantity).status =
          if Scalar.negligible (order.remaining - quantity) then .filled else .partiallyFilled := by
  unfold filled
  split
  · exact .inl rfl
  · exact .inr ⟨rfl, rfl⟩

theorem filled_orderId (price quantity : α) :
    (filled order now price quantity).orderId = order.id := by
  unfold filled; split <;> rfl

theorem filled_isUpdate (price quantity : α) :
    (filled order now price quantity).isUpdate = false := by
  unfold filled; split <;> rfl

end FillConfig

/-! ## Suites with the built-in rules -/

namespace FillModel

variable {σ τ : Type} {model : FillModel α σ} {c : FillConfig α}

/-- Every answer of the fill model is one that the built-in rules draw. -/
def FollowsRules (model : FillModel α σ) (c : FillConfig α) : Prop :=
  ∀ security order now event kind, model.Answers security order now event kind →
    c.Draws security order now event

theorem FollowsRules.keepsToOrder (h : model.FollowsRules c) : model.KeepsToOrder := by
  intro security order now event kind ha
  rcases h _ _ _ _ _ ha with rfl | ⟨price, u, rfl⟩
  · rfl
  · exact FillConfig.filled_orderId _ _

theorem FollowsRules.neverAcknowledges (h : model.FollowsRules c) : model.NeverAcknowledges := by
  intro security order now event kind ha
  rcases h _ _ _ _ _ ha with rfl | ⟨price, u, rfl⟩
  · rfl
  · exact FillConfig.filled_isUpdate _ _

omit [Scalar α] in
theorem keepingKind_onFirst (order : Order α) (t : Trial σ (OrderEvent α)) :
    (keepingKind order t.onFirst : Trial (σ × τ) _) = (keepingKind order t).onFirst := by
  funext m
  simp only [keepingKind, Trial.andThen, Trial.onFirst, Trial.give]
  rcases t m.1 with ⟨_ | event, first⟩ <;> rfl

omit [Scalar α] in
/-- A fill model that keeps the first of two memories answers as it does with its own. -/
theorem onFirst_dispatch (model : FillModel α σ) (security : Snapshot α) (order : Order α)
    (now : Instant) :
    (model.onFirst.dispatch security order now : Trial (σ × τ) _) =
      (model.dispatch security order now).onFirst := by
  cases hk : order.kind with
  | stopLimit => simp only [dispatch, hk, onFirst]
  | _ => simp only [dispatch, hk, onFirst, keepingKind_onFirst]

omit [Scalar α] in
/-- What a fill model answers beside another memory, it answers with its own alone. -/
theorem Answers.of_onFirst {security : Snapshot α} {order : Order α} {now : Instant}
    {event : OrderEvent α} {kind : OrderKind α}
    (h : (model.onFirst : FillModel α (σ × τ)).Answers security order now event kind) :
    model.Answers security order now event kind := by
  obtain ⟨m, m', ha⟩ := h
  rw [onFirst_dispatch, Trial.onFirst] at ha
  exact ⟨m.1, _, Prod.ext (Prod.mk.inj ha).1 rfl⟩

theorem FollowsRules.onFirst (h : model.FollowsRules c) :
    (model.onFirst : FillModel α (σ × τ)).FollowsRules c :=
  fun _ _ _ _ _ ha => h _ _ _ _ _ ha.of_onFirst

/-- Every answer of the fill model leaves the order its kind, but for the mark of a reached stop. -/
def MarksStops (model : FillModel α σ) : Prop :=
  ∀ security order now event kind, model.Answers security order now event kind →
    ∃ reached, kind = order.kind.trigger reached

omit [Scalar α] in
theorem MarksStops.onFirst (h : model.MarksStops) :
    (model.onFirst : FillModel α (σ × τ)).MarksStops :=
  fun _ _ _ _ _ ha => h _ _ _ _ _ ha.of_onFirst

end FillModel

theorem FillConfig.fillModel_followsRules (c : FillConfig α) : c.fillModel.FollowsRules c :=
  fun _ _ _ _ _ => fillModel_answers

theorem FillConfig.fillModel_marksStops (c : FillConfig α) : c.fillModel.MarksStops :=
  fun _ _ _ _ _ ha => ⟨_, (fillModel_answers_at ha).1⟩

/-- The built-in models of an account take their fills from the rules, whatever its fees. -/
theorem Config.models_followsRules (c : Config α) {overrides : Table String (FeePlan α)} :
    (c.models overrides).fill.FollowsRules c.fill := c.fill.fillModel_followsRules

theorem Config.models_marksStops (c : Config α) {overrides : Table String (FeePlan α)} :
    (c.models overrides).fill.MarksStops := c.fill.fillModel_marksStops

theorem Models.withFill_followsRules {τ : Type} (models : Models α τ) (c : FillConfig α) :
    (models.withFill c.fillModel).fill.FollowsRules c :=
  c.fillModel_followsRules.onFirst

end TradingDesk
