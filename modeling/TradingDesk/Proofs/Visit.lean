import TradingDesk.Pass
import TradingDesk.Proofs.Ledger
/- Proofs.Visit — everything that one look at an order can do.

   `Issues` says which events a pass may try to book about an order: one that
   closes it, or an answer of the fill model. `Visited` says what a look leaves
   behind, in four cases, and `visit_visited` that no look does anything else.
   What a pass or a run of the desk keeps is proved from these cases; nothing
   further on opens the gates of a pass. -/
namespace TradingDesk

variable {α σ : Type}

/-! ## What fill models promise -/

/-- Calls in turn succeed when each of them does, the second from the memory after the first. -/
theorem Trial.andThen_ok {β γ : Type} {t : Trial σ β} {g : β → Trial σ γ} {m m' : σ} {c : γ}
    (h : t.andThen g m = (.ok c, m')) : ∃ b m₁, t m = (.ok b, m₁) ∧ g b m₁ = (.ok c, m') := by
  unfold andThen at h
  split at h
  · next b m₁ ht => exact ⟨b, m₁, ht, h⟩
  · simp at h

namespace FillModel

/-- The fill model may answer with this event, and this kind for the order after it. -/
def Answers (model : FillModel α σ) (security : Snapshot α) (order : Order α) (now : Instant)
    (event : OrderEvent α) (kind : OrderKind α) : Prop :=
  ∃ memory memory', model.dispatch security order now memory = (.ok (event, kind), memory')

/-- No answer of the fill model acknowledges an update. -/
def NeverAcknowledges (model : FillModel α σ) : Prop :=
  ∀ security order now event kind, model.Answers security order now event kind →
    event.isUpdate = false

/-- Every answer of the fill model is about the order it was asked about. -/
def KeepsToOrder (model : FillModel α σ) : Prop :=
  ∀ security order now event kind, model.Answers security order now event kind →
    event.orderId = order.id

end FillModel

variable [Scalar α]

/-! ## What a pass may book -/

namespace Models

/-- The events that a pass may try to book about an order, each with the order's kind after it: one
that closes the order, or an answer of the fill model. -/
inductive Issues (models : Models α σ) (now : Instant) (order : Order α) :
    OrderEvent α → OrderKind α → Prop where
  | closing {status : OrderStatus} (message : String) (h : status = .invalid ∨ status = .canceled) :
      Issues models now order ((OrderEvent.of order now status).withMessage message) order.kind
  | answer {security : Snapshot α} {memory memory' : σ} {event : OrderEvent α}
      {kind : OrderKind α}
      (h : models.attemptFill security order now memory = (.ok (event, kind), memory')) :
      Issues models now order event kind

/-- An attempt that succeeds gives an answer of the fill model, a fill with the fee that the fee
model of its symbol names. -/
theorem attemptFill_cases {models : Models α σ} {security : Snapshot α} {order : Order α}
    {now : Instant} {memory memory' : σ} {event : OrderEvent α} {kind : OrderKind α}
    (h : models.attemptFill security order now memory = (.ok (event, kind), memory')) :
    ∃ answered, models.fill.Answers security order now answered kind ∧
      (answered.isFill = false ∧ event = answered ∨
        answered.isFill = true ∧ ∃ fee m m',
          (models.fees order.symbol).fee security order answered.fillPrice answered.fillQuantity m =
            (.ok fee, m') ∧ event = { answered with fee := fee }) := by
  obtain ⟨⟨answered, kind₁⟩, m₁, hd, h⟩ := Trial.andThen_ok h
  have ha : models.fill.Answers security order now answered kind₁ := ⟨memory, m₁, hd⟩
  simp only at h
  split at h
  · next hfill =>
    obtain ⟨fee, m₂, hfee, h⟩ := Trial.andThen_ok h
    obtain ⟨rfl, rfl⟩ : _ = event ∧ kind₁ = kind := by
      simpa [Trial.give] using (Prod.mk.inj h).1
    exact ⟨answered, ha, .inr ⟨hfill, fee, m₁, m₂, hfee, rfl⟩⟩
  · next hquiet =>
    obtain ⟨rfl, rfl⟩ : answered = event ∧ kind₁ = kind := by
      simpa [Trial.give] using (Prod.mk.inj h).1
    exact ⟨answered, ha, .inl ⟨Bool.not_eq_true _ ▸ hquiet, rfl⟩⟩

/-- An attempt that succeeds gives an answer of the fill model with a fee of its own. -/
theorem attemptFill_ok {models : Models α σ} {security : Snapshot α} {order : Order α}
    {now : Instant} {memory memory' : σ} {event : OrderEvent α} {kind : OrderKind α}
    (h : models.attemptFill security order now memory = (.ok (event, kind), memory')) :
    ∃ answered fee, models.fill.Answers security order now answered kind ∧
      event = { answered with fee := fee } := by
  obtain ⟨answered, ha, ⟨-, rfl⟩ | ⟨-, fee, -, -, -, rfl⟩⟩ := attemptFill_cases h
  · exact ⟨event, event.fee, ha, rfl⟩
  · exact ⟨answered, fee, ha, rfl⟩

theorem Issues.orderId {models : Models α σ} (own : models.fill.KeepsToOrder) {now : Instant}
    {order : Order α} {event : OrderEvent α} {kind : OrderKind α}
    (h : models.Issues now order event kind) : event.orderId = order.id := by
  cases h with
  | closing message h => rfl
  | answer h =>
    obtain ⟨answered, fee, ha, rfl⟩ := attemptFill_ok h
    exact own _ _ _ answered _ ha

theorem Issues.isUpdate {models : Models α σ} (plain : models.fill.NeverAcknowledges)
    {now : Instant} {order : Order α} {event : OrderEvent α} {kind : OrderKind α}
    (h : models.Issues now order event kind) : event.isUpdate = false := by
  cases h with
  | closing message h => rfl
  | answer h =>
    obtain ⟨answered, fee, ha, rfl⟩ := attemptFill_ok h
    exact plain _ _ _ answered _ ha

/-- The verdicts that a pass may come to about an order. -/
inductive MayJudge (models : Models α σ) (now : Instant) (order : Order α) : Verdict α → Prop where
  | hold : MayJudge models now order .hold
  | close {status : OrderStatus} (message : String) (h : status = .invalid ∨ status = .canceled) :
      MayJudge models now order (.close ((OrderEvent.of order now status).withMessage message))
  | fault (report : String) : MayJudge models now order (.fault report)
  | answer {event : OrderEvent α} {kind : OrderKind α} (h : models.Issues now order event kind) :
      MayJudge models now order (.answer event kind)

theorem judgeFill_mayJudge (models : Models α σ) (security : Snapshot α) (order : Order α)
    (now : Instant) (memory : σ) :
    models.MayJudge now order (models.judgeFill security order now memory).1 := by
  unfold judgeFill
  split
  · exact .fault _
  · next h => exact .answer (.answer h)

theorem judgeExecutable_mayJudge (models : Models α σ) (account : Portfolio α)
    (security : Snapshot α) (order : Order α) (now : Instant) (memory : σ) :
    models.MayJudge now order
      (models.judgeExecutable account security order now memory).1 := by
  unfold judgeExecutable
  split
  · exact .fault _
  · split
    · exact models.judgeFill_mayJudge security order now _
    · exact .close _ (.inl rfl)

theorem judge_mayJudge (models : Models α σ) (board : Board α) (account : Portfolio α)
    (order : Order α) (now : Instant) (memory : σ) :
    models.MayJudge now order (models.judge board account order now memory).1 := by
  unfold judge
  split
  · exact .hold
  · split
    · exact .close _ (.inl rfl)
    · split
      · exact .close _ (.inr rfl)
      · split
        · exact .hold
        · exact models.judgeExecutable_mayJudge account _ order now _

end Models

/-! ## What a look leaves behind -/

theorem OrderStatus.allows_closing {s t : OrderStatus} (hs : s.isTerminal = false)
    (ht : t = .invalid ∨ t = .canceled) : s.allows t = true := by
  rcases ht with rfl | rfl <;> cases s <;> first | rfl | cases hs

theorem OrderStatus.allows_filling {s t : OrderStatus} (hs : s.isTerminal = false)
    (ht : t = .filled ∨ t = .partiallyFilled) : s.allows t = true := by
  rcases ht with rfl | rfl <;> cases s <;> first | rfl | cases hs

namespace Floor

/-- What a look at an id leaves behind on the floor, and whether the id needs another look. -/
inductive Visited (models : Models α σ) (now : Instant) (id : OrderId) (f f' : Floor α σ) :
    Bool → Prop where
  /-- There is no open order under the id. -/
  | stale (hs : ∀ order, f.ledger.get? id = some order → order.status.isTerminal = true)
      (hl : f'.ledger = f.ledger.dropPending id) (ha : f'.account = f.account)
      (hg : f'.log = f.log) : Visited models now id f f' false
  /-- The order stays as it is. -/
  | held (hl : f'.ledger = f.ledger) (ha : f'.account = f.account) (hg : f'.log = f.log) :
      Visited models now id f f' true
  /-- An event was issued but not booked; what it says of the order's kind stands. -/
  | rekinded {order : Order α} {event : OrderEvent α} {kind : OrderKind α}
      (hs : f.ledger.get? id = some order) (ho : order.status.isTerminal = false)
      (hi : models.Issues now order event kind) (hl : f'.ledger = f.ledger.setKind id kind)
      (ha : f'.account = f.account) (hg : f'.log = f.log) : Visited models now id f f' true
  /-- An event was booked and published. -/
  | booked {order : Order α} {event : OrderEvent α} {kind : OrderKind α}
      (hs : f.ledger.get? id = some order) (ho : order.status.isTerminal = false)
      (hi : models.Issues now order event kind)
      (hl : (f.ledger.setKind id kind).record? event = some f'.ledger)
      (ha : f'.account = f.account.applyFill event) (hg : f'.log = f.log ++ [event]) :
      Visited models now id f f' (!event.status.isTerminal)

variable {models : Models α σ} {now : Instant} {id : OrderId} {f : Floor α σ}

/-- Publishing reaches the account and the log, and nothing else. -/
theorem publish_eq (f : Floor α σ) (event : OrderEvent α) :
    f.publish event =
      { f with account := f.account.applyFill event, log := f.log ++ [event] } := rfl

theorem commit_of_some {event : OrderEvent α} {l : Ledger α}
    (h : f.ledger.record? event = some l) :
    f.commit event = ({ f with ledger := l }.publish event, true) := by
  rw [commit, h]

theorem commit_of_none {event : OrderEvent α} (h : f.ledger.record? event = none) :
    f.commit event = (f, false) := by
  rw [commit, h]

/-- An order that is closed leaves the floor by a booked event. -/
theorem visited_close {order : Order α} {status : OrderStatus} (hid : order.id = id)
    (hs : f.ledger.get? id = some order) (ho : order.status.isTerminal = false)
    (ht : status = .invalid ∨ status = .canceled) (message : String) (memory : σ)
    (reports : List (OrderId × String)) :
    Visited models now id f
      ({ f with memory := memory, reports := reports }.commit
        ((OrderEvent.of order now status).withMessage message)).1 false := by
  have hs' : f.ledger.get? order.id = some order := hid ▸ hs
  obtain ⟨l, hl, -⟩ := Ledger.record?_of_allows
    (e := (OrderEvent.of order now status).withMessage message) hs'
    (OrderStatus.allows_closing ho ht)
  have hterm : (!status.isTerminal) = false := by rcases ht with rfl | rfl <;> rfl
  -- such an event comes with the order's own kind, which changes nothing
  have hk : f.ledger.setKind id order.kind = f.ledger := Ledger.setKind_self hs
  rw [commit_of_some (f := { f with memory := memory, reports := reports }) hl, ← hterm]
  exact .booked hs ho (.closing message ht) (by rw [hk]; exact hl) rfl rfl

/-- An answer of the fill model leaves at most the order's kind and a booked event. -/
theorem visited_answer {order : Order α} {event : OrderEvent α} {kind : OrderKind α}
    (hid : order.id = id) (hs : f.ledger.get? id = some order)
    (ho : order.status.isTerminal = false) (hi : models.Issues now order event kind)
    (memory : σ) :
    Visited models now id f
      ({ f with memory := memory }.settle order now (.answer event kind)).1
      ({ f with memory := memory }.settle order now (.answer event kind)).2 := by
  subst hid
  simp only [settle]
  split
  · exact .rekinded hs ho hi rfl rfl rfl
  · cases hr : (f.ledger.setKind order.id kind).record? event with
    | none =>
      rw [commit_of_none (f := ⟨f.ledger.setKind order.id kind, _, _, _, _⟩) hr]
      exact .rekinded hs ho hi rfl rfl rfl
    | some l =>
      rw [commit_of_some (f := ⟨f.ledger.setKind order.id kind, _, _, _, _⟩) hr]
      exact .booked hs ho hi hr rfl rfl

theorem visit_visited (models : Models α σ) (board : Board α) (now : Instant) (f : Floor α σ)
    (id : OrderId) (hf : f.ledger.WellFiled) :
    Visited models now id f (f.visit models board now id).1 (f.visit models board now id).2 := by
  unfold visit
  split
  · next hn =>
    refine .stale (fun order hs => ?_) rfl rfl rfl
    rw [hn] at hs
    cases hs
  · next order hs =>
    split
    · next ht =>
      refine .stale (fun o ho => ?_) rfl rfl rfl
      rwa [← Option.some.inj (hs.symm.trans ho)]
    · next ht =>
      have ho : order.status.isTerminal = false := Bool.not_eq_true _ ▸ ht
      have hid : order.id = id := hf id order hs
      have hj := models.judge_mayJudge board f.account order now f.memory
      revert hj
      obtain ⟨verdict, memory⟩ := models.judge board f.account order now f.memory
      intro hj
      cases hj with
      | hold => exact .held rfl rfl rfl
      | close message h => exact visited_close hid hs ho h message memory f.reports
      | fault report => exact visited_close hid hs ho (.inl rfl) report memory _
      | answer h => exact visited_answer hid hs ho h memory

end Floor

end TradingDesk
