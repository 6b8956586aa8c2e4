import TradingDesk.Proofs.Lifecycle
/- Proofs.Journal — the log of events as a journal of the desk.

   The ledger and the account can be read off the log. The last status reported
   of an accepted order is the stored one; what its events filled adds up to its
   fill progress, where addition is exact; and the account is the one that a
   fresh portfolio reaches when it is fed the log, as long as nothing is marked
   in between. -/
namespace TradingDesk

variable {α σ : Type} [Scalar α]

/-! ## Sums of fills -/

/-- Addition loses nothing: it associates, and zero is neutral. -/
structure Scalar.AddsExactly (α : Type) [Scalar α] : Prop where
  assoc : ∀ x y z : α, x + y + z = x + (y + z)
  add_zero : ∀ x : α, x + 0 = x
  zero_add : ∀ x : α, 0 + x = x

theorem Scalar.addsExactly_rat : Scalar.AddsExactly Rat where
  assoc := Rat.add_assoc
  add_zero := Rat.add_zero
  zero_add := Rat.zero_add

/-- What events filled in all. -/
def totalFilled (events : List (OrderEvent α)) : α := (events.map OrderEvent.fillQuantity).sum

theorem totalFilled_concat (exact : Scalar.AddsExactly α) (events : List (OrderEvent α))
    (e : OrderEvent α) : totalFilled (events ++ [e]) = totalFilled events + e.fillQuantity := by
  induction events with
  | nil =>
    simp only [totalFilled, List.nil_append, List.map_cons, List.map_nil, List.sum_cons,
      List.sum_nil]
    rw [exact.add_zero, exact.zero_add]
  | cons first rest ih =>
    simp only [totalFilled, List.cons_append, List.map_cons, List.sum_cons] at ih ⊢
    rw [ih, exact.assoc]

/-- An event without a fill adds nothing. -/
theorem totalFilled_concat_zero (exact : Scalar.AddsExactly α) (events : List (OrderEvent α))
    {e : OrderEvent α} (he : e.fillQuantity = 0) :
    totalFilled (events ++ [e]) = totalFilled events := by
  rw [totalFilled_concat exact, he, exact.add_zero]

/-! ## Fill progress -/

namespace Docket

variable {models : Models α σ} {id : OrderId} {k k' : Docket α} {base : α}

/-- The order is stored, and its fill progress is `base` and what its events filled. -/
def Balanced (base : α) (k : Docket α) : Prop :=
  ∃ o, k.order = some o ∧ o.filled = base + totalFilled k.events

theorem Turn.balanced (exact : Scalar.AddsExactly α) (h : Turn models id k k')
    (hk : k.Balanced base) : k'.Balanced base := by
  obtain ⟨o, ho, hb⟩ := hk
  cases h with
  | place => cases ho
  | @update stored events request time hv =>
    cases ho
    -- an acknowledgement fills nothing, and an update leaves the progress alone
    refine ⟨_, rfl, ?_⟩
    rw [totalFilled_concat_zero exact _ rfl, ← hb]
    exact Order.applyUpdate_filled _ _
  | cancel time =>
    cases ho
    refine ⟨_, rfl, ?_⟩
    rw [totalFilled_concat_zero exact _ rfl, ← hb]
  | rekind hopen hi =>
    cases ho
    exact ⟨_, rfl, hb⟩
  | @book stored asked pending events now event issued kind ha hi hid hkind =>
    cases ho
    refine ⟨_, rfl, ?_⟩
    rw [totalFilled_concat exact, ← exact.assoc, ← hb]
    rfl
  | drop hdone => exact ⟨o, ho, hb⟩

theorem balanced_of_turns (exact : Scalar.AddsExactly α)
    (h : Relation.ReflTransGen (Turn models id) k k') (hk : k.Balanced base) :
    k'.Balanced base := by
  induction h with
  | refl => exact hk
  | tail _ hturn ih => exact hturn.balanced exact ih

/-- A stored order stays stored. -/
theorem Turn.isSome_order (h : Turn models id k k') (hk : k.order.isSome = true) :
    k'.order.isSome = true := by
  cases h with
  | place => rfl
  | update => rfl
  | cancel => rfl
  | rekind => rfl
  | book => rfl
  | drop => exact hk

theorem isSome_order_of_turns (h : Relation.ReflTransGen (Turn models id) k k')
    (hk : k.order.isSome = true) : k'.order.isSome = true := by
  induction h with
  | refl => exact hk
  | tail _ hturn ih => exact hturn.isSome_order ih

end Docket

/-! ## The account -/

/-- The account is what a portfolio becomes when it is fed the log. -/
def Floor.Follows (start : Portfolio α) (f : Floor α σ) : Prop :=
  f.account = f.log.foldl Portfolio.applyFill start

namespace Floor

variable {models : Models α σ} {board : Board α} {now : Instant} {id : OrderId}
  {f f' : Floor α σ} {needed : Bool} {start : Portfolio α}

theorem follows_publish (h : f.Follows start) (e : OrderEvent α) :
    (f.publish e).Follows start := by
  rw [Follows] at h
  rw [Follows, publish_eq, List.foldl_append, ← h]
  rfl

theorem Visited.follows (h : Visited models now id f f' needed) (hf : f.Follows start) :
    f'.Follows start := by
  rw [Follows] at hf ⊢
  cases h with
  | stale hs hl ha hg => rw [ha, hg, hf]
  | held hl ha hg => rw [ha, hg, hf]
  | rekinded hs ho hi hl ha hg => rw [ha, hg, hf]
  | booked hs ho hi hl ha hg => rw [ha, hg, hf, List.foldl_append]; rfl

theorem visitAll_follows (ids : List OrderId) (hl : f.ledger.WellFiled) (hf : f.Follows start) :
    (f.visitAll models board now ids).1.Follows start :=
  visitAll_keeps (P := fun g => g.Follows start)
    (fun _ _ _ _ hv _ hg => hv.follows hg) ids hl hf

end Floor

namespace Desk

variable {d : Desk α σ} {start : Portfolio α}

theorem Stepped.follows {models : Models α σ} {a : Action α} {f : Floor α σ}
    (h : Stepped models d a f) (hl : d.ledger.WellFiled) (hd : d.Follows start)
    (ha : ∀ symbol price, a ≠ .mark symbol price) : f.Follows start := by
  cases h with
  | idle => exact hd
  | @filed _ l _ _ _ event hr ho he ht =>
    exact Floor.follows_publish (f := { d.toFloor with ledger := l }) hd event
  | unmarked hn => exact hd
  | passed => exact Floor.visitAll_follows _ hl hd
  | marked => exact absurd rfl (ha _ _)

theorem run_follows (models : Models α σ) (hl : d.ledger.WellFiled) (h : d.Follows start)
    {actions : List (Action α)} (ha : ∀ a ∈ actions, ∀ symbol price, a ≠ .mark symbol price) :
    (d.run models actions).Follows start :=
  run_keeps (P := fun e => e.Follows start)
    (fun _ a hmem he hf => (step_stepped models he a).follows he hf (ha a hmem)) hl h

/-! ## Whole runs -/

/-- An id with events has its order stored. -/
theorem run_stored_of_mem_log (models : Models α σ) (account : Portfolio α) (memory : σ)
    (actions : List (Action α)) {e : OrderEvent α}
    (he : e ∈ ((opening account memory).run models actions).log) :
    ∃ o, ((opening account memory).run models actions).order? e.orderId = some o := by
  have hsound := run_sound models account memory actions e.orderId
  cases hs : ((opening account memory).run models actions).order? e.orderId with
  | some o => exact ⟨o, rfl⟩
  | none =>
    have hnil : eventsOf ((opening account memory).run models actions).log e.orderId = [] :=
      (hsound.absent hs).2
    have hmem : e ∈ eventsOf ((opening account memory).run models actions).log e.orderId :=
      List.mem_filter.mpr ⟨he, beq_self_eq_true _⟩
    rw [hnil] at hmem
    cases hmem

/-- The log is a journal of the desk. The stored status of an accepted order is the last one
reported of it, and its fill progress is what it had when placed and what its events filled; nothing
is reported of an order that is not stored; and without marks the account is a fresh one that is fed
the log. -/
theorem run_journal (models : Models α σ) (plain : models.fill.NeverAcknowledges)
    (currency : String) (cash : α) (memory : σ) (actions : List (Action α)) :
    let start := Portfolio.ofCash currency cash
    let d := (opening start memory).run models actions
    (∀ request, Accepts models (opening start memory) actions request →
      ∃ stored, d.order? request.id = some stored ∧
        (∃ e, (statusEvents (eventsOf d.log request.id)).getLast? = some e ∧
          e.status = stored.status) ∧
        (Scalar.AddsExactly α →
          stored.filled = request.filled + totalFilled (eventsOf d.log request.id))) ∧
    (∀ e ∈ d.log, ∃ stored, d.order? e.orderId = some stored) ∧
    ((∀ a ∈ actions, ∀ symbol price, a ≠ .mark symbol price) →
      d.account = d.log.foldl Portfolio.applyFill start) := by
  intro start d
  refine ⟨?_, ?_, ?_⟩
  · intro request haccepts
    obtain ⟨time, hturns⟩ := run_turns_of_accepted haccepts
    obtain ⟨stored, hs⟩ :=
      Option.isSome_iff_exists.mp (Docket.isSome_order_of_turns hturns rfl)
    refine ⟨stored, hs, ?_, ?_⟩
    · exact (run_told models plain start memory actions request.id stored hs).last
    · intro exact
      have hplaced : Docket.Balanced request.filled
          ⟨some (filedOrder request), true,
            [OrderEvent.of (filedOrder request) time .submitted]⟩ := by
        refine ⟨filedOrder request, rfl, ?_⟩
        have hnone := totalFilled_concat_zero exact [] (e := OrderEvent.of (filedOrder request) time
          .submitted) rfl
        rw [List.nil_append] at hnone
        rw [filedOrder_filled, hnone]
        exact (exact.add_zero _).symm
      obtain ⟨o, ho, hb⟩ := Docket.balanced_of_turns exact hturns hplaced
      obtain rfl := Option.some.inj (hs.symm.trans ho)
      exact hb
  · exact fun e he => run_stored_of_mem_log models start memory actions he
  · exact fun ha => run_follows models (opening_wellFiled start memory) rfl ha

/-- An order that is cut short by the volume of a bar and then canceled, and what is read off the
log of it. -/
theorem run_journal_of_partial_fill :
    let c : Config Rat := { Config.default with fill := ⟨0, 1 / 100, some (1 / 2)⟩ }
    let models := c.models Table.empty
    let start : Portfolio Rat := Portfolio.ofCash "USD" 5000
    let buy : Order Rat :=
      { id := 7, symbol := "SPY", quantity := 10, kind := .market, time := ⟨0⟩, filled := 1 }
    let actions := [.showSnapshot (Snapshot.ofBar "SPY" (Bar.flat ⟨60⟩ 100 12)), .place buy,
      .scan ⟨60⟩, .cancel buy]
    let d := (opening start Table.empty).run models actions
    models.fill.NeverAcknowledges ∧
      d.log.map (fun e => (e.status, e.fillQuantity)) =
        [(.submitted, 0), (.partiallyFilled, 6), (.canceled, 0)] ∧
      (∃ stored, d.order? 7 = some stored ∧ stored.filled = 1 + totalFilled (eventsOf d.log 7)) ∧
      d.account = d.log.foldl Portfolio.applyFill start := by
  intro c models start buy actions d
  have plain : models.fill.NeverAcknowledges := c.models_followsRules.neverAcknowledges
  have h := run_journal models plain "USD" 5000 Table.empty actions
  have haccepts : Accepts models (opening start Table.empty) actions buy :=
    ⟨[.showSnapshot (Snapshot.ofBar "SPY" (Bar.flat ⟨60⟩ 100 12))], [.scan ⟨60⟩, .cancel buy],
      rfl, by decide +kernel⟩
  obtain ⟨stored, hs, -, hfilled⟩ := h.1 buy haccepts
  refine ⟨plain, by decide +kernel, ⟨stored, hs, hfilled Scalar.addsExactly_rat⟩, h.2.2 ?_⟩
  intro a ha symbol price
  simp only [actions, List.mem_cons, List.not_mem_nil, or_false] at ha
  rcases ha with rfl | rfl | rfl | rfl <;> exact nofun

end Desk

end TradingDesk
