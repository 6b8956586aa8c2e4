import Mathlib.Algebra.Order.Field.Rat
import Mathlib.Data.List.Infix
import TradingDesk.Proofs.Journal
import TradingDesk.Proofs.Position
import TradingDesk.Proofs.Rules
/- Proofs.Reconciled — the ledger and the account agree on every symbol.

   Two books count the fills of a symbol: the ledger in the progress of its orders,
   the account in its position. Both follow the log. What the orders of a symbol
   have filled is what the events of the symbol filled (`run_filledOf`), because
   each event is booked on an order of its own symbol; and the account holds just
   that (`run_holds`), because the built-in rules fill nothing that is too small to
   count and the account drops only what is too small.

   The account does drop a position that is too small to count without being zero,
   and the ledger does not, so the two agree on runs that never leave such a net
   quantity behind, not even between two events of one pass (`NeverDust`). -/
namespace TradingDesk

/-! ## What the orders of a symbol have filled -/

variable {α σ : Type}

/-- What the stored orders of a symbol have filled in all. -/
def Ledger.filledOf [Scalar α] (l : Ledger α) (symbol : String) : α :=
  ((l.orders.values.filter fun o => o.symbol == symbol).map Order.filled).sum

/-- What an order has filled of a symbol. -/
def Order.filledOn (symbol : String) (o : Order Rat) : Rat :=
  if o.symbol = symbol then o.filled else 0

namespace Ledger

variable {l l' : Ledger Rat} {id : OrderId} {order stored : Order Rat} {pending : Bool}

theorem filledOf_eq_sum (l : Ledger Rat) (symbol : String) :
    l.filledOf symbol = (l.orders.values.map (Order.filledOn symbol)).sum := by
  unfold filledOf
  induction l.orders.values with
  | nil => rfl
  | cons o rest ih =>
    by_cases ho : o.symbol = symbol
    · simp [Order.filledOn, ho, ih]
    · simp [Order.filledOn, ho, ih]

namespace Refiled

theorem orders_eq (h : Refiled l l' id order pending) : l'.orders = l.orders.insert id order := by
  apply Table.ext_get?
  intro j
  rw [orders_insert]
  exact h.get? j

/-- Filing an order under an id that is taken changes the sums by what the order changes. -/
theorem filledOf_of_some (h : Refiled l l' id order pending) (hs : l.get? id = some stored)
    (symbol : String) :
    l'.filledOf symbol =
      l.filledOf symbol + (order.filledOn symbol - stored.filledOn symbol) := by
  have hsum := l.orders.sum_insert id order (Order.filledOn symbol)
  rw [show l.orders.get? id = some stored from hs, Option.map_some, Option.getD_some] at hsum
  rw [filledOf_eq_sum, filledOf_eq_sum, h.orders_eq]
  linarith

theorem filledOf_of_none (h : Refiled l l' id order pending) (hn : l.get? id = none)
    (symbol : String) : l'.filledOf symbol = l.filledOf symbol + order.filledOn symbol := by
  have hsum := l.orders.sum_insert id order (Order.filledOn symbol)
  rw [show l.orders.get? id = none from hn, Option.map_none, Option.getD_none, add_zero] at hsum
  rw [filledOf_eq_sum, filledOf_eq_sum, h.orders_eq]
  exact hsum

/-- An order that is filed anew with its symbol and progress as they were leaves the sums alone. -/
theorem filledOf_of_same (h : Refiled l l' id order pending) (hs : l.get? id = some stored)
    (hsymbol : order.symbol = stored.symbol) (hfilled : order.filled = stored.filled)
    (symbol : String) : l'.filledOf symbol = l.filledOf symbol := by
  have hsame : order.filledOn symbol = stored.filledOn symbol := by
    rw [Order.filledOn, Order.filledOn, hsymbol, hfilled]
  rw [h.filledOf_of_some hs, hsame, sub_self, add_zero]

end Refiled

end Ledger

/-! ## What events filled of a symbol -/

/-- What events filled of a symbol in all. -/
def netFilled [Scalar α] (events : List (OrderEvent α)) (symbol : String) : α :=
  totalFilled (events.filter fun e => e.symbol == symbol)

theorem netFilled_concat (events : List (OrderEvent Rat)) (e : OrderEvent Rat) (symbol : String) :
    netFilled (events ++ [e]) symbol =
      netFilled events symbol + if symbol = e.symbol then e.fillQuantity else 0 := by
  unfold netFilled
  rw [List.filter_append]
  by_cases hs : symbol = e.symbol
  · rw [if_pos hs]
    have hlast : [e].filter (fun e => e.symbol == symbol) = [e] := by simp [hs]
    rw [hlast, totalFilled_concat Scalar.addsExactly_rat]
  · rw [if_neg hs]
    have hlast : [e].filter (fun e => e.symbol == symbol) = [] := by
      simp [Ne.symm hs]
    rw [hlast, List.append_nil, add_zero]

theorem netFilled_concat_zero (events : List (OrderEvent Rat)) {e : OrderEvent Rat}
    (he : e.fillQuantity = 0) (symbol : String) :
    netFilled (events ++ [e]) symbol = netFilled events symbol := by
  rw [netFilled_concat, he, ite_self, add_zero]

/-- After none of the events is a symbol left with a net quantity that is not zero and too small to
count. -/
def NeverDust (events : List (OrderEvent Rat)) : Prop :=
  ∀ earlier, earlier <+: events → ∀ symbol,
    netFilled earlier symbol = 0 ∨ Scalar.tolerance ≤ |netFilled earlier symbol|

theorem NeverDust.of_prefix {events earlier : List (OrderEvent Rat)} (h : NeverDust events)
    (hp : earlier <+: events) : NeverDust earlier :=
  fun first hfirst => h first (hfirst.trans hp)

/-- A symbol without events has nothing net, so the events' own symbols and the moments after an
event are all there is to look at. -/
theorem neverDust_iff {events : List (OrderEvent Rat)} :
    NeverDust events ↔ ∀ earlier ∈ events.inits, ∀ e ∈ earlier,
      netFilled earlier e.symbol = 0 ∨ Scalar.tolerance ≤ |netFilled earlier e.symbol| := by
  constructor
  · intro h earlier hearlier e _
    exact h earlier (List.mem_inits _ _ |>.mp hearlier) e.symbol
  · intro h earlier hearlier symbol
    by_cases hs : ∃ e ∈ earlier, e.symbol = symbol
    · obtain ⟨e, he, rfl⟩ := hs
      exact h earlier (List.mem_inits _ _ |>.mpr hearlier) e he
    · have hnone : earlier.filter (fun e => e.symbol == symbol) = [] := by
        rw [List.filter_eq_nil_iff]
        intro e he hsymbol
        exact hs ⟨e, he, beq_iff_eq.mp hsymbol⟩
      left
      rw [netFilled, hnone]
      rfl

instance (events : List (OrderEvent Rat)) : Decidable (NeverDust events) :=
  decidable_of_iff _ neverDust_iff.symm

/-! ## What a pass issues under the built-in rules -/

namespace FillConfig

variable {c : FillConfig Rat} {security : Snapshot Rat} {order : Order Rat} {now : Instant}
  {event : OrderEvent Rat}

/-- What the rules draw is on the symbol of the order, and fills nothing or a quantity that
counts. -/
theorem Draws.symbol_and_counts (h : c.Draws security order now event) :
    event.symbol = order.symbol ∧ (event.fillQuantity = 0 ∨ event.isFill = true) := by
  rcases h with rfl | ⟨price, u, rfl⟩
  · exact ⟨rfl, .inl rfl⟩
  · unfold filled
    split
    · exact ⟨rfl, .inl rfl⟩
    · next hn =>
      refine ⟨rfl, .inr ?_⟩
      rw [Scalar.negligible, decide_eq_true_iff, not_lt] at hn
      exact decide_eq_true hn

end FillConfig

section Issued

variable {models : Models Rat σ} {c : FillConfig Rat} {now : Instant} {order : Order Rat}
  {event : OrderEvent Rat} {kind : OrderKind Rat}

theorem Models.Issues.symbol_and_counts (rules : models.fill.FollowsRules c)
    (h : models.Issues now order event kind) :
    event.symbol = order.symbol ∧ (event.fillQuantity = 0 ∨ event.isFill = true) := by
  cases h with
  | closing message hs => exact ⟨rfl, .inl rfl⟩
  | answer hattempt =>
    obtain ⟨answered, fee, ha, rfl⟩ := Models.attemptFill_ok hattempt
    exact (rules _ _ _ answered _ ha).symbol_and_counts

/-- Every event that a turn of an id publishes fills nothing or a quantity that counts. -/
theorem Docket.Turn.counts {id : OrderId} {k k' : Docket Rat} (rules : models.fill.FollowsRules c)
    (h : Turn models id k k') (he : k'.events = k.events ++ [event]) :
    event.fillQuantity = 0 ∨ event.isFill = true := by
  cases h with
  | place request time hid hs hv =>
    rw [← List.head_eq_of_cons_eq (List.append_cancel_left he)]
    exact .inl rfl
  | update request time hv =>
    rw [← List.head_eq_of_cons_eq (List.append_cancel_left he)]
    exact .inl rfl
  | cancel time =>
    rw [← List.head_eq_of_cons_eq (List.append_cancel_left he)]
    exact .inl rfl
  | rekind ho hi => simp at he
  | book kind ha hi hid hk =>
    rw [← List.head_eq_of_cons_eq (List.append_cancel_left he)]
    exact (hi.symbol_and_counts rules).2
  | drop hdone => simp at he

end Issued

/-! ## The ledger follows the log -/

/-- What the orders of each symbol have filled is what its events filled. -/
def Floor.Tallied (f : Floor Rat σ) : Prop :=
  ∀ symbol, f.ledger.filledOf symbol = netFilled f.log symbol

namespace Floor

variable {models : Models Rat σ} {c : FillConfig Rat} {now : Instant} {id : OrderId}
  {f f' : Floor Rat σ} {needed : Bool}

theorem Visited.tallied (rules : models.fill.FollowsRules c)
    (h : Visited models now id f f' needed) (hf : f.ledger.WellFiled) (ht : f.Tallied) :
    f'.Tallied := by
  intro symbol
  have ht := ht symbol
  cases h with
  | stale hs hl ha hg =>
    rw [hl, hg]
    exact ht
  | held hl ha hg =>
    rw [hl, hg]
    exact ht
  | @rekinded order event kind hs ho hi hl ha hg =>
    have hr := Ledger.setKind_refiled kind hs
    rw [hl, hg, hr.filledOf_of_same hs rfl rfl]
    exact ht
  | @booked order event kind hs ho hi hl ha hg =>
    have hid : order.id = id := hf id order hs
    have he : event.orderId = id := (hi.orderId rules.keepsToOrder).trans hid
    have hsymbol := (hi.symbol_and_counts rules).1
    have hr := Ledger.setKind_record?_refiled hs he hl
    rw [hr.filledOf_of_some hs, hg, netFilled_concat, ht, hsymbol]
    -- the order has filled what the event filled, on the symbol that both have
    by_cases hs : symbol = order.symbol
    · simp only [Order.filledOn, Order.booked, Order.withKind, hs, if_true]
      linarith
    · simp only [Order.filledOn, Order.booked, Order.withKind, Ne.symm hs, if_neg hs, if_false]
      linarith

theorem visitAll_tallied {board : Board Rat} (rules : models.fill.FollowsRules c)
    (ids : List OrderId) (hf : f.ledger.WellFiled) (ht : f.Tallied) :
    (f.visitAll models board now ids).1.Tallied :=
  visitAll_keeps (P := Tallied) (fun _ _ _ _ hv hg h => hv.tallied rules hg h) ids hf ht

end Floor

namespace Desk

variable {models : Models Rat σ} {c : FillConfig Rat} {d : Desk Rat σ}

theorem opening_tallied (account : Portfolio Rat) (memory : σ) :
    (opening account memory).Tallied := fun _ => rfl

/-- An event without a fill leaves the sums as they are. -/
theorem tallied_filing {l : Ledger Rat} {event : OrderEvent Rat} (ht : d.Tallied)
    (he : event.fillQuantity = 0) (hl : ∀ symbol, l.filledOf symbol = d.ledger.filledOf symbol) :
    (d.filing l event).Tallied := by
  intro symbol
  show l.filledOf symbol = netFilled (d.log ++ [event]) symbol
  rw [netFilled_concat_zero _ he, hl, ht symbol]

theorem step_tallied (rules : models.fill.FollowsRules c) (hf : d.ledger.WellFiled)
    (ht : d.Tallied) (a : Action Rat)
    (hfresh : ∀ request, a = .place request → (d.place request).accepted = true →
      request.filled = 0) : (d.step models a).Tallied := by
  cases a with
  | place request =>
    cases h : d.accepts request with
    | false =>
      rw [step, place_of_not_accepts h]
      exact ht
    | true =>
      obtain ⟨l, hr, hp⟩ := place_of_accepts h
      obtain ⟨-, hn, -⟩ := accepts_iff.mp h
      have hzero : (filedOrder request).filled = 0 := by
        rw [filedOrder_filled]
        exact hfresh request rfl (place_accepted_iff.mpr h)
      rw [step, hp]
      apply tallied_filing (d := d) ht rfl
      intro symbol
      rw [hr.filledOf_of_none hn, Order.filledOn, hzero, ite_self, add_zero]
  | update request =>
    cases h : d.acceptsUpdate request with
    | false =>
      rw [step, update_of_not_accepts h]
      exact ht
    | true =>
      obtain ⟨stored, l, -, hs, -, hr, hu⟩ := update_of_accepts h
      rw [step, hu]
      exact tallied_filing (d := d) ht rfl
        (hr.filledOf_of_same hs (stored.applyUpdate_symbol _) (stored.applyUpdate_filled _))
  | cancel request =>
    rcases d.cancel_cases request with h | ⟨-, h⟩ | ⟨stored, hp, hs⟩
    · rw [step, h]
      exact ht
    · rw [step, h]
      exact ht
    · obtain ⟨l, hr, hc⟩ := cancel_of_pending hp hs
      rw [step, hc]
      exact tallied_filing (d := d) ht rfl (hr.filledOf_of_same hs rfl rfl)
  | scan now =>
    rw [step, scan]
    split
    · exact Floor.visitAll_tallied rules _ hf ht
    · exact ht
  | showSnapshot s => exact ht
  | untrack symbol => exact ht
  | mark symbol price => exact ht

/-- After every run, what the orders of a symbol have filled is what its events filled. -/
theorem run_filledOf {account : Portfolio Rat} {memory : σ} {actions : List (Action Rat)}
    (rules : models.fill.FollowsRules c)
    (hfresh : ∀ request, Accepts models (opening account memory) actions request →
      request.filled = 0) (symbol : String) :
    ((opening account memory).run models actions).ledger.filledOf symbol =
      netFilled ((opening account memory).run models actions).log symbol := by
  have ht : ((opening account memory).run models actions).Tallied := by
    refine run_induction (P := fun d => d.Tallied) (opening_tallied account memory) ?_
    intro earlier a later hactions ht
    have hf := run_wellFiled models (opening_wellFiled account memory) earlier
    refine step_tallied rules hf ht a ?_
    rintro request rfl haccepted
    exact hfresh request ⟨earlier, later, hactions, haccepted⟩
  exact ht symbol

end Desk

/-! ## The account follows the log -/

/-- The account holds what the events filled of each symbol, unless they left dust. -/
def Floor.Held (f : Floor Rat σ) : Prop := NeverDust f.log → f.account.Holds (netFilled f.log)

namespace Floor

variable {models : Models Rat σ} {c : FillConfig Rat} {now : Instant} {id : OrderId}
  {f f' : Floor Rat σ} {needed : Bool}

theorem held_publish (h : f.Held) {e : OrderEvent Rat}
    (he : e.fillQuantity = 0 ∨ e.isFill = true) : (f.publish e).Held := by
  intro hdust
  have hbefore : f.account.Holds (netFilled f.log) :=
    h (NeverDust.of_prefix hdust (List.prefix_append _ _))
  have hafter := hdust (f.log ++ [e]) List.prefix_rfl e.symbol
  by_cases hfill : e.isFill = true
  · exact hbefore.applyFill hfill (netFilled_concat f.log e) hafter
  · have hzero : e.fillQuantity = 0 := he.resolve_right hfill
    have hsame : netFilled (f.log ++ [e]) = netFilled f.log :=
      funext (netFilled_concat_zero f.log hzero)
    show (f.account.applyFill e).Holds (netFilled (f.log ++ [e]))
    rw [Portfolio.applyFill_of_not_fill (Bool.not_eq_true _ ▸ hfill), hsame]
    exact hbefore

theorem held_congr (h : f.Held) (ha : f'.account = f.account) (hg : f'.log = f.log) : f'.Held := by
  rw [Held, ha, hg]
  exact h

theorem Visited.held_account (rules : models.fill.FollowsRules c)
    (h : Visited models now id f f' needed) (hf : f.Held) : f'.Held := by
  cases h with
  | stale hs hl ha hg => exact held_congr hf ha hg
  | held hl ha hg => exact held_congr hf ha hg
  | rekinded hs ho hi hl ha hg => exact held_congr hf ha hg
  | @booked order event kind hs ho hi hl ha hg =>
    have hp : (f.publish event).Held := held_publish hf (hi.symbol_and_counts rules).2
    exact held_congr hp ha hg

end Floor

namespace Desk

variable {models : Models Rat σ} {c : FillConfig Rat} {d : Desk Rat σ}

theorem Stepped.held_account {a : Action Rat} {f : Floor Rat σ} (rules : models.fill.FollowsRules c)
    (h : Stepped models d a f) (hf : d.ledger.WellFiled) (hd : d.Held) : f.Held := by
  cases h with
  | idle => exact hd
  | @filed _ l id order pending event hr ho he ht =>
    exact Floor.held_publish (f := { d.toFloor with ledger := l }) hd (ht.counts rules rfl)
  | unmarked hn => exact Floor.held_congr hd rfl rfl
  | passed =>
    exact Floor.visitAll_keeps (P := Floor.Held)
      (fun _ _ _ _ hv _ h => hv.held_account rules h) _ hf hd
  | marked =>
    intro hdust
    exact (hd hdust).mark _ _

theorem run_holds (rules : models.fill.FollowsRules c) (currency : String) (cash : Rat) (memory : σ)
    (actions : List (Action Rat)) :
    ((opening (Portfolio.ofCash currency cash) memory).run models actions).Held :=
  run_keeps (P := fun d => d.Held)
    (fun _ a _ he h => (step_stepped models he a).held_account rules he h)
    (opening_wellFiled _ memory) fun _ => Portfolio.holds_ofCash currency cash

/-! ## Whole runs -/

/-- The ledger and the account reconcile. After every run of a desk with the built-in rules and a
fresh account, where the accepted orders were placed without a fill and no net quantity was left
that is too small to count and not zero, what the orders of a symbol have filled in all is what the
account holds of it, and the account lists the symbols of which that is not zero, each once. -/
theorem run_reconciled (c : FillConfig Rat) (models : Models Rat σ) (currency : String) (cash : Rat)
    (memory : Usage Rat × σ) (actions : List (Action Rat)) :
    let suite := models.withFill c.fillModel
    let start := opening (Portfolio.ofCash currency cash) memory
    let d := start.run suite actions
    (∀ request, Accepts suite start actions request → request.filled = 0) →
    NeverDust d.log →
    (∀ symbol, d.ledger.filledOf symbol = d.account.quantityHeld symbol) ∧
      (∀ symbol, symbol ∈ d.account.holdings.map Holding.symbol ↔
        d.ledger.filledOf symbol ≠ 0) ∧
      (d.account.holdings.map Holding.symbol).Nodup := by
  intro suite start d hfresh hdust
  have rules : suite.fill.FollowsRules c := models.withFill_followsRules c
  have hnet : ∀ symbol, d.ledger.filledOf symbol = netFilled d.log symbol :=
    run_filledOf rules hfresh
  have hholds : d.account.Holds (netFilled d.log) :=
    run_holds rules currency cash memory actions hdust
  refine ⟨fun symbol => ?_, fun symbol => ?_, d.account.holdings_nodup⟩
  · rw [hnet, hholds.quantityHeld]
  · rw [hnet]
    exact hholds.mem_holdings symbol

/-- A purchase that two bars fill, and a sale that takes what it bought through zero. -/
theorem run_reconciled_of_flip :
    let c : FillConfig Rat := ⟨0, 1 / 100, some (1 / 2)⟩
    let models : Models Rat (Usage Rat) := Config.default.models Table.empty
    let suite := models.withFill c.fillModel
    let start := opening (Portfolio.ofCash "USD" 5000) (Table.empty, Table.empty)
    let order (id : OrderId) (quantity : Rat) : Order Rat :=
      { id := id, symbol := "SPY", quantity := quantity, kind := .market, time := ⟨0⟩, filled := 0 }
    let bar (t : Int) (volume : Rat) : Action Rat :=
      .showSnapshot (Snapshot.ofBar "SPY" (Bar.flat ⟨t⟩ 100 volume))
    let actions := [bar 60 12, .place (order 1 10), .scan ⟨60⟩, bar 120 12, .place (order 2 (-14)),
      .scan ⟨120⟩, bar 180 40, .scan ⟨180⟩]
    let d := start.run suite actions
    (∀ request, Accepts suite start actions request → request.filled = 0) ∧ NeverDust d.log ∧
      d.log.map (fun e => (e.orderId, e.fillQuantity)) =
        [(1, 0), (1, 6), (2, 0), (1, 4), (2, -2), (2, -12)] ∧
      d.ledger.filledOf "SPY" = -4 ∧ d.account.quantityHeld "SPY" = -4 ∧
      "SPY" ∈ d.account.holdings.map Holding.symbol := by
  intro c models suite start order bar actions d
  have hfresh : ∀ request, Accepts suite start actions request → request.filled = 0 := by
    rintro request ⟨earlier, later, hactions, -⟩
    have hmem : Action.place request ∈ actions := by
      rw [hactions]
      simp
    simp only [actions, bar, List.mem_cons, List.not_mem_nil, or_false, reduceCtorEq, false_or,
      Action.place.injEq] at hmem
    rcases hmem with rfl | rfl <;> rfl
  have hdust : NeverDust d.log := by decide +kernel
  obtain ⟨hsum, hmem, -⟩ :=
    run_reconciled c models "USD" 5000 (Table.empty, Table.empty) actions hfresh hdust
  have hfilled : d.ledger.filledOf "SPY" = -4 := by decide +kernel
  refine ⟨hfresh, hdust, by decide +kernel, hfilled, ?_, ?_⟩
  · rw [← hsum "SPY"]
    exact hfilled
  · apply (hmem "SPY").mpr
    rw [hfilled]
    decide

end Desk

end TradingDesk
