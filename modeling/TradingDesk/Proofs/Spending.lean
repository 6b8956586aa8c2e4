import Mathlib.Algebra.Order.Field.Rat
import TradingDesk.Model.Scripted
import TradingDesk.Proofs.Allowance
import TradingDesk.Proofs.FillStage
import TradingDesk.Proofs.Reconciled
/- Proofs.Spending — what the allowance of a bar is spent on.

   The fill model draws on a bar before the fee of its answer is known. Where that
   fee faults the answer is discarded (`discard?`): no event tells of it and the
   order is closed, but what was drawn stays drawn. So a fault at the fill costs the
   bar a quantity that counts and fills nothing (`visit_of_fill_fault`).

   One look takes from a bar what it fills and what it discards (`visit_spent`), and
   so does any run, as long as a symbol shows one bar (`run_spent`). The allowance is
   spent on the emitted fills alone exactly if nothing was discarded
   (`run_spent_iff`). -/
namespace TradingDesk

variable {α σ τ : Type}

/-! ## Answers that are discarded -/

section Discards
variable [Scalar α]

/-- The answer of the fill model whose fee faults. -/
def Models.discardedFill? (models : Models α σ) (security : Snapshot α) (order : Order α)
    (now : Instant) (memory : σ) : Option (OrderEvent α) :=
  match models.fill.dispatch security order now memory with
  | (.error _, _) => none
  | (.ok (event, _), memory) =>
    if event.isFill then
      match (models.fees order.symbol).fee security order event.fillPrice event.fillQuantity
        memory with
      | (.error _, _) => some event
      | (.ok _, _) => none
    else none

/-- The answer of the fill model whose fee faults when an order is put to the models. -/
def Models.discardedAnswer? (models : Models α σ) (account : Portfolio α) (security : Snapshot α)
    (order : Order α) (now : Instant) (memory : σ) : Option (OrderEvent α) :=
  match models.checkPower account security order memory with
  | (.error _, _) => none
  | (.ok check, memory) =>
    if check.sufficient then models.discardedFill? security order now memory else none

/-- The answer of the fill model that a look at an open order discards. -/
def Models.discard? (models : Models α σ) (board : Board α) (account : Portfolio α)
    (order : Order α) (now : Instant) (memory : σ) : Option (OrderEvent α) :=
  (models.reach? board order now memory).bind fun (security, memory) =>
    models.discardedAnswer? account security order now memory

namespace Floor

/-- The answer of the fill model that a look at an id discards. -/
def discardAt? (models : Models α σ) (board : Board α) (now : Instant) (f : Floor α σ)
    (id : OrderId) : Option (OrderEvent α) :=
  match f.ledger.get? id with
  | none => none
  | some order =>
    if order.status.isTerminal then none
    else models.discard? board f.account order now f.memory

theorem discardAt?_of_open {models : Models α σ} {board : Board α} {now : Instant} {f : Floor α σ}
    {id : OrderId} {order : Order α} (hs : f.ledger.get? id = some order)
    (ho : order.status.isTerminal = false) :
    f.discardAt? models board now id = models.discard? board f.account order now f.memory := by
  simp [discardAt?, hs, ho]

/-- The answers that looks at a list of ids discard, in turn. -/
def discards (models : Models α σ) (board : Board α) (now : Instant) (f : Floor α σ) :
    List OrderId → List (OrderEvent α)
  | [] => []
  | id :: ids =>
    (f.discardAt? models board now id).toList ++
      discards models board now (f.visit models board now id).1 ids

end Floor

/-- The answers that an action discards. -/
def Desk.stepDiscards (models : Models α σ) (d : Desk α σ) : Action α → List (OrderEvent α)
  | .scan now =>
    if d.needsPass then d.toFloor.discards models d.board now d.ledger.pendingIds else []
  | _ => []

/-- The answers that a run discards. -/
def Desk.runDiscards (models : Models α σ) (d : Desk α σ) : List (Action α) → List (OrderEvent α)
  | [] => []
  | a :: actions => d.stepDiscards models a ++ runDiscards models (d.step models a) actions

end Discards

/-! ## What events fill of a symbol -/

/-- How much events fill of a symbol, over both sides. -/
def filledSizes (events : List (OrderEvent Rat)) (symbol : String) : Rat :=
  ((events.filter fun e => e.symbol == symbol).map fun e => |e.fillQuantity|).sum

section Sizes
variable {events : List (OrderEvent Rat)} {e : OrderEvent Rat} {symbol : String}

theorem filledSizes_append (events later : List (OrderEvent Rat)) (symbol : String) :
    filledSizes (events ++ later) symbol =
      filledSizes events symbol + filledSizes later symbol := by
  rw [filledSizes, List.filter_append, List.map_append, List.sum_append]
  rfl

theorem filledSizes_singleton (e : OrderEvent Rat) (symbol : String) :
    filledSizes [e] symbol = if e.symbol = symbol then |e.fillQuantity| else 0 := by
  unfold filledSizes
  by_cases hs : e.symbol = symbol <;> simp [hs]

theorem filledSizes_singleton_zero (he : e.fillQuantity = 0) (symbol : String) :
    filledSizes [e] symbol = 0 := by
  rw [filledSizes_singleton, he, abs_zero, ite_self]

theorem filledSizes_nonneg (events : List (OrderEvent Rat)) (symbol : String) :
    0 ≤ filledSizes events symbol := by
  apply List.sum_nonneg
  intro size hsize
  obtain ⟨e, -, rfl⟩ := List.mem_map.mp hsize
  exact abs_nonneg _

/-- Events that fill quantities that count fill nothing of a symbol only if none is on it. -/
theorem filledSizes_eq_zero_iff (hcount : ∀ e ∈ events, e.isFill = true) :
    filledSizes events symbol = 0 ↔ ∀ e ∈ events, e.symbol ≠ symbol := by
  induction events with
  | nil => simp [filledSizes]
  | cons e events ih =>
    have hrest := ih fun e he => hcount e (List.mem_cons_of_mem _ he)
    have hpos : 0 < |e.fillQuantity| :=
      Scalar.tolerance_pos.trans_le (OrderEvent.isFill_iff.mp (hcount e List.mem_cons_self))
    have hnonneg := filledSizes_nonneg events symbol
    rw [← List.singleton_append, filledSizes_append, filledSizes_singleton, List.forall_mem_append,
      List.forall_mem_singleton, ← hrest]
    by_cases hs : e.symbol = symbol
    · rw [if_pos hs]
      constructor
      · intro hsum
        linarith
      · intro h
        exact absurd hs h.1
    · rw [if_neg hs, zero_add]
      exact ⟨fun h => ⟨hs, h⟩, And.right⟩

end Sizes

/-! ## Boards that show one bar of a symbol -/

/-- The board has every security under its own symbol. -/
def Board.Posted (board : Board α) : Prop :=
  ∀ symbol security, board.get? symbol = some security → security.symbol = symbol

namespace Board.Posted

variable {board : Board α}

theorem post (h : board.Posted) (s : Snapshot α) : (board.post s).Posted := by
  intro k security hk
  by_cases hks : k = s.symbol
  · subst hks
    rw [Board.post, Table.get?_insert_self] at hk
    rw [← Option.some.inj hk]
  · rw [Board.post, Table.get?_insert_of_ne _ _ hks] at hk
    exact h k security hk

theorem erase (h : board.Posted) (untracked : String) :
    Posted (Table.erase board untracked) := by
  intro k security hk
  by_cases hku : k = untracked
  · rw [hku, Table.get?_erase_self] at hk
    cases hk
  · rw [Table.get?_erase_of_ne _ hku] at hk
    exact h k security hk

end Board.Posted

/-- Every security stands under its own symbol, and of one symbol the board shows no other bar than
the one that ends at a time. -/
structure Board.Shows (board : Board α) (symbol : String) (time : Instant) : Prop where
  posted : ∀ s security, board.get? s = some security → security.symbol = s
  bar : ∀ security, board.get? symbol = some security →
    ∃ bar, security.bar = some bar ∧ bar.time = time

/-- A snapshot of a symbol comes with the bar that ends at a time. -/
def Snapshot.Shows (s : Snapshot α) (symbol : String) (time : Instant) : Prop :=
  s.symbol = symbol → ∃ bar, s.bar = some bar ∧ bar.time = time

namespace Board.Shows

variable {board : Board α} {symbol : String} {time : Instant}

theorem post (h : board.Shows symbol time) {s : Snapshot α} (hs : s.Shows symbol time) :
    (board.post s).Shows symbol time where
  posted := Board.Posted.post h.posted s
  bar security hk := by
    by_cases hks : symbol = s.symbol
    · subst hks
      rw [Board.post, Table.get?_insert_self] at hk
      rw [← Option.some.inj hk]
      exact hs rfl
    · rw [Board.post, Table.get?_insert_of_ne _ _ hks] at hk
      exact h.bar security hk

theorem erase (h : board.Shows symbol time) (untracked : String) :
    Shows (Table.erase board untracked) symbol time where
  posted := Board.Posted.erase h.posted untracked
  bar security hk := by
    by_cases hku : symbol = untracked
    · rw [hku, Table.get?_erase_self] at hk
      cases hk
    · rw [Table.get?_erase_of_ne _ hku] at hk
      exact h.bar security hk

end Board.Shows

/-! ## What a look takes from a bar -/

/-- A fill model of its own leaves the memory of the other models alone, and they leave its. -/
theorem Models.withFill_leave [Scalar α] (models : Models α τ) (fill : FillModel α σ) :
    (models.withFill fill).Leave (Prod.fst : σ × τ → σ) where
  executable _ _ _ := rfl
  afford _ _ _ _ _ := rfl
  charge _ _ _ _ _ _ := rfl

/-- The verdicts on an order under the built-in rules, each with the answer that it discards and
with the allowances after it. -/
inductive Judged (c : FillConfig Rat) (share : Rat) (board : Board Rat) (order : Order Rat)
    (now : Instant) (u : Usage Rat) : Verdict Rat → Option (OrderEvent Rat) → Usage Rat → Prop where
  | hold : Judged c share board order now u .hold none u
  | close {status : OrderStatus} (message : String) : Judged c share board order now u
      (.close ((OrderEvent.of order now status).withMessage message)) none u
  | fault (report : String) : Judged c share board order now u (.fault report) none u
  /-- The rules answered, and the answer stands with its fee. -/
  | answer {security : Snapshot Rat} {event : OrderEvent Rat} {u' : Usage Rat} (fee : Rat)
      (kind : OrderKind Rat) (hb : board.get? order.symbol = some security)
      (hd : c.Draws security order now event) (hs : Spends share security u event u') :
      Judged c share board order now u (.answer { event with fee := fee } kind) none u'
  /-- The rules answered with a fill, and its fee faulted. -/
  | discard {security : Snapshot Rat} {event : OrderEvent Rat} {u' : Usage Rat} (report : String)
      (hb : board.get? order.symbol = some security) (hd : c.Draws security order now event)
      (hs : Spends share security u event u') (hfill : event.isFill = true) :
      Judged c share board order now u (.fault report) (some event) u'

namespace Models

variable {c : FillConfig Rat} {share : Rat} {models : Models Rat τ} {board : Board Rat}
  {account : Portfolio Rat} {security : Snapshot Rat} {order : Order Rat} {now : Instant}

/-- Among other models the rules answer as they do alone. -/
theorem withFill_dispatch_spends (hc : c.participation = some share) (models : Models Rat τ)
    (security : Snapshot Rat) (order : Order Rat) (now : Instant) (m : Usage Rat × τ) :
    ∃ event kind u', (models.withFill c.fillModel).fill.dispatch security order now m =
        (.ok (event, kind), (u', m.2)) ∧
      Spends share security m.1 event u' ∧ c.Draws security order now event := by
  obtain ⟨event, kind, u', hrules, hs⟩ := FillConfig.dispatch_spends hc security order now m.1
  refine ⟨event, kind, u', ?_, hs, FillConfig.fillModel_answers ⟨m.1, u', hrules⟩⟩
  rw [withFill, FillModel.onFirst_dispatch, Trial.onFirst, hrules]

theorem judgeFill_judged (hc : c.participation = some share)
    (hb : board.get? order.symbol = some security) (m : Usage Rat × τ) :
    Judged c share board order now m.1
      ((models.withFill c.fillModel).judgeFill security order now m).1
      ((models.withFill c.fillModel).discardedFill? security order now m)
      ((models.withFill c.fillModel).judgeFill security order now m).2.1 := by
  obtain ⟨event, kind, u', hdispatch, hs, hd⟩ :=
    withFill_dispatch_spends hc models security order now m
  have hfee := (models.withFill_leave c.fillModel).fee order.symbol security order event.fillPrice
    event.fillQuantity (u', m.2)
  simp only [judgeFill, discardedFill?, attemptFill, Trial.andThen, hdispatch]
  cases hfill : event.isFill with
  | false => exact .answer event.fee kind hb hd hs
  | true =>
    -- the fee leaves the allowances alone, whether it faults or not
    rcases hcharge : ((models.withFill c.fillModel).fees order.symbol).fee security order
      event.fillPrice event.fillQuantity (u', m.2) with ⟨fault | fee, m₂⟩
    · rw [hcharge] at hfee
      have hm₂ : m₂.1 = u' := hfee
      simp only [if_true, Trial.andThen, hcharge, hm₂]
      exact .discard _ hb hd hs hfill
    · rw [hcharge] at hfee
      have hm₂ : m₂.1 = u' := hfee
      simp only [if_true, Trial.andThen, Trial.give, hcharge, hm₂]
      exact .answer fee kind hb hd hs

theorem judgeExecutable_judged (hc : c.participation = some share)
    (hb : board.get? order.symbol = some security) (m : Usage Rat × τ) :
    Judged c share board order now m.1
      ((models.withFill c.fillModel).judgeExecutable account security order now m).1
      ((models.withFill c.fillModel).discardedAnswer? account security order now m)
      ((models.withFill c.fillModel).judgeExecutable account security order now m).2.1 := by
  have hpower := (models.withFill_leave c.fillModel).checkPower account security order m
  unfold judgeExecutable discardedAnswer?
  rcases hp : (models.withFill c.fillModel).checkPower account security order m with
    ⟨fault | check, m₁⟩
  · rw [hp] at hpower
    have hm₁ : m₁.1 = m.1 := hpower
    simp only [hm₁]
    exact .fault _
  · rw [hp] at hpower
    have hm₁ : m₁.1 = m.1 := hpower
    rw [← hm₁]
    cases hsufficient : check.sufficient with
    | false =>
      simp only [hsufficient, Bool.false_eq_true, if_false]
      exact .close _
    | true =>
      simp only [hsufficient, if_true]
      exact judgeFill_judged hc hb m₁

theorem judge_judged (hc : c.participation = some share) (models : Models Rat τ)
    (board : Board Rat) (account : Portfolio Rat) (order : Order Rat) (now : Instant)
    (m : Usage Rat × τ) :
    Judged c share board order now m.1
      ((models.withFill c.fillModel).judge board account order now m).1
      ((models.withFill c.fillModel).discard? board account order now m)
      ((models.withFill c.fillModel).judge board account order now m).2.1 := by
  have hveto := (models.withFill_leave c.fillModel).executable
  unfold discard?
  rcases (models.withFill c.fillModel).judge_cases board account order now m with
    ⟨security, hb, hreach, hjudge⟩ | ⟨hreach, hverdict, hmemory⟩
  · rw [hreach, hjudge, ← hveto security order m]
    exact judgeExecutable_judged hc hb _
  · have hsame : ((models.withFill c.fillModel).judge board account order now m).2.1 = m.1 := by
      rcases hmemory with h | ⟨security, h⟩
      · rw [h]
      · rw [h]
        exact hveto security order m
    rw [hreach, hsame]
    rcases hverdict with h | ⟨status, message, h⟩
    · rw [h]
      exact .hold
    · rw [h]
      exact .close message

end Models

section Taking

variable {c : FillConfig Rat} {share : Rat} {board : Board Rat} {security : Snapshot Rat}
  {order : Order Rat} {now : Instant} {event : OrderEvent Rat} {u u' : Usage Rat} {symbol : String}
  {time : Instant}

/-- A fill that the rules answer with is about the order, and fills it in whole or in part. -/
theorem FillConfig.Draws.of_isFill (h : c.Draws security order now event)
    (hfill : event.isFill = true) :
    event.orderId = order.id ∧ (event.status = .filled ∨ event.status = .partiallyFilled) := by
  have hnone : (OrderEvent.unchanged order now).isFill = false := OrderEvent.isFill_of_zero rfl
  rcases h with rfl | ⟨price, u, rfl⟩
  · rw [hnone] at hfill
    cases hfill
  · refine ⟨filled_orderId _ _, ?_⟩
    rcases filled_cases order now price (c.fillQuantity security order u).1 with h | ⟨-, hstatus⟩
    · rw [h, hnone] at hfill
      cases hfill
    · rw [hstatus]
      split
      · exact .inl rfl
      · exact .inr rfl

/-- An answer takes from the bar of its symbol what it fills, and nothing from other symbols. -/
theorem Spends.taken_eq (h : Spends share security u event u') (hshows : board.Shows symbol time)
    (hb : board.get? order.symbol = some security) (hd : c.Draws security order now event) :
    u'.taken symbol time = u.taken symbol time + filledSizes [event] symbol := by
  have hsymbol : event.symbol = order.symbol := hd.symbol_and_counts.1
  have hposted : security.symbol = order.symbol := hshows.posted _ _ hb
  rw [filledSizes_singleton, hsymbol]
  by_cases hs : order.symbol = symbol
  · subst hs
    obtain ⟨bar, hbar, rfl⟩ := hshows.bar _ hb
    have htaken := h.taken_self hbar
    rw [hposted] at htaken
    rw [if_pos rfl, htaken]
  · rw [if_neg hs, add_zero]
    apply h.taken_of_not_shown
    intro hshown
    exact absurd (hposted.symm.trans hshown) hs

end Taking

namespace Floor

/-- From one floor to the next, what is taken from a bar is what the events fill of its symbol and
what is discarded. -/
def Spent (symbol : String) (time : Instant) (f f' : Floor Rat (Usage Rat × τ))
    (discarded : List (OrderEvent Rat)) : Prop :=
  f'.memory.1.taken symbol time - f.memory.1.taken symbol time =
    filledSizes f'.log symbol - filledSizes f.log symbol + filledSizes discarded symbol

variable {symbol : String} {time : Instant} {f f' f'' : Floor Rat (Usage Rat × τ)}
  {discarded discarded' : List (OrderEvent Rat)}

theorem Spent.nothing (hm : f'.memory.1.taken symbol time = f.memory.1.taken symbol time)
    (hl : filledSizes f'.log symbol = filledSizes f.log symbol) : Spent symbol time f f' [] := by
  have hnone : filledSizes [] symbol = 0 := rfl
  rw [Spent, hm, hl, hnone, sub_self, sub_self, add_zero]

theorem Spent.trans (h : Spent symbol time f f' discarded)
    (h' : Spent symbol time f' f'' discarded') :
    Spent symbol time f f'' (discarded ++ discarded') := by
  unfold Spent at h h' ⊢
  rw [filledSizes_append]
  linarith

/-- Publishing an event without a fill leaves what the log fills as it was. -/
theorem filledSizes_commit {event : OrderEvent Rat} (he : event.fillQuantity = 0) :
    filledSizes (f.commit event).1.log symbol = filledSizes f.log symbol := by
  unfold commit
  split
  · show filledSizes (f.log ++ [event]) symbol = _
    rw [filledSizes_append, filledSizes_singleton_zero he, add_zero]
  · rfl

variable {c : FillConfig Rat} {security : Snapshot Rat} {order : Order Rat} {now : Instant}
  {event : OrderEvent Rat} {kind : OrderKind Rat}

/-- An answer of the rules that stands is published, unless it fills nothing. -/
theorem filledSizes_settle (hs : f.ledger.get? order.id = some order)
    (ho : order.status.isTerminal = false) (hd : c.Draws security order now event) (fee : Rat)
    (kind : OrderKind Rat) (symbol : String) :
    filledSizes (f.settle order now (.answer { event with fee := fee } kind)).1.log symbol =
      filledSizes f.log symbol + filledSizes [event] symbol := by
  cases hfill : event.isFill with
  | false =>
    have hzero : event.fillQuantity = 0 := by
      refine hd.symbol_and_counts.2.resolve_right ?_
      rw [hfill]
      exact Bool.false_ne_true
    rw [filledSizes_singleton_zero hzero, add_zero]
    simp only [settle]
    split
    · rfl
    · exact filledSizes_commit (f := { f with ledger := f.ledger.setKind order.id kind }) hzero
  | true =>
    obtain ⟨hid, hstatus⟩ := hd.of_isFill hfill
    have hid' : ({ event with fee := fee } : OrderEvent Rat).orderId = order.id := hid
    obtain ⟨l, -, hsettle⟩ := settle_news now kind hs ho hid' (not_quiet_of_isFill hfill) hstatus
    rw [hsettle]
    show filledSizes (f.log ++ [{ event with fee := fee }]) symbol = _
    rw [filledSizes_append, filledSizes_singleton, filledSizes_singleton]

variable {share : Rat} {models : Models Rat τ} {board : Board Rat}

/-- Carrying out a verdict books what was taken from a bar as filled, unless it is discarded. -/
theorem settle_spent (hshows : board.Shows symbol time)
    (hs : f.ledger.get? order.id = some order) (ho : order.status.isTerminal = false)
    {verdict : Verdict Rat} {discarded : Option (OrderEvent Rat)} {m : Usage Rat × τ}
    (h : Judged c share board order now f.memory.1 verdict discarded m.1) :
    Spent symbol time f ({ f with memory := m }.settle order now verdict).1 discarded.toList := by
  obtain ⟨u, rest⟩ := m
  cases h with
  | hold => exact .nothing rfl rfl
  | close message =>
    refine .nothing ?_ (filledSizes_commit rfl)
    rw [settle_memory]
  | fault report =>
    refine .nothing ?_ (filledSizes_commit rfl)
    rw [settle_memory]
  | answer fee kind hb hd hspends =>
    have htaken := hspends.taken_eq hshows hb hd
    have hlog := filledSizes_settle (f := { f with memory := (u, rest) }) hs ho hd fee kind symbol
    have hnone : filledSizes (none : Option (OrderEvent Rat)).toList symbol = 0 := rfl
    unfold Spent
    rw [settle_memory, hlog, htaken, hnone]
    show _ = filledSizes f.log symbol + _ - filledSizes f.log symbol + 0
    linarith
  | @discard _ event _ report hb hd hspends hfill =>
    have htaken := hspends.taken_eq hshows hb hd
    have hlog : filledSizes ({ f with memory := (u, rest) }.settle order now
        (.fault report)).1.log symbol = filledSizes f.log symbol := filledSizes_commit rfl
    unfold Spent
    rw [settle_memory, hlog, htaken, Option.toList_some]
    linarith

/-- A look takes from a bar what it fills of the symbol and what it discards. -/
theorem visit_spent (hc : c.participation = some share) (hshows : board.Shows symbol time)
    (hf : f.ledger.WellFiled) (id : OrderId) :
    Spent symbol time f (f.visit (models.withFill c.fillModel) board now id).1
      (f.discardAt? (models.withFill c.fillModel) board now id).toList := by
  rcases visit_cases (models.withFill c.fillModel) board now f id with
    ⟨order, hs, ho, -, hvisit⟩ | ⟨hstale, -, hvisit⟩
  · have hid : order.id = id := hf id order hs
    rw [hvisit, discardAt?_of_open hs ho]
    rw [← hid] at hs
    exact settle_spent hshows hs ho (Models.judge_judged hc models board f.account order now _)
  · have hat : f.discardAt? (models.withFill c.fillModel) board now id = none := by
      unfold discardAt?
      split
      · rfl
      · next order hs => rw [if_pos (hstale order hs)]
    rw [hvisit, hat]
    exact .nothing rfl rfl

theorem visitAll_spent (hc : c.participation = some share) (hshows : board.Shows symbol time)
    (hf : f.ledger.WellFiled) (ids : List OrderId) :
    Spent symbol time f (f.visitAll (models.withFill c.fillModel) board now ids).1
      (f.discards (models.withFill c.fillModel) board now ids) := by
  induction ids generalizing f with
  | nil => exact .nothing rfl rfl
  | cons id ids ih =>
    have hv := visit_visited (models.withFill c.fillModel) board now f id hf
    rw [visitAll_cons, discards]
    exact (visit_spent hc hshows hf id).trans (ih (hv.wellFiled hf))

end Floor

/-! ## Steps and runs -/

namespace Desk

variable {c : FillConfig Rat} {share : Rat} {models : Models Rat τ}
  {d : Desk Rat (Usage Rat × τ)} {symbol : String} {time : Instant}

theorem Files.spent {d' : Desk Rat (Usage Rat × τ)} (h : Files d d') :
    Floor.Spent symbol time d.toFloor d'.toFloor [] := by
  cases h with
  | refused => exact .nothing rfl rfl
  | unmarked id => exact .nothing rfl rfl
  | filed l he needed =>
    refine .nothing rfl ?_
    show filledSizes (d.log ++ [_]) symbol = _
    rw [filledSizes_append, filledSizes_singleton_zero he, add_zero]

theorem step_spent (models : Models Rat τ) (hc : c.participation = some share)
    (hf : d.ledger.WellFiled) (hshows : d.board.Shows symbol time) (a : Action Rat) :
    Floor.Spent symbol time d.toFloor (d.step (models.withFill c.fillModel) a).toFloor
      (d.stepDiscards (models.withFill c.fillModel) a) := by
  cases a with
  | place request => exact (d.place_files request).spent
  | update request => exact (d.update_files request).spent
  | cancel request => exact (d.cancel_files request).spent
  | scan now =>
    rw [step, scan, stepDiscards]
    split
    · exact Floor.visitAll_spent hc hshows hf _
    · exact .nothing rfl rfl
  | showSnapshot s => exact .nothing rfl rfl
  | untrack untracked => exact .nothing rfl rfl
  | mark marked price => exact .nothing rfl rfl

/-- A board goes on showing one bar of a symbol unless a snapshot with another comes. -/
theorem step_shows (suite : Models Rat (Usage Rat × τ)) (hshows : d.board.Shows symbol time)
    {a : Action Rat} (ha : ∀ s, a = .showSnapshot s → s.Shows symbol time) :
    (d.step suite a).board.Shows symbol time :=
  step_board (P := fun board => board.Shows symbol time) hshows
    (fun s hs => hshows.post (ha s hs)) fun untracked _ => hshows.erase untracked

/-- Over a run in which a symbol shows one bar, what is taken from the bar is what the events fill
of the symbol and what is discarded. -/
theorem run_spent (hc : c.participation = some share) (hf : d.ledger.WellFiled)
    (hshows : d.board.Shows symbol time) (actions : List (Action Rat))
    (hactions : ∀ s, .showSnapshot s ∈ actions → s.Shows symbol time) :
    Floor.Spent symbol time d.toFloor (d.run (models.withFill c.fillModel) actions).toFloor
      (d.runDiscards (models.withFill c.fillModel) actions) := by
  induction actions generalizing d with
  | nil => exact .nothing rfl rfl
  | cons a actions ih =>
    have hstep := step_spent models hc hf hshows a
    have hshows' := step_shows (models.withFill c.fillModel) hshows (a := a) (by
      rintro s rfl
      exact hactions s List.mem_cons_self)
    have hrest := ih (step_wellFiled _ hf a) hshows' fun s hs =>
      hactions s (List.mem_cons_of_mem a hs)
    rw [run_cons, runDiscards]
    exact hstep.trans hrest

end Desk

/-! ## Discards and faults -/

section Counting
variable [Scalar α] {models : Models α σ} {board : Board α} {now : Instant} {event : OrderEvent α}

theorem Models.discardedFill?_isFill {security : Snapshot α} {order : Order α} {memory : σ}
    (h : models.discardedFill? security order now memory = some event) : event.isFill = true := by
  unfold discardedFill? at h
  split at h
  · cases h
  · split at h
    · next hfill =>
      split at h
      · cases h
        exact hfill
      · cases h
    · cases h

/-- What a look discards is a fill. -/
theorem Floor.discardAt?_isFill {f : Floor α σ} {id : OrderId}
    (h : f.discardAt? models board now id = some event) : event.isFill = true := by
  unfold discardAt? at h
  split at h
  · cases h
  · split at h
    · cases h
    · obtain ⟨⟨security, memory⟩, -, hbound⟩ := Option.bind_eq_some_iff.mp h
      have hanswer : models.discardedAnswer? f.account security _ now memory = some event := hbound
      unfold Models.discardedAnswer? at hanswer
      split at hanswer
      · cases hanswer
      · split at hanswer
        · exact Models.discardedFill?_isFill hanswer
        · cases hanswer

theorem Floor.discards_isFill (f : Floor α σ) (ids : List OrderId) :
    ∀ e ∈ f.discards models board now ids, e.isFill = true := by
  induction ids generalizing f with
  | nil => simp [discards]
  | cons id ids ih =>
    intro e he
    rcases List.mem_append.mp he with hfirst | hrest
    · exact discardAt?_isFill (Option.mem_toList.mp hfirst)
    · exact ih _ e hrest

theorem Desk.runDiscards_isFill (d : Desk α σ) (actions : List (Action α)) :
    ∀ e ∈ d.runDiscards models actions, e.isFill = true := by
  induction actions generalizing d with
  | nil => simp [runDiscards]
  | cons a actions ih =>
    intro e he
    rcases List.mem_append.mp he with hfirst | hrest
    · unfold stepDiscards at hfirst
      split at hfirst
      · split at hfirst
        · exact Floor.discards_isFill _ _ e hfirst
        · cases hfirst
      · cases hfirst
    · exact ih _ e hrest

end Counting

section Faults

variable {models : Models Rat τ} {c : FillConfig Rat} {share : Rat} {board : Board Rat}
  {now : Instant}

/-- Under the built-in rules an attempt to fill faults exactly if it discards an answer. -/
theorem Models.discardedFill?_isSome_iff (hc : c.participation = some share)
    (security : Snapshot Rat) (order : Order Rat) (m : Usage Rat × τ) :
    ((models.withFill c.fillModel).discardedFill? security order now m).isSome = true ↔
      ∃ fault m', (models.withFill c.fillModel).attemptFill security order now m =
        (.error fault, m') := by
  obtain ⟨event, kind, u', hdispatch, -, -⟩ :=
    withFill_dispatch_spends hc models security order now m
  simp only [discardedFill?, attemptFill, Trial.andThen, hdispatch]
  cases hfill : event.isFill with
  | false => simp [Trial.give]
  | true =>
    simp only [if_true, Trial.andThen]
    rcases ((models.withFill c.fillModel).fees order.symbol).fee security order
      event.fillPrice event.fillQuantity (u', m.2) with ⟨fault | fee, m₂⟩
    · simp
    · simp [Trial.give]

theorem Models.discardedAnswer?_isSome_iff (hc : c.participation = some share)
    (account : Portfolio Rat) (security : Snapshot Rat) (order : Order Rat) (m : Usage Rat × τ) :
    ((models.withFill c.fillModel).discardedAnswer? account security order now m).isSome = true ↔
      ∃ fault, (models.withFill c.fillModel).callFault? account security order now m =
        some ⟨.fill, fault⟩ := by
  unfold discardedAnswer? callFault?
  rcases (models.withFill c.fillModel).checkPower account security order m with ⟨fault | check, m₁⟩
  · simp
  · cases hsufficient : check.sufficient with
    | false => simp [hsufficient]
    | true =>
      simp only [hsufficient, if_true]
      rw [discardedFill?_isSome_iff hc]
      rcases (models.withFill c.fillModel).attemptFill security order now m₁ with
        ⟨fault | answer, m₂⟩
      · simp
      · simp

theorem Models.discard?_isSome_iff (hc : c.participation = some share)
    (account : Portfolio Rat) (order : Order Rat) (m : Usage Rat × τ) :
    ((models.withFill c.fillModel).discard? board account order now m).isSome = true ↔
      ∃ fault, (models.withFill c.fillModel).fault? board account order now m =
        some ⟨.fill, fault⟩ := by
  unfold discard? fault?
  rcases (models.withFill c.fillModel).reach? board order now m with _ | ⟨security, m₁⟩
  · simp
  · exact discardedAnswer?_isSome_iff hc account security order m₁

/-- Under the built-in rules a look discards an answer exactly if a call faults at the fill. -/
theorem Floor.discardAt?_isSome_iff (hc : c.participation = some share)
    (f : Floor Rat (Usage Rat × τ)) (id : OrderId) :
    (f.discardAt? (models.withFill c.fillModel) board now id).isSome = true ↔
      ∃ fault, f.faultAt? (models.withFill c.fillModel) board now id = some ⟨.fill, fault⟩ := by
  unfold discardAt? faultAt?
  cases f.ledger.get? id with
  | none => simp
  | some order =>
    cases ho : order.status.isTerminal with
    | true => simp [ho]
    | false =>
      simp only [ho, Bool.false_eq_true, if_false]
      exact Models.discard?_isSome_iff hc f.account order f.memory

theorem Judged.symbol_of_discard {share : Rat} {order : Order Rat} {u u' : Usage Rat}
    {verdict : Verdict Rat} {event : OrderEvent Rat}
    (h : Judged c share board order now u verdict (some event) u') :
    event.symbol = order.symbol := by
  cases h with
  | discard report hb hd hs hfill => exact hd.symbol_and_counts.1

/-- A fault at the fill of an order costs the bar a quantity that counts, and fills nothing. -/
theorem Floor.visit_of_fill_fault (hc : c.participation = some share)
    {f : Floor Rat (Usage Rat × τ)} {id : OrderId} {order : Order Rat} {time : Instant}
    (hshows : board.Shows order.symbol time) (hf : f.ledger.WellFiled)
    (hs : f.ledger.get? id = some order) (ho : order.status.isTerminal = false) {fault : Fault}
    (h : f.faultAt? (models.withFill c.fillModel) board now id = some ⟨.fill, fault⟩) :
    let f' := (f.visit (models.withFill c.fillModel) board now id).1
    filledSizes f'.log order.symbol = filledSizes f.log order.symbol ∧
      ∃ lost, Scalar.tolerance ≤ lost ∧
        f'.memory.1.taken order.symbol time = f.memory.1.taken order.symbol time + lost := by
  intro f'
  obtain ⟨event, hevent⟩ : ∃ event,
      f.discardAt? (models.withFill c.fillModel) board now id = some event :=
    Option.isSome_iff_exists.mp ((discardAt?_isSome_iff hc f id).mpr ⟨fault, h⟩)
  have hspent : Spent order.symbol time f f'
      (f.discardAt? (models.withFill c.fillModel) board now id).toList :=
    visit_spent hc hshows hf id
  -- the look publishes the event that closes the order, and no other
  have hlog : filledSizes f'.log order.symbol = filledSizes f.log order.symbol := by
    obtain ⟨closed, l, -, -, hvisit⟩ := visit_of_fault hf h
    have hf' : f'.log = f.log ++ [faultEvent closed now (CallFault.mk .fill fault).report] := by
      show (f.visit (models.withFill c.fillModel) board now id).1.log = _
      rw [hvisit]
      rfl
    rw [hf', filledSizes_append, filledSizes_singleton_zero rfl, add_zero]
  have hsymbol : event.symbol = order.symbol := by
    have hj := Models.judge_judged hc models board f.account order now f.memory
    rw [← discardAt?_of_open hs ho, hevent] at hj
    exact hj.symbol_of_discard
  refine ⟨hlog, |event.fillQuantity|, ?_, ?_⟩
  · exact OrderEvent.isFill_iff.mp (discardAt?_isFill hevent)
  · unfold Spent at hspent
    rw [hevent, hlog, Option.toList_some, filledSizes_singleton, if_pos hsymbol] at hspent
    linarith

end Faults

namespace Desk

variable {c : FillConfig Rat} {share : Rat}

/-- The allowance of a bar is spent on the emitted fills alone exactly if no answer was discarded:
over any run in which a symbol shows one bar, what is taken from the bar is what the events fill of
the symbol and what was discarded because its fee faulted. -/
theorem run_spent_iff (hc : c.participation = some share) (models : Models Rat τ)
    (d : Desk Rat (Usage Rat × τ)) (hf : d.ledger.WellFiled) (symbol : String) (time : Instant)
    (hshows : d.board.Shows symbol time) (actions : List (Action Rat))
    (hactions : ∀ s, .showSnapshot s ∈ actions → s.Shows symbol time) :
    let suite := models.withFill c.fillModel
    let d' := d.run suite actions
    let spent := d'.memory.1.taken symbol time - d.memory.1.taken symbol time
    let filled := filledSizes d'.log symbol - filledSizes d.log symbol
    let discarded := d.runDiscards suite actions
    spent = filled + filledSizes discarded symbol ∧
      (spent = filled ↔ ∀ e ∈ discarded, e.symbol ≠ symbol) := by
  intro suite d' spent filled discarded
  have hspent : spent = filled + filledSizes discarded symbol :=
    run_spent hc hf hshows actions hactions
  refine ⟨hspent, ?_⟩
  rw [← filledSizes_eq_zero_iff (d.runDiscards_isFill actions), hspent]
  constructor
  · intro h
    linarith
  · intro h
    rw [h, add_zero]

/-- Two purchases meet one bar, and the fee of the first fill faults. The first purchase is closed
without a fill, its ten units stay taken, and nothing is left for the second. -/
theorem run_spent_iff_of_fee_fault :
    let c : FillConfig Rat := ⟨0, 1 / 100, some (1 / 2)⟩
    let models : Models Rat (Rehearsal Rat (Usage Rat)) :=
      ((Config.default : Config Rat).models Table.empty).scripted
    let suite := models.withFill c.fillModel
    let outage : Incident Rat :=
      ⟨.fee, none, 1, some 1, .fault (.error ["fee service down"])⟩
    let start := opening (Portfolio.ofCash "USD" 100000)
      ((Table.empty : Usage Rat), (⟨Table.empty, Script.ofIncidents [outage]⟩ : Rehearsal Rat _))
    let order (id : OrderId) : Order Rat :=
      { id := id, symbol := "SPY", quantity := 10, kind := .market, time := ⟨60⟩, filled := 0 }
    let actions : List (Action Rat) :=
      [.showSnapshot (Snapshot.ofBar "SPY" (Bar.flat ⟨60⟩ 100 20)), .place (order 1),
        .place (order 2), .scan ⟨60⟩]
    let d := start.run suite actions
    c.participation = some (1 / 2) ∧ start.ledger.WellFiled ∧ start.board.Shows "SPY" ⟨60⟩ ∧
      (∀ s, .showSnapshot s ∈ actions → s.Shows "SPY" ⟨60⟩) ∧
      d.reports = [(1, "Fill model failed: fee service down")] ∧
      d.ledger.openOrders.map (fun o => (o.id, o.filled)) = [(2, 0)] ∧
      filledSizes d.log "SPY" = 0 ∧
      d.memory.1.taken "SPY" ⟨60⟩ = filledSizes (start.runDiscards suite actions) "SPY" ∧
      (start.runDiscards suite actions).map (fun e => (e.orderId, e.fillQuantity)) = [(1, 10)] := by
  intro c models suite outage start order actions d
  have hf : start.ledger.WellFiled := opening_wellFiled _ _
  have hshows : start.board.Shows "SPY" ⟨60⟩ :=
    ⟨fun _ _ h => (by cases h), fun _ h => (by cases h)⟩
  have hactions : ∀ s, .showSnapshot s ∈ actions → s.Shows "SPY" ⟨60⟩ := by
    intro s hs
    simp only [actions, List.mem_cons, List.not_mem_nil, or_false, reduceCtorEq,
      Action.showSnapshot.injEq] at hs
    rw [hs]
    exact fun _ => ⟨_, rfl, rfl⟩
  have hlog : filledSizes d.log "SPY" = 0 := by decide +kernel
  obtain ⟨hspent, -⟩ :=
    run_spent_iff (c := c) rfl models start hf "SPY" ⟨60⟩ hshows actions hactions
  refine ⟨rfl, hf, hshows, hactions, by decide +kernel, by decide +kernel, hlog, ?_,
    by decide +kernel⟩
  have hbefore : Usage.taken start.memory.1 "SPY" ⟨60⟩ = 0 ∧ filledSizes start.log "SPY" = 0 :=
    ⟨rfl, rfl⟩
  rw [hlog, hbefore.1, hbefore.2, sub_zero, sub_zero, zero_add] at hspent
  exact hspent

/-- A fill whose fee faults costs the next order on the bar. Of twenty units half may be filled. The
fee of the first purchase faults at its partial fill; the second is left with nothing, where it
would have been filled in full had the first not been placed. -/
theorem faulted_fill_spends_allowance :
    let c : FillConfig Rat := ⟨0, 1 / 100, some (1 / 2)⟩
    let models : Models Rat (Usage Rat) :=
      { (Config.default : Config Rat).models Table.empty with
        fees := fun _ =>
          { schedule := .perUnit
            charge := fun _ order _ quantity =>
              if order.id = 1 ∧ quantity ≠ order.quantity then
                Trial.fail (.error ["fee service down"])
              else Trial.give 1 } }
    let suite := models.withFill c.fillModel
    let start := opening (Portfolio.ofCash "USD" 100000) ((Table.empty : Usage Rat), Table.empty)
    let order (id : OrderId) (quantity : Rat) : Order Rat :=
      { id := id, symbol := "SPY", quantity := quantity, kind := .market, time := ⟨60⟩
        filled := 0 }
    let bar : Action Rat := .showSnapshot (Snapshot.ofBar "SPY" (Bar.flat ⟨60⟩ 100 20))
    let both := start.run suite [bar, .place (order 1 15), .place (order 2 10), .scan ⟨60⟩]
    let alone := start.run suite [bar, .place (order 2 10), .scan ⟨60⟩]
    both.reports = [(1, "Fill model failed: fee service down")] ∧
      (eventsOf both.log 2).map OrderEvent.fillQuantity = [0] ∧
      (eventsOf alone.log 2).map OrderEvent.fillQuantity = [0, 10] ∧
      both.memory.1.taken "SPY" ⟨60⟩ ≠ filledSizes both.log "SPY" := by
  decide +kernel

end Desk

end TradingDesk
