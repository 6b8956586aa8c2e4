import Mathlib.Data.List.Dedup
import TradingDesk.Proofs.Lockstep
import TradingDesk.Proofs.Progress
import TradingDesk.Proofs.Spending
/- Proofs.Settling — what looks on one board use up.

   A look under the built-in models publishes nothing, or one event that ends the order
   looked at, or a fill in part. A fill in part takes all that the bar of the symbol has
   left, as the order wanted more, and a bar that has nothing left stays so while it is
   shown (`FillConfig.Exhausted`); without a cap or a bar, orders fill in whole.

   `Floor.Settles` puts together what looks in turn do: each event ends an order that was
   open, or exhausts the bar of an open order, and no bar is exhausted twice. So the looks
   publish no more events than there are pending orders and symbols of them
   (`Floor.Settles.length_le`). -/
namespace TradingDesk

/-! ## What the rules leave of an allowance -/

namespace Usage

variable {u : Usage Rat} {share wanted : Rat} {symbol : String} {bar : Bar Rat}

theorem allowance_nonneg (u : Usage Rat) (share : Rat) (symbol : String) (bar : Bar Rat) :
    0 ≤ u.allowance share symbol bar := by
  rw [allowance, Scalar.max_rat]
  exact le_max_right _ _

/-- A draw leaves no more of an allowance than there was. -/
theorem allowance_draw_le (u : Usage Rat) (share : Rat) (symbol : String) (bar : Bar Rat)
    (wanted : Rat) :
    (u.draw share symbol bar wanted).2.allowance share symbol bar ≤
      u.allowance share symbol bar := by
  have hnonneg := u.draw_nonneg share symbol bar wanted
  rw [allowance, allowance, Scalar.max_rat, Scalar.max_rat, taken_draw, if_pos rfl, if_pos rfl]
  exact max_le_max (by linarith) (le_refl 0)

/-- A draw that gives something, but not all that was wanted, leaves nothing of the allowance. -/
theorem allowance_draw_of_short (hsome : (u.draw share symbol bar wanted).1 ≠ 0)
    (hshort : (u.draw share symbol bar wanted).1 ≠ wanted) :
    0 < u.allowance share symbol bar ∧
      (u.draw share symbol bar wanted).2.allowance share symbol bar = 0 := by
  have hall : (u.draw share symbol bar wanted).1 = u.allowance share symbol bar := by
    simp only [draw] at hsome hshort ⊢
    by_cases hsize : Scalar.min wanted (u.allowance share symbol bar) < Scalar.tolerance
    · rw [if_pos hsize] at hsome
      exact absurd rfl hsome
    · rw [if_neg hsize, Scalar.min_rat] at hshort ⊢
      exact (min_choice _ _).resolve_left hshort
  have hpos : 0 < u.allowance share symbol bar :=
    lt_of_le_of_ne (u.allowance_nonneg share symbol bar) (Ne.symm (hall ▸ hsome))
  refine ⟨hpos, ?_⟩
  -- what was left is the whole difference, and it is taken
  have hleft : u.allowance share symbol bar =
      bar.volume * share - u.taken symbol bar.time := by
    rw [allowance, Scalar.max_rat] at hpos ⊢
    exact max_eq_left (le_of_not_ge fun hle => hpos.ne' (max_eq_right hle))
  rw [allowance, Scalar.max_rat, taken_draw, if_pos rfl, if_pos rfl, hall, hleft]
  simp

end Usage

namespace FillConfig

variable {c : FillConfig Rat} {board : Board Rat} {security : Snapshot Rat} {order : Order Rat}
  {now : Instant} {u : Usage Rat} {symbol : String}

/-- The bar that a symbol shows has nothing left to fill. -/
def Exhausted (c : FillConfig Rat) (board : Board Rat) (symbol : String) (u : Usage Rat) : Prop :=
  ∃ share security bar, c.participation = some share ∧ board.get? symbol = some security ∧
    security.bar = some bar ∧ u.allowance share symbol bar = 0

/-- What is filled of an order in part is all that the bar has left. -/
theorem fillQuantity_exhausts
    (hcounts : Scalar.negligible (c.fillQuantity security order u).1 = false)
    (hleft : Scalar.negligible (order.remaining - (c.fillQuantity security order u).1) = false) :
    ∃ share bar, c.participation = some share ∧ security.bar = some bar ∧
      0 < u.allowance share security.symbol bar ∧
      (c.fillQuantity security order u).2.allowance share security.symbol bar = 0 := by
  have hpart := c.fillQuantity_partOf security order u
  have hwhole : (c.fillQuantity security order u).1 ≠ order.remaining := by
    intro h
    rw [h, sub_self, ← Bool.not_eq_true, Scalar.negligible_iff, abs_zero] at hleft
    exact hleft Scalar.tolerance_pos
  cases hbar : security.bar with
  | none => exact absurd (congrArg Prod.fst (fillQuantity_of_no_bar hbar order u)) hwhole
  | some bar =>
    cases hc : c.participation with
    | none => exact absurd (congrArg Prod.fst (fillQuantity_of_uncapped hc security order u)) hwhole
    | some share =>
      obtain ⟨quantity, hsize, hq⟩ := fillQuantity_of_bar hc hbar order u
      rw [hq] at hcounts hpart hwhole ⊢
      refine ⟨share, bar, rfl, rfl, Usage.allowance_draw_of_short ?_ ?_⟩
      · rw [← hsize, abs_ne_zero]
        rintro rfl
        rw [← Bool.not_eq_true, Scalar.negligible_iff, abs_zero] at hcounts
        exact hcounts Scalar.tolerance_pos
      · rw [← hsize, Scalar.abs_rat]
        intro hsame
        have hrest := hpart.abs_sub
        rw [hsame, sub_self, abs_eq_zero, sub_eq_zero] at hrest
        exact hwhole hrest.symm

/-- An order that the rules fill in part finds something of the bar's allowance and leaves
nothing. -/
theorem outcome_exhausts (hfill : (c.outcome security order now u).1.isFill = true)
    (hstatus : (c.outcome security order now u).1.status = .partiallyFilled) :
    ∃ share bar, c.participation = some share ∧ security.bar = some bar ∧
      0 < u.allowance share security.symbol bar ∧
      (c.outcome security order now u).2.allowance share security.symbol bar = 0 := by
  have hunchanged : (OrderEvent.unchanged order now).isFill = false := OrderEvent.isFill_of_zero rfl
  unfold outcome at hfill hstatus ⊢
  cases hprice : c.price? security order with
  | none =>
    simp [hprice, hunchanged] at hfill
  | some price =>
    simp only [hprice] at hfill hstatus ⊢
    unfold filled at hfill hstatus
    split at hfill
    · rw [hunchanged] at hfill
      cases hfill
    · next hcounts =>
      rw [if_neg hcounts] at hstatus
      have hleft : ¬ Scalar.negligible
          (order.remaining - (c.fillQuantity security order u).1) = true := by
        intro hnone
        rw [if_pos hnone] at hstatus
        cases hstatus
      exact fillQuantity_exhausts (Bool.not_eq_true _ ▸ hcounts) (Bool.not_eq_true _ ▸ hleft)

/-- So a bar is filled from in part once: it had something left before, and has nothing after. -/
theorem exhausted_of_partly (posted : board.Posted) (hb : board.get? order.symbol = some security)
    (hfill : (c.outcome security order now u).1.isFill = true)
    (hstatus : (c.outcome security order now u).1.status = .partiallyFilled) :
    ¬ c.Exhausted board order.symbol u ∧
      c.Exhausted board order.symbol (c.outcome security order now u).2 := by
  obtain ⟨share, bar, hc, hbar, hpos, hnone⟩ := outcome_exhausts hfill hstatus
  rw [posted _ _ hb] at hpos hnone
  refine ⟨?_, share, security, bar, hc, hb, hbar, hnone⟩
  rintro ⟨share', shown, bar', hc', hshown, hbar', hnone'⟩
  obtain rfl := Option.some.inj (hc.symm.trans hc')
  obtain rfl := Option.some.inj (hb.symm.trans hshown)
  obtain rfl := Option.some.inj (hbar.symm.trans hbar')
  exact hpos.ne' hnone'

/-- What the rules remember after an order: as before, or after a draw from the bar shown. If they
filled nothing, the draw gave nothing. -/
theorem outcome_memory (c : FillConfig Rat) (security : Snapshot Rat) (order : Order Rat)
    (now : Instant) (u : Usage Rat) :
    (c.outcome security order now u).2 = u ∨
      ∃ share bar wanted, c.participation = some share ∧ security.bar = some bar ∧
        (c.outcome security order now u).2 = (u.draw share security.symbol bar wanted).2 ∧
        ((c.outcome security order now u).1.isFill = false →
          (u.draw share security.symbol bar wanted).1 = 0) := by
  unfold outcome
  cases c.price? security order with
  | none => exact .inl rfl
  | some price =>
    cases hbar : security.bar with
    | none => exact .inl (congrArg Prod.snd (fillQuantity_of_no_bar hbar order u))
    | some bar =>
      cases hc : c.participation with
      | none => exact .inl (congrArg Prod.snd (fillQuantity_of_uncapped hc security order u))
      | some share =>
        obtain ⟨quantity, hsize, hq⟩ := fillQuantity_of_bar hc hbar order u
        have hcases := u.draw_cases share security.symbol bar (Scalar.abs order.remaining)
        refine .inr ⟨share, bar, Scalar.abs order.remaining, rfl, rfl, ?_, ?_⟩
        · rw [hq]
        · rw [hq]
          intro hquiet
          have hcounts : quantity = 0 ∨ Scalar.tolerance ≤ |quantity| := by
            rw [← abs_eq_zero, hsize]
            exact hcases.imp id And.left
          have hfilled := abs_filled_fillQuantity order now price hcounts
          rw [← Bool.not_eq_true, OrderEvent.isFill_iff, hfilled, hsize] at hquiet
          exact hcases.resolve_right fun h => hquiet h.1

/-- A bar that has nothing left to fill goes on having nothing. -/
theorem Exhausted.outcome (h : c.Exhausted board symbol u) (posted : board.Posted)
    (hb : board.get? order.symbol = some security) :
    c.Exhausted board symbol (c.outcome security order now u).2 := by
  obtain ⟨share, shown, bar, hc, hshown, hbar, hnone⟩ := h
  refine ⟨share, shown, bar, hc, hshown, hbar, ?_⟩
  obtain hsame | ⟨share', bar', wanted, hc', hbar', hdraw, -⟩ :=
    c.outcome_memory security order now u
  · rw [hsame]
    exact hnone
  · obtain rfl := Option.some.inj (hc.symm.trans hc')
    rw [hdraw]
    by_cases hs : symbol = security.symbol
    · -- one symbol, so it is the security that was drawn from
      obtain rfl : symbol = order.symbol := hs.trans (posted _ _ hb)
      obtain rfl := Option.some.inj (hshown.symm.trans hb)
      obtain rfl := Option.some.inj (hbar.symm.trans hbar')
      rw [← hs]
      refine le_antisymm ?_ (Usage.allowance_nonneg _ _ _ _)
      rw [← hnone]
      exact u.allowance_draw_le share order.symbol bar wanted
    · rw [Usage.allowance, Usage.taken_draw, if_neg hs]
      exact hnone

/-- An order of which nothing is filled leaves what the memory holds of the bars shown. -/
theorem outcome_agree_of_quiet (posted : board.Posted)
    (hb : board.get? order.symbol = some security)
    (h : (c.outcome security order now u).1.isFill = false) :
    Usage.AgreeOn board u (c.outcome security order now u).2 := by
  obtain hsame | ⟨share, bar, wanted, -, hbar, hdraw, hnothing⟩ :=
    c.outcome_memory security order now u
  · rw [hsame]
    exact .refl board u
  · intro s shown shownBar hshown hshownBar
    rw [hdraw, Usage.taken_draw, hnothing h, add_zero]
    split
    · next hs =>
      have hkey : s = order.symbol := (posted _ _ hshown).symm.trans (hs.trans (posted _ _ hb))
      rw [hkey] at hshown
      obtain rfl := Option.some.inj (hshown.symm.trans hb)
      obtain rfl := Option.some.inj (hshownBar.symm.trans hbar)
      rw [if_pos rfl]
    · rfl

end FillConfig

/-! ## What a look publishes -/

/-- An answer that fills nothing says that nothing happened. -/
theorem FillConfig.Draws.eq_unchanged {c : FillConfig Rat} {security : Snapshot Rat}
    {order : Order Rat} {now : Instant} {event : OrderEvent Rat}
    (h : c.Draws security order now event) (hquiet : event.isFill = false) :
    event = OrderEvent.unchanged order now := by
  rcases h with h | ⟨price, u, rfl⟩
  · exact h
  · revert hquiet
    generalize (c.fillQuantity security order u).1 = quantity
    intro hquiet
    by_cases hn : Scalar.negligible quantity = true
    · rw [filled, if_pos hn]
    · rw [filled, if_neg hn, ← Bool.not_eq_true, OrderEvent.isFill_iff] at hquiet
      rw [Scalar.negligible_iff, not_lt] at hn
      exact absurd hn hquiet

namespace Floor

variable {c : Config Rat} {overrides : Table String (FeePlan Rat)} {board : Board Rat}
  {now : Instant} {f f' : Floor Rat (Usage Rat)} {id : OrderId} {symbol : String}

/-- What a look under the built-in models publishes: nothing, and then it leaves what the memory
holds of the bars shown; or one event of the open order under the id, which ends the order, or fills
it in part with all that the bar of its symbol has left. -/
theorem visit_publishes (c : Config Rat) (overrides : Table String (FeePlan Rat))
    (posted : board.Posted) (now : Instant) (hf : f.ledger.WellFiled) (id : OrderId) :
    let f' := (f.visit (c.models overrides) board now id).1
    f'.log = f.log ∧ f.memory.AgreeOn board f'.memory ∨
      ∃ order e, f.ledger.get? id = some order ∧ order.status.isTerminal = false ∧
        f'.log = f.log ++ [e] ∧ e.orderId = id ∧ e.symbol = order.symbol ∧
        (e.status.isTerminal = true ∨ e.status = .partiallyFilled ∧
          ¬ c.fill.Exhausted board e.symbol f.memory ∧
          c.fill.Exhausted board e.symbol f'.memory) := by
  intro f'
  have hzero : ¬ (Scalar.tolerance : Rat) ≤ Scalar.abs 0 := by decide +kernel
  obtain ⟨order, hs, ho, -, hvisit⟩ | ⟨-, -, hvisit⟩ :=
    visit_cases (c.models overrides) board now f id
  case inr => exact .inl (by simp only [f', hvisit]; exact ⟨trivial, .refl board f.memory⟩)
  have hid : order.id = id := hf id order hs
  subst hid
  obtain ⟨security, hb, hrules⟩ | ⟨verdict, hverdict, hgates⟩ :=
    c.judge_cases overrides board f.account order now
  · -- the look gets to the rules
    have hstage := (hrules f.memory).1
    have hdraws := c.fill.outcome_draws security order now f.memory
    cases hfill : (c.fill.outcome security order now f.memory).1.isFill with
    | false =>
      have hlook := visit_of_unchanged hzero hs ho hstage (hdraws.eq_unchanged hfill)
      simp only [f', hlook]
      exact .inl ⟨trivial, FillConfig.outcome_agree_of_quiet posted hb hfill⟩
    | true =>
      have hstatus := (hdraws.of_isFill hfill).2
      obtain ⟨l, -, hlook⟩ := visit_of_fill hs ho hstage hfill hstatus
      obtain ⟨fee, hevent⟩ :=
        c.charged_eq overrides order (c.fill.outcome security order now f.memory).1
      simp only [f', hlook, hevent]
      refine .inr ⟨order, _, hs, ho, rfl, c.fill.outcome_orderId security order now f.memory,
        hdraws.symbol_and_counts.1, ?_⟩
      rcases hstatus with hfilled | hpartly
      · exact .inl (hfilled ▸ rfl)
      · refine .inr ⟨hpartly, ?_⟩
        simp only [hdraws.symbol_and_counts.1]
        exact FillConfig.exhausted_of_partly posted hb hfill hpartly
  · -- the look closes the order, or holds it
    rw [(hgates f.memory).2] at hvisit
    obtain rfl | ⟨status, message, hstatus, rfl⟩ := hverdict
    · exact .inl (by simp only [f', hvisit, settle]; exact ⟨trivial, .refl board f.memory⟩)
    · obtain ⟨l, -, hclose⟩ := settle_close now hs ho hstatus message
      refine .inr ⟨order, (OrderEvent.of order now status).withMessage message, hs, ho, ?_, rfl,
        rfl, .inl ?_⟩
      · simp only [f', hvisit, hclose]
        rfl
      · rcases hstatus with rfl | rfl <;> rfl

/-- A bar that has nothing left to fill has nothing left after a look. -/
theorem visit_exhausted (overrides : Table String (FeePlan Rat)) (posted : board.Posted)
    (h : c.fill.Exhausted board symbol f.memory) (now : Instant) (id : OrderId) :
    c.fill.Exhausted board symbol (f.visit (c.models overrides) board now id).1.memory := by
  obtain ⟨order, -, -, -, hvisit⟩ | ⟨-, -, hvisit⟩ :=
    visit_cases (c.models overrides) board now f id
  · rw [hvisit, settle_memory]
    obtain ⟨security, hb, hrules⟩ | ⟨verdict, -, hgates⟩ :=
      c.judge_cases overrides board f.account order now
    · rw [(hrules f.memory).2]
      exact h.outcome posted hb
    · rw [(hgates f.memory).2]
      exact h
  · rw [hvisit]
    exact h

/-- What is open after a look was open before, on the same symbol. -/
theorem Visited.opened {models : Models Rat (Usage Rat)} {needed : Bool}
    (h : Visited models now id f f' needed) (hf : f.ledger.WellFiled)
    (own : models.fill.KeepsToOrder) {j : OrderId} {o' : Order Rat}
    (hs' : f'.ledger.get? j = some o') (ho' : o'.status.isTerminal = false) :
    ∃ o, f.ledger.get? j = some o ∧ o.status.isTerminal = false ∧ o.symbol = o'.symbol := by
  by_cases hj : j = id
  · subst hj
    cases h with
    | stale hs hl ha hg => exact ⟨o', by rw [hl] at hs'; exact hs', ho', rfl⟩
    | held hl ha hg => exact ⟨o', by rw [hl] at hs'; exact hs', ho', rfl⟩
    | rekinded hs ho hi hl ha hg =>
      rw [hl, (Ledger.setKind_refiled _ hs).get?_self] at hs'
      exact ⟨_, hs, ho, by rw [← Option.some.inj hs']; rfl⟩
    | booked hs ho hi hl ha hg =>
      have hid := (hi.orderId own).trans (hf j _ hs)
      rw [(Ledger.setKind_record?_refiled hs hid hl).get?_self] at hs'
      exact ⟨_, hs, ho, by rw [← Option.some.inj hs']; rfl⟩
  · have hsame : f.ledger.get? j = f'.ledger.get? j :=
      congrArg Docket.order (h.frame hf own hj).symm
    exact ⟨o', hsame.trans hs', ho', rfl⟩

end Floor

/-! ## Looks that settle -/

/-- The event fills an order on the symbol in part. -/
def OrderEvent.fillsPartly {α : Type} (e : OrderEvent α) (symbol : String) : Bool :=
  e.symbol == symbol && e.status == .partiallyFilled

namespace Floor

variable {c : Config Rat} {overrides : Table String (FeePlan Rat)} {board : Board Rat}
  {now : Instant} {f g k : Floor Rat (Usage Rat)} {published later : List (OrderEvent Rat)}

/-- What looks on one board change, with the events they publish. -/
structure Settles (c : FillConfig Rat) (board : Board Rat) (f f' : Floor Rat (Usage Rat))
    (published : List (OrderEvent Rat)) : Prop where
  log : f'.log = f.log ++ published
  /-- What is open was open before, on the same symbol. -/
  opened : ∀ id o', f'.ledger.get? id = some o' → o'.status.isTerminal = false →
    ∃ o, f.ledger.get? id = some o ∧ o.status.isTerminal = false ∧ o.symbol = o'.symbol
  /-- Events are about orders that were open. -/
  ofOpen : ∀ e ∈ published, ∃ o, f.ledger.get? e.orderId = some o ∧
    o.status.isTerminal = false ∧ o.symbol = e.symbol
  /-- An event ends its order or fills it in part. -/
  ends : ∀ e ∈ published, e.status.isTerminal = true ∨ e.status = .partiallyFilled
  /-- Of a bar that has nothing left, nothing is filled in part, and it goes on having nothing. -/
  exhausted : ∀ symbol, c.Exhausted board symbol f.memory →
    c.Exhausted board symbol f'.memory ∧ published.countP (·.fillsPartly symbol) = 0
  /-- What is filled in part of a symbol leaves its bar nothing. -/
  partly : ∀ symbol, published.countP (·.fillsPartly symbol) = 0 ∨
    published.countP (·.fillsPartly symbol) = 1 ∧ c.Exhausted board symbol f'.memory

namespace Settles

theorem refl (c : FillConfig Rat) (board : Board Rat) (f : Floor Rat (Usage Rat)) :
    Settles c board f f [] where
  log := (List.append_nil _).symm
  opened _ o' hs ho := ⟨o', hs, ho, rfl⟩
  ofOpen _ he := absurd he List.not_mem_nil
  ends _ he := absurd he List.not_mem_nil
  exhausted _ hnone := ⟨hnone, rfl⟩
  partly _ := .inl rfl

/-- Looks after looks settle as one. -/
theorem trans {c : FillConfig Rat} (hfg : Settles c board f g published)
    (hgk : Settles c board g k later) : Settles c board f k (published ++ later) where
  log := by rw [hgk.log, hfg.log, List.append_assoc]
  opened id o'' hs'' ho'' := by
    obtain ⟨o', hs', ho', hsymbol'⟩ := hgk.opened id o'' hs'' ho''
    obtain ⟨o, hs, ho, hsymbol⟩ := hfg.opened id o' hs' ho'
    exact ⟨o, hs, ho, hsymbol.trans hsymbol'⟩
  ofOpen e he := by
    rcases List.mem_append.mp he with he | he
    · exact hfg.ofOpen e he
    · obtain ⟨o', hs', ho', hsymbol'⟩ := hgk.ofOpen e he
      obtain ⟨o, hs, ho, hsymbol⟩ := hfg.opened _ o' hs' ho'
      exact ⟨o, hs, ho, hsymbol.trans hsymbol'⟩
  ends e he := (List.mem_append.mp he).elim (hfg.ends e) (hgk.ends e)
  exhausted symbol hnone := by
    obtain ⟨hleft, hquiet⟩ := hfg.exhausted symbol hnone
    obtain ⟨hleft', hquiet'⟩ := hgk.exhausted symbol hleft
    exact ⟨hleft', by rw [List.countP_append, hquiet, hquiet']⟩
  partly symbol := by
    rw [List.countP_append]
    rcases hfg.partly symbol with hquiet | ⟨honce, hleft⟩
    · rw [hquiet, Nat.zero_add]
      exact hgk.partly symbol
    · obtain ⟨hleft', hquiet'⟩ := hgk.exhausted symbol hleft
      exact .inr ⟨by rw [honce, hquiet'], hleft'⟩

end Settles

/-- A look under the built-in models settles. -/
theorem visit_settles (c : Config Rat) (overrides : Table String (FeePlan Rat))
    (posted : board.Posted) (now : Instant) (hf : f.ledger.WellFiled) (id : OrderId) :
    ∃ published,
      Settles c.fill board f (f.visit (c.models overrides) board now id).1 published := by
  have hv := visit_visited (c.models overrides) board now f id hf
  have hkept := fun symbol (hnone : c.fill.Exhausted board symbol f.memory) =>
    visit_exhausted overrides posted hnone now id
  obtain ⟨hlog, -⟩ | ⟨order, e, hs, ho, hlog, hid, hsymbol, hends⟩ :=
    visit_publishes c overrides posted now hf id
  · exact ⟨[], {
      log := by rw [hlog, List.append_nil]
      opened := fun j o' => hv.opened hf c.models_followsRules.keepsToOrder
      ofOpen := fun _ he => absurd he List.not_mem_nil
      ends := fun _ he => absurd he List.not_mem_nil
      exhausted := fun symbol hnone => ⟨hkept symbol hnone, rfl⟩
      partly := fun _ => .inl rfl }⟩
  · have hcount : ∀ symbol, [e].countP (·.fillsPartly symbol) = 0 ∨
        [e].countP (·.fillsPartly symbol) = 1 ∧ e.fillsPartly symbol = true := by
      intro symbol
      rw [List.countP_singleton]
      split
      · next h => exact .inr ⟨rfl, h⟩
      · exact .inl rfl
    have hpartly : ∀ symbol, e.fillsPartly symbol = true →
        ¬ c.fill.Exhausted board symbol f.memory ∧ c.fill.Exhausted board symbol
          (f.visit (c.models overrides) board now id).1.memory := by
      intro symbol h
      simp only [OrderEvent.fillsPartly, Bool.and_eq_true, beq_iff_eq] at h
      obtain ⟨rfl, hstatus⟩ := h
      rcases hends with hterm | ⟨-, hfound, hleft⟩
      · rw [hstatus] at hterm
        cases hterm
      · exact ⟨hfound, hleft⟩
    exact ⟨[e], {
      log := hlog
      opened := fun j o' => hv.opened hf c.models_followsRules.keepsToOrder
      ofOpen := fun e' he => by
        obtain rfl := List.mem_singleton.mp he
        exact ⟨order, hid.symm ▸ hs, ho, hsymbol.symm⟩
      ends := fun e' he => by
        obtain rfl := List.mem_singleton.mp he
        exact hends.imp_right And.left
      exhausted := fun symbol hnone => by
        refine ⟨hkept symbol hnone, (hcount symbol).resolve_right ?_⟩
        rintro ⟨-, h⟩
        exact (hpartly symbol h).1 hnone
      partly := fun symbol =>
        (hcount symbol).imp_right fun h => ⟨h.1, (hpartly symbol h.2).2⟩ }⟩

theorem visitAll_settles (c : Config Rat) (overrides : Table String (FeePlan Rat))
    (posted : board.Posted) (now : Instant) (hf : f.ledger.WellFiled) (ids : List OrderId) :
    ∃ published,
      Settles c.fill board f (f.visitAll (c.models overrides) board now ids).1 published := by
  induction ids generalizing f with
  | nil => exact ⟨[], .refl c.fill board f⟩
  | cons id ids ih =>
    have hv := visit_visited (c.models overrides) board now f id hf
    obtain ⟨first, hfirst⟩ := visit_settles c overrides posted now hf id
    obtain ⟨others, hothers⟩ := ih (hv.wellFiled hf)
    rw [visitAll_cons]
    exact ⟨first ++ others, hfirst.trans hothers⟩

end Floor

/-! ## How much is published -/

/-- What an event of a pass uses up. -/
inductive Used where
  /-- The order ends. -/
  | order (id : OrderId)
  /-- The bar of a symbol has nothing left. -/
  | bar (symbol : String)
  deriving DecidableEq

/-- What an event uses up: the order that it ends, or else what the bar of its symbol has left. -/
def OrderEvent.uses {α : Type} (e : OrderEvent α) : Used :=
  if e.status.isTerminal then .order e.orderId else .bar e.symbol

namespace Floor

variable {board : Board Rat} {f f' : Floor Rat (Usage Rat)} {published : List (OrderEvent Rat)}

/-- Looks that end no order twice use nothing up twice. -/
theorem Settles.uses_nodup {c : FillConfig Rat} (h : Settles c board f f' published)
    (hends : ∀ id, (published.countP fun e => e.orderId == id && e.status.isTerminal) ≤ 1) :
    (published.map OrderEvent.uses).Nodup := by
  rw [List.nodup_iff_count_le_one]
  intro used
  rw [List.count, List.countP_map]
  cases used with
  | order id =>
    refine Nat.le_trans (List.countP_mono_left fun e he hused => ?_) (hends id)
    rw [Function.comp_apply, beq_iff_eq, OrderEvent.uses] at hused
    split at hused
    · next hterm =>
      cases hused
      rw [hterm, beq_self_eq_true, Bool.and_self]
    · cases hused
  | bar symbol =>
    have honce : published.countP (·.fillsPartly symbol) ≤ 1 := by
      rcases h.partly symbol with hquiet | ⟨honce, -⟩
      · rw [hquiet]
        exact Nat.zero_le 1
      · rw [honce]
    refine Nat.le_trans (List.countP_mono_left fun e he hused => ?_) honce
    rw [Function.comp_apply, beq_iff_eq, OrderEvent.uses] at hused
    split at hused
    · cases hused
    · next hterm =>
      cases hused
      rw [OrderEvent.fillsPartly, (h.ends e he).resolve_left hterm, beq_self_eq_true,
        beq_self_eq_true, Bool.and_self]

/-- Looks that end no order twice publish no more events than there are pending orders and symbols
of them. -/
theorem Settles.length_le {c : FillConfig Rat} (h : Settles c board f f' published)
    (orderly : f.ledger.Orderly)
    (hends : ∀ id, (published.countP fun e => e.orderId == id && e.status.isTerminal) ≤ 1) :
    published.length ≤
      f.ledger.pendingIds.length + (f.ledger.openOrders.map Order.symbol).dedup.length := by
  have hsub : published.map OrderEvent.uses ⊆ f.ledger.pendingIds.map Used.order ++
      (f.ledger.openOrders.map Order.symbol).dedup.map Used.bar := by
    intro used hused
    obtain ⟨e, he, rfl⟩ := List.mem_map.mp hused
    obtain ⟨o, hs, ho, hsymbol⟩ := h.ofOpen e he
    have hp : f.ledger.isPending e.orderId = true := (orderly.pending_iff _).mpr ⟨o, hs, ho⟩
    have hid : o.id = e.orderId := orderly.wellFiled _ o hs
    rw [OrderEvent.uses]
    split
    · exact List.mem_append_left _ (List.mem_map_of_mem (Ledger.mem_pendingIds.mpr hp))
    · refine List.mem_append_right _ (List.mem_map_of_mem (List.mem_dedup.mpr ?_))
      rw [← hsymbol]
      exact List.mem_map_of_mem
        ((Ledger.mem_openOrders orderly.wellFiled).mpr ⟨hid.symm ▸ hp, hid.symm ▸ hs⟩)
  have hle := ((h.uses_nodup hends).subperm hsub).length_le
  rwa [List.length_map, List.length_append, List.length_map, List.length_map] at hle

end Floor

end TradingDesk
