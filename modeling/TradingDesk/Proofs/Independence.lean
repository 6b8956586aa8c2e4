import TradingDesk.Proofs.Accounting
import TradingDesk.Proofs.Interleaving
/- Proofs.Independence — fills on different symbols are independent.

   What a fill does to an account depends on the position in its symbol and on nothing
   else (`applyFill_determined`): it files that position anew, and adds to the sums, the
   counts and the trades. Sums and counts do not keep the order in which they were added
   to, and filings under different symbols can be made in either order. Only the list of
   trades keeps the order, and of that only what is said of one symbol is independent
   (`applyFill_swap`).

   So accounts that apply interleavings of the same fills are the same but for the order
   of their trades (`applyAll_interleaves`). -/
namespace TradingDesk

namespace Portfolio

/-- The account after a list of events. -/
def applyAll {α : Type} [Scalar α] (p : Portfolio α) (events : List (OrderEvent α)) : Portfolio α :=
  events.foldl applyFill p

/-! ## What a fill does -/

/-- What a fill does beside its payment: the position it leaves in its symbol, the trades it closes
and what they add to the results. -/
structure Effect where
  position : Position Rat
  trades : List (ClosedTrade Rat)
  gain : Rat
  wins : Nat
  losses : Nat

/-- The account after a fill with an effect. -/
def affected (p : Portfolio Rat) (e : OrderEvent Rat) (x : Effect) : Portfolio Rat :=
  { p with
    cash := p.cash - costOf e
    positions := (p.hold e.symbol x.position).positions
    trades := p.trades ++ x.trades
    realizedGain := p.realizedGain + x.gain
    totalFees := p.totalFees + e.fee
    wins := p.wins + x.wins
    losses := p.losses + x.losses }

variable {p q : Portfolio Rat} {a b e : OrderEvent Rat}

/-- What a fill does is one on all accounts with the same position in its symbol. -/
theorem applyFill_determined (he : e.isFill = true) (held : Position Rat) :
    ∃ x : Effect, (∀ trade ∈ x.trades, trade.symbol = e.symbol) ∧
      ∀ p : Portfolio Rat, p.position e.symbol = held → p.applyFill e = p.affected e x := by
  cases hjoined : held.isJoinedBy e.fillQuantity with
  | true =>
    refine ⟨⟨held.join e.fillQuantity e.fillPrice, [], 0, 0, 0⟩, nofun, ?_⟩
    rintro p rfl
    rw [applyFill, if_pos he]
    simp only [hjoined, if_true, affected, List.append_nil, add_zero]
    rfl
  | false =>
    refine ⟨⟨held.reduce e.fillQuantity e.fillPrice, [closing held e], (closing held e).gain,
      if 0 < (closing held e).gain then 1 else 0, if 0 < (closing held e).gain then 0 else 1⟩,
      ?_, ?_⟩
    · intro trade htrade
      rw [List.mem_singleton.mp htrade]
      rfl
    · rintro p rfl
      rw [applyFill, if_pos he]
      simp only [hjoined, Bool.false_eq_true, if_false, book, affected, decide_eq_true_eq]
      by_cases hwon : 0 < (closing (p.position e.symbol) e).gain
      · simp only [if_pos hwon]
        rfl
      · simp only [if_neg hwon]
        rfl

/-- A fill leaves the positions in other symbols alone. -/
theorem position_applyFill_of_ne (p : Portfolio Rat) {symbol : String} (h : symbol ≠ e.symbol) :
    (p.applyFill e).position symbol = p.position symbol := by
  cases he : e.isFill with
  | false => rw [applyFill_of_not_fill he]
  | true =>
    obtain ⟨x, -, hx⟩ := applyFill_determined he (p.position e.symbol)
    have hget : (p.affected e x).positions.get? symbol = p.positions.get? symbol :=
      (get?_hold p e.symbol x.position symbol).trans (if_neg h)
    rw [hx p rfl, position, position, hget]

/-! ## Fills on two symbols -/

/-- The accounts are the same but for the order of their trades, and even there for each symbol. -/
structure Agrees (p q : Portfolio Rat) : Prop where
  same : q = { p with trades := q.trades }
  trades : Interleaves ClosedTrade.symbol p.trades q.trades

theorem Agrees.refl (p : Portfolio Rat) : p.Agrees p := ⟨rfl, .refl _⟩

theorem Agrees.trans {r : Portfolio Rat} (h : p.Agrees q) (h' : q.Agrees r) : p.Agrees r := by
  refine ⟨?_, h.trades.trans h'.trades⟩
  rw [h'.same, h.same]

/-- A fill is applied alike to accounts that differ in the order of their trades. -/
theorem Agrees.applyFill (h : p.Agrees q) (e : OrderEvent Rat) :
    (p.applyFill e).Agrees (q.applyFill e) := by
  cases he : e.isFill with
  | false =>
    rw [applyFill_of_not_fill he, applyFill_of_not_fill he]
    exact h
  | true =>
    obtain ⟨x, -, hx⟩ := applyFill_determined he (p.position e.symbol)
    have hposition : q.position e.symbol = p.position e.symbol := by
      rw [h.same]
      rfl
    rw [hx p rfl, hx q hposition]
    refine ⟨?_, h.trades.append_right x.trades⟩
    rw [h.same]
    rfl

/-- Positions in different symbols can be filed in either order. -/
theorem hold_swap (p : Portfolio Rat) {s t : String} (h : s ≠ t) (held held' : Position Rat) :
    ((p.hold s held).hold t held').positions = ((p.hold t held').hold s held).positions := by
  apply Table.ext_get?
  intro k
  rw [get?_hold, get?_hold, get?_hold, get?_hold]
  by_cases hs : k = s
  · have ht : k ≠ t := fun ht => h (hs.symm.trans ht)
    rw [if_neg ht, if_pos hs, if_pos hs]
  · rw [if_neg hs, if_neg hs]

/-- Fills on different symbols can be applied in either order. -/
theorem applyFill_swap (p : Portfolio Rat) (h : a.symbol ≠ b.symbol) :
    ((p.applyFill a).applyFill b).Agrees ((p.applyFill b).applyFill a) := by
  cases ha : a.isFill with
  | false =>
    rw [applyFill_of_not_fill ha, applyFill_of_not_fill ha]
    exact .refl _
  | true =>
    cases hb : b.isFill with
    | false =>
      rw [applyFill_of_not_fill hb, applyFill_of_not_fill hb]
      exact .refl _
    | true =>
      obtain ⟨x, hxs, hx⟩ := applyFill_determined ha (p.position a.symbol)
      obtain ⟨y, hys, hy⟩ := applyFill_determined hb (p.position b.symbol)
      rw [hy _ (p.position_applyFill_of_ne h.symm), hx _ (p.position_applyFill_of_ne h), hx p rfl,
        hy p rfl]
      constructor
      · have hpositions : (((p.affected b y).affected a x)).positions =
            ((p.affected a x).affected b y).positions :=
          p.hold_swap h.symm y.position x.position
        simp only [affected] at hpositions ⊢
        rw [hpositions, sub_right_comm, add_right_comm p.realizedGain, add_right_comm p.totalFees,
          Nat.add_right_comm p.wins, Nat.add_right_comm p.losses]
      · apply Interleaves.append_swap
        intro s hs t ht
        rw [hxs s hs, hys t ht]
        exact h

/-! ## Fills on any symbols -/

theorem fills_commuting :
    Commuting OrderEvent.symbol applyFill (fun _ => True) Agrees where
  refl := .refl
  trans _ _ _ h h' := h.trans h'
  congr _ _ e h := h.applyFill e
  keeps _ _ _ := trivial
  swap p _ _ _ h := p.applyFill_swap h

/-- Fills on different symbols are independent. Applied to any account, two sequences of fills that
are interleavings of the same sequences, one for each symbol, leave the same cash, positions,
results and counts, and the same trades of each symbol; only the order of the trades among each
other may differ. -/
theorem applyAll_interleaves (p : Portfolio Rat) {events events' : List (OrderEvent Rat)}
    (h : Interleaves OrderEvent.symbol events events') :
    let q := p.applyAll events
    let q' := p.applyAll events'
    q'.cash = q.cash ∧ q'.holdings = q.holdings ∧ q'.realizedGain = q.realizedGain ∧
      q'.totalFees = q.totalFees ∧ (q'.wins, q'.losses) = (q.wins, q.losses) ∧
      (∀ symbol, ofKey ClosedTrade.symbol symbol q'.trades =
        ofKey ClosedTrade.symbol symbol q.trades) ∧
      q'.trades.Perm q.trades ∧ q' = { q with trades := q'.trades } := by
  intro q q'
  have hagrees : q.Agrees q' := fills_commuting.foldl_interleaves h trivial
  have hsame := hagrees.same
  refine ⟨by rw [hsame], ?_, by rw [hsame], by rw [hsame], by rw [hsame],
    fun symbol => (hagrees.trades symbol).symm, hagrees.trades.perm.symm, hsame⟩
  rw [hsame]
  rfl

/-- Positions in three symbols, one taken through zero, one closed and one opened, by symbol and in
turns. -/
theorem applyAll_interleaves_of_turns :
    let fill (symbol : String) (quantity price : Rat) : OrderEvent Rat :=
      ⟨1, symbol, ⟨60⟩, .filled, price, quantity, 1, none, false⟩
    let events := [fill "SPY" 10 100, fill "SPY" (-15) 110, fill "SPY" 2 100, fill "QQQ" (-4) 50,
      fill "QQQ" 4 60, fill "IWM" 3 20]
    let events' := [fill "QQQ" (-4) 50, fill "SPY" 10 100, fill "IWM" 3 20, fill "QQQ" 4 60,
      fill "SPY" (-15) 110, fill "SPY" 2 100]
    let p := ofCash "USD" 5000
    let q := p.applyAll events
    let q' := p.applyAll events'
    Interleaves OrderEvent.symbol events events' ∧
      q.holdings = [⟨"IWM", ⟨3, 20, 20⟩⟩, ⟨"SPY", ⟨-3, 110, 100⟩⟩] ∧
      (q.cash, q.realizedGain, q.totalFees, q.wins, q.losses) = (5344, 80, 6, 2, 1) ∧
      (q.trades.map fun t => (t.symbol, t.gain)) = [("SPY", 100), ("SPY", 20), ("QQQ", -40)] ∧
      (q'.trades.map fun t => (t.symbol, t.gain)) = [("QQQ", -40), ("SPY", 100), ("SPY", 20)] ∧
      q'.cash = q.cash ∧ q'.holdings = q.holdings ∧ q'.realizedGain = q.realizedGain ∧
      q'.totalFees = q.totalFees ∧ (q'.wins, q'.losses) = (q.wins, q.losses) ∧
      q'.trades.Perm q.trades := by
  intro fill events events' p q q'
  have hturns : Interleaves OrderEvent.symbol events events' := by decide +kernel
  obtain ⟨hcash, hholdings, hgain, hfees, hcounts, -, hperm, -⟩ := p.applyAll_interleaves hturns
  exact ⟨hturns, by decide +kernel, by decide +kernel, by decide +kernel, by decide +kernel, hcash,
    hholdings, hgain, hfees, hcounts, hperm⟩

end Portfolio

end TradingDesk
