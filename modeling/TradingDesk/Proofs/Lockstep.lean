import TradingDesk.Proofs.Allowance
import TradingDesk.Proofs.FillStage
/- Proofs.Lockstep — floors that a pass cannot tell apart.

   Of the memory of the built-in models a pass reads what fills have taken of the bars that
   the board shows, and nothing else (`Usage.AgreeOn`). So floors with the same orders, the
   same account and memories that agree on these bars take a pass alike: it publishes the
   same on both, and leaves them as much alike (`Floor.Matched.pass`). -/
namespace TradingDesk

variable {α : Type} [Scalar α]

/-! ## Memories that agree on the bars that are shown -/

namespace Usage

variable {board : Board α} {u u' : Usage α}

/-- The memories hold the same of every bar that the board shows. -/
def AgreeOn (board : Board α) (u u' : Usage α) : Prop :=
  ∀ symbol security bar, board.get? symbol = some security → security.bar = some bar →
    u.taken security.symbol bar.time = u'.taken security.symbol bar.time

theorem AgreeOn.refl (board : Board α) (u : Usage α) : AgreeOn board u u := fun _ _ _ _ _ => rfl

theorem AgreeOn.trans {u'' : Usage α} (h : AgreeOn board u u') (h' : AgreeOn board u' u'') :
    AgreeOn board u u'' :=
  fun s security bar hb hbar => (h s security bar hb hbar).trans (h' s security bar hb hbar)

theorem AgreeOn.insert (h : AgreeOn board u u') (symbol : String) (usage : BarUsage α) :
    AgreeOn board (Table.insert u symbol usage) (Table.insert u' symbol usage) := by
  intro s security bar hb hbar
  rw [taken_insert, taken_insert, h s security bar hb hbar]

/-- Memories that agree on the bars shown give the same of one of them, and agree after it. -/
theorem AgreeOn.draw (h : AgreeOn board u u') {symbol : String} {security : Snapshot α}
    {bar : Bar α} (hb : board.get? symbol = some security) (hbar : security.bar = some bar)
    (share wanted : α) :
    (u.draw share security.symbol bar wanted).1 = (u'.draw share security.symbol bar wanted).1 ∧
      AgreeOn board (u.draw share security.symbol bar wanted).2
        (u'.draw share security.symbol bar wanted).2 := by
  have htaken := h symbol security bar hb hbar
  have hallowance : u.allowance share security.symbol bar =
      u'.allowance share security.symbol bar := by
    rw [allowance, allowance, htaken]
  simp only [Usage.draw, htaken, hallowance]
  by_cases hsize : Scalar.min wanted (u'.allowance share security.symbol bar) < Scalar.tolerance
  · simp only [if_pos hsize]
    exact ⟨trivial, h.insert _ _⟩
  · simp only [if_neg hsize]
    exact ⟨trivial, h.insert _ _⟩

end Usage

namespace FillConfig

variable {board : Board α} {u u' : Usage α} {security : Snapshot α} {symbol : String}

theorem fillQuantity_agree (c : FillConfig α) (h : u.AgreeOn board u')
    (hb : board.get? symbol = some security) (order : Order α) :
    (c.fillQuantity security order u).1 = (c.fillQuantity security order u').1 ∧
      Usage.AgreeOn board (c.fillQuantity security order u).2
        (c.fillQuantity security order u').2 := by
  unfold fillQuantity
  split
  · next share bar _ hbar =>
    obtain ⟨hsize, hagree⟩ := h.draw hb hbar share (Scalar.abs order.remaining)
    simp only [hsize]
    exact ⟨trivial, hagree⟩
  · exact ⟨rfl, h⟩

theorem outcome_agree (c : FillConfig α) (h : u.AgreeOn board u')
    (hb : board.get? symbol = some security) (order : Order α) (now : Instant) :
    (c.outcome security order now u).1 = (c.outcome security order now u').1 ∧
      Usage.AgreeOn board (c.outcome security order now u).2
        (c.outcome security order now u').2 := by
  obtain ⟨hquantity, hagree⟩ := c.fillQuantity_agree h hb order
  unfold outcome
  split
  · exact ⟨rfl, h⟩
  · rw [hquantity]
    exact ⟨rfl, hagree⟩

end FillConfig

/-! ## Looks that find the same -/

namespace Floor

/-- The floors have the same orders and accounts, and memories that agree on the bars shown. -/
structure Matched (board : Board α) (f g : Floor α (Usage α)) : Prop where
  ledger : f.ledger = g.ledger
  account : f.account = g.account
  memory : f.memory.AgreeOn board g.memory

variable {c : Config α} {overrides : Table String (FeePlan α)} {board : Board α} {now : Instant}
  {f g : Floor α (Usage α)} {id : OrderId}

/-- A verdict on matched floors publishes the same on both and leaves them matched. -/
theorem Matched.settle (h : Matched board f g) (order : Order α) (now : Instant)
    (verdict : Verdict α) :
    Matched board (f.settle order now verdict).1 (g.settle order now verdict).1 ∧
      ∃ published, (f.settle order now verdict).1.log = f.log ++ published ∧
        (g.settle order now verdict).1.log = g.log ++ published := by
  obtain ⟨l, a, published, reported, again, hsettle⟩ :=
    settle_determined (σ := Usage α) f.ledger f.account order now verdict
  rw [hsettle f rfl rfl, hsettle g h.ledger.symm h.account.symm]
  exact ⟨⟨rfl, rfl, h.memory⟩, published, rfl, rfl⟩

/-- A look under the built-in models at matched floors publishes the same on both and leaves them
matched. -/
theorem Matched.visit (h : Matched board f g) (c : Config α)
    (overrides : Table String (FeePlan α)) (now : Instant) (id : OrderId) :
    let models := c.models overrides
    Matched board (f.visit models board now id).1 (g.visit models board now id).1 ∧
      ∃ published, (f.visit models board now id).1.log = f.log ++ published ∧
        (g.visit models board now id).1.log = g.log ++ published := by
  intro models
  obtain ⟨ledger, account, memory, log, reports⟩ := f
  obtain ⟨_, _, memory', log', reports'⟩ := g
  obtain ⟨rfl, rfl, hagree⟩ := h
  dsimp only at hagree
  have hdropped : Matched board ⟨ledger.dropPending id, account, memory, log, reports⟩
      ⟨ledger.dropPending id, account, memory', log', reports'⟩ := ⟨rfl, rfl, hagree⟩
  cases hs : ledger.get? id with
  | none =>
    simp only [Floor.visit, hs]
    exact ⟨hdropped, [], (List.append_nil _).symm, (List.append_nil _).symm⟩
  | some order =>
    cases ho : order.status.isTerminal with
    | true =>
      simp only [Floor.visit, hs, ho, if_true]
      exact ⟨hdropped, [], (List.append_nil _).symm, (List.append_nil _).symm⟩
    | false =>
      simp only [Floor.visit, hs, ho, Bool.false_eq_true, if_false]
      -- the verdict is one, and the memories agree after it
      obtain ⟨security, hb, hrules⟩ | ⟨verdict, -, hgates⟩ :=
        c.judge_cases overrides board account order now
      · obtain ⟨hevent, hafter⟩ := c.fill.outcome_agree hagree hb order now
        simp only [models, (hrules _).2, hevent]
        apply Matched.settle
        exact ⟨rfl, rfl, hafter⟩
      · simp only [models, (hgates _).2]
        apply Matched.settle
        exact ⟨rfl, rfl, hagree⟩

theorem Matched.visitAll (h : Matched board f g) (c : Config α)
    (overrides : Table String (FeePlan α)) (now : Instant) (ids : List OrderId) :
    let models := c.models overrides
    Matched board (f.visitAll models board now ids).1 (g.visitAll models board now ids).1 ∧
      ∃ published, (f.visitAll models board now ids).1.log = f.log ++ published ∧
        (g.visitAll models board now ids).1.log = g.log ++ published := by
  intro models
  induction ids generalizing f g with
  | nil => exact ⟨h, [], (List.append_nil _).symm, (List.append_nil _).symm⟩
  | cons id ids ih =>
    obtain ⟨hvisit, first, hf, hg⟩ := h.visit c overrides now id
    obtain ⟨hrest, others, hf', hg'⟩ := ih hvisit
    rw [visitAll_cons, visitAll_cons]
    refine ⟨hrest, first ++ others, ?_, ?_⟩
    · rw [← List.append_assoc, ← hf]
      exact hf'
    · rw [← List.append_assoc, ← hg]
      exact hg'

/-- So it is with a pass. -/
theorem Matched.pass (h : Matched board f g) (c : Config α)
    (overrides : Table String (FeePlan α)) (now : Instant) :
    let models := c.models overrides
    Matched board (f.pass models board now).1 (g.pass models board now).1 ∧
      ∃ published, (f.pass models board now).1.log = f.log ++ published ∧
        (g.pass models board now).1.log = g.log ++ published := by
  intro models
  rw [Floor.pass, Floor.pass, h.ledger]
  exact h.visitAll c overrides now _

end Floor

end TradingDesk
