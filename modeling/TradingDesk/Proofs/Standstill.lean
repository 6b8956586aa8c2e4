import TradingDesk.Proofs.Lifecycle
import TradingDesk.Proofs.Settling
import TradingDesk.Proofs.Timing
/- Proofs.Standstill — scans repeated at one time come to a standstill.

   A repeated scan has less to do each time: it can end what is open, and fill in part what
   a bar has something left for, and neither comes back while nothing else is asked of the
   desk. When a scan publishes nothing and marks no stop, it leaves the orders and the
   account as they are, and of the memory what the board shows of it; so the next scan
   finds what it found, and does as little (`run_scans_settle`). -/
namespace TradingDesk

variable {α σ : Type}

/-! ## Quiet passes -/

namespace Ledger

/-- No stop that was not reached before is marked as reached. -/
def MarksNoStop (l l' : Ledger α) : Prop :=
  ∀ id o o', l.get? id = some o → l'.get? id = some o' → o'.kind.isTriggered = true →
    o.kind.isTriggered = true

end Ledger

theorem OrderKind.trigger_of_isTriggered {kind : OrderKind α} {reached : Bool}
    (h : (kind.trigger reached).isTriggered = true → kind.isTriggered = true) :
    kind.trigger reached = kind := by
  cases kind with
  | stopLimit stop price triggered =>
    simp only [trigger, isTriggered] at h ⊢
    cases triggered with
    | true => rfl
    | false =>
      cases reached with
      | true => exact absurd (h rfl) Bool.false_ne_true
      | false => rfl
  | _ => rfl

namespace Floor

section Quiet

variable [Scalar α] {models : Models α σ} {board : Board α} {now : Instant} {id : OrderId}
  {f f' : Floor α σ} {needed : Bool}

theorem Visited.account_of_quiet (h : Visited models now id f f' needed) (hlog : f'.log = f.log) :
    f'.account = f.account := by
  cases h with
  | stale hs hl ha hg => exact ha
  | held hl ha hg => exact ha
  | rekinded hs ho hi hl ha hg => exact ha
  | booked hs ho hi hl ha hg => simp [hg] at hlog

/-- A pass that publishes nothing and marks no stop leaves the ledger as it is. -/
theorem pass_ledger_of_quiet (orderly : f.ledger.Orderly) (own : models.fill.KeepsToOrder)
    (marks : models.fill.MarksStops) (hlog : (f.pass models board now).1.log = f.log)
    (hstops : f.ledger.MarksNoStop (f.pass models board now).1.ledger) :
    (f.pass models board now).1.ledger = f.ledger := by
  obtain ⟨published, framed⟩ := pass_framed models own marks board now orderly
  have hnone : published = [] := List.append_right_eq_self.mp (framed.log.symm.trans hlog)
  subst hnone
  have hid : ∀ id, (f.pass models board now).1.ledger.get? id = f.ledger.get? id ∧
      (f.pass models board now).1.ledger.isPending id = f.ledger.isPending id := by
    intro id
    cases hp : f.ledger.isPending id with
    | false =>
      have hsame := framed.untouched id hp
      exact ⟨congrArg Docket.order hsame, (isPending_congr hsame).trans hp⟩
    | true =>
      obtain ⟨o, hs, -⟩ := (orderly.pending_iff id).mp hp
      obtain ⟨hp', reached, hs'⟩ :=
        framed.unheard id o hp hs fun e he => absurd he List.not_mem_nil
      have hkind := OrderKind.trigger_of_isTriggered (hstops id o _ hs hs')
      rw [hkind] at hs'
      exact ⟨hs'.trans hs.symm, hp'⟩
  exact Ledger.ext_reads (fun id => (hid id).1) fun id => (hid id).2

end Quiet

variable {board : Board Rat} {f : Floor Rat (Usage Rat)}

/-- Looks that publish nothing leave the account, and what the memory holds of the bars shown. -/
theorem visitAll_of_quiet (c : Config Rat) (overrides : Table String (FeePlan Rat))
    (posted : board.Posted) (now : Instant) (hf : f.ledger.WellFiled) (ids : List OrderId)
    (hlog : (f.visitAll (c.models overrides) board now ids).1.log = f.log) :
    (f.visitAll (c.models overrides) board now ids).1.account = f.account ∧
      f.memory.AgreeOn board (f.visitAll (c.models overrides) board now ids).1.memory := by
  induction ids generalizing f with
  | nil => exact ⟨rfl, .refl board f.memory⟩
  | cons id ids ih =>
    have hv := visit_visited (c.models overrides) board now f id hf
    have hf' := hv.wellFiled hf
    rw [visitAll_cons] at hlog ⊢
    have hrest : (f.visit (c.models overrides) board now id).1.log <+:
        ((f.visit (c.models overrides) board now id).1.visitAll (c.models overrides) board now
          ids).1.log := visitAll_log_prefix ids hf'
    -- the log does not get shorter, so the first look published nothing either
    have hfirst : (f.visit (c.models overrides) board now id).1.log = f.log := by
      have hgrown := hv.log_prefix
      refine (hgrown.eq_of_length_le ?_).symm
      rw [← hlog]
      exact hrest.length_le
    have hagree : f.memory.AgreeOn board (f.visit (c.models overrides) board now id).1.memory := by
      obtain ⟨-, hagree⟩ | ⟨_, e, -, -, hpublished, -⟩ :=
        visit_publishes c overrides posted now hf id
      · exact hagree
      · simp [hpublished] at hfirst
    obtain ⟨haccount, hagree'⟩ := ih hf' (hlog.trans hfirst.symm)
    exact ⟨haccount.trans (hv.account_of_quiet hfirst), hagree.trans hagree'⟩

end Floor

/-! ## Repeated scans -/

namespace Desk

section Scans

variable [Scalar α] (models : Models α σ) (now : Instant)

/-- The desk after `n` scans at one time. -/
def scans (n : Nat) (d : Desk α σ) : Desk α σ := d.run models (List.replicate n (.scan now))

theorem scans_succ (n : Nat) (d : Desk α σ) :
    d.scans models now (n + 1) = (d.scans models now n).step models (.scan now) := by
  rw [scans, List.replicate_succ', run_append]
  rfl

theorem scans_add (m n : Nat) (d : Desk α σ) :
    d.scans models now (m + n) = (d.scans models now m).scans models now n := by
  rw [scans, List.replicate_add, run_append]
  rfl

theorem scan_board (d : Desk α σ) : (d.step models (.scan now)).board = d.board :=
  step_board (P := (· = d.board)) rfl (fun _ h => by cases h) fun _ h => by cases h

theorem scans_board (n : Nat) (d : Desk α σ) : (d.scans models now n).board = d.board := by
  induction n with
  | zero => rfl
  | succ n ih => rw [scans_succ, scan_board, ih]

/-- Whether the scan after so many others publishes anything. -/
def stirs (d : Desk α σ) (k : Nat) : Bool :=
  !((d.scans models now k).published models (.scan now)).isEmpty

/-- Scans that publish anything are no more than the events that they publish. -/
theorem countP_stirs_le {d : Desk α σ} (hf : d.ledger.WellFiled) (n : Nat) :
    d.log.length + (List.range n).countP (d.stirs models now) ≤
      (d.scans models now n).log.length := by
  induction n with
  | zero => exact Nat.le_refl _
  | succ n ih =>
    have hn : (d.scans models now n).ledger.WellFiled := run_wellFiled models hf _
    rw [scans_succ, step_log models hn, List.range_succ, List.countP_append,
      List.countP_singleton, List.length_append, ← Nat.add_assoc]
    refine Nat.add_le_add ih ?_
    unfold stirs
    cases (d.scans models now n).published models (.scan now) with
    | nil => exact Nat.zero_le 0
    | cons e rest => exact Nat.le_add_left 1 rest.length

end Scans

/-! ## Desks that a run leads to -/

/-- A run from an opening leads to the desk. -/
def Reached [Scalar α] (models : Models α σ) (d : Desk α σ) : Prop :=
  ∃ account memory actions, d = (opening account memory).run models actions

namespace Reached

variable [Scalar α] {models : Models α σ} {d : Desk α σ}

theorem run (h : d.Reached models) (actions : List (Action α)) :
    (d.run models actions).Reached models := by
  obtain ⟨account, memory, earlier, rfl⟩ := h
  exact ⟨account, memory, earlier ++ actions, (run_append models _ earlier actions).symm⟩

theorem scans (h : d.Reached models) (now : Instant) (n : Nat) :
    (d.scans models now n).Reached models := h.run _

theorem orderly (h : d.Reached models) : d.ledger.Orderly := by
  obtain ⟨account, memory, actions, rfl⟩ := h
  exact run_orderly models account memory actions

theorem posted (h : d.Reached models) : d.board.Posted := by
  obtain ⟨account, memory, actions, rfl⟩ := h
  exact run_keeps (P := fun d => d.board.Posted)
    (fun _ _ _ _ hp => step_board hp (fun s _ => hp.post s) fun symbol _ => hp.erase symbol)
    (opening_wellFiled account memory) fun _ _ hs => by cases hs

/-- A scan leaves what a pass leaves. -/
theorem scan_toFloor (h : d.Reached models) (own : models.fill.KeepsToOrder) (now : Instant) :
    (d.step models (.scan now)).toFloor = (d.toFloor.pass models d.board now).1 := by
  obtain ⟨account, memory, actions, rfl⟩ := h
  exact Desk.scan_toFloor
    (run_needsPass own (opening_wellFiled account memory) (fun h => by cases h) actions) now

/-- No part of what was published ends an order twice. -/
theorem closing_count (h : d.Reached models) (plain : models.fill.NeverAcknowledges)
    {log published : List (OrderEvent α)} (hlog : d.log = log ++ published) (id : OrderId) :
    (published.countP fun e => e.orderId == id && e.status.isTerminal) ≤ 1 := by
  obtain ⟨account, memory, actions, rfl⟩ := h
  have hevents : (eventsOf (log ++ published) id).countP (fun e => e.status.isTerminal) ≤ 1 := by
    rw [← hlog]
    cases hs : ((opening account memory).run models actions).order? id with
    | none =>
      have hnone : eventsOf ((opening account memory).run models actions).log id = [] :=
        ((run_sound models account memory actions id).absent hs).2
      rw [hnone]
      exact Nat.zero_le 1
    | some o => exact (run_told models plain account memory actions id o hs).closing_count
  rw [eventsOf, List.countP_filter, List.countP_append] at hevents
  refine Nat.le_trans (Nat.le_of_eq ?_) (Nat.le_trans (Nat.le_add_left _ _) hevents)
  congr 1
  funext e
  exact Bool.and_comm _ _

end Reached

section BuiltIn

variable {c : Config Rat} {overrides : Table String (FeePlan Rat)} {d : Desk Rat (Usage Rat)}
  {now : Instant}

/-- Repeated scans settle. -/
theorem Reached.scans_settle (h : d.Reached (c.models overrides)) (now : Instant) (n : Nat) :
    ∃ published, Floor.Settles c.fill d.board d.toFloor
      (d.scans (c.models overrides) now n).toFloor published := by
  induction n with
  | zero => exact ⟨[], .refl c.fill d.board d.toFloor⟩
  | succ n ih =>
    obtain ⟨published, hn⟩ := ih
    have hreached := h.scans now n
    obtain ⟨later, hpass⟩ := Floor.visitAll_settles c overrides hreached.posted now
      hreached.orderly.wellFiled (d.scans (c.models overrides) now n).ledger.pendingIds
    rw [scans_board] at hpass
    rw [scans_succ, hreached.scan_toFloor c.models_followsRules.keepsToOrder, scans_board]
    exact ⟨published ++ later, hn.trans hpass⟩

/-- The desks publish the same and have the same orders and account, and their memories hold the
same of the bars shown. -/
def Still (d d' : Desk Rat (Usage Rat)) : Prop :=
  d'.log = d.log ∧ Floor.Matched d.board d.toFloor d'.toFloor

/-- A scan that publishes nothing and marks no stop leaves the desk still. -/
theorem Reached.still_of_quiet (h : d.Reached (c.models overrides))
    (hquiet : (d.step (c.models overrides) (.scan now)).log = d.log)
    (hstops : d.ledger.MarksNoStop (d.step (c.models overrides) (.scan now)).ledger) :
    d.Still (d.step (c.models overrides) (.scan now)) := by
  have hfloor := h.scan_toFloor c.models_followsRules.keepsToOrder now
  rw [hfloor] at hquiet hstops
  obtain ⟨haccount, hagree⟩ := Floor.visitAll_of_quiet c overrides h.posted now
    h.orderly.wellFiled d.ledger.pendingIds hquiet
  have hledger := Floor.pass_ledger_of_quiet h.orderly c.models_followsRules.keepsToOrder
    c.models_marksStops hquiet hstops
  rw [Still, hfloor]
  exact ⟨hquiet, hledger.symm, haccount.symm, hagree⟩

/-- So does every further one. -/
theorem Reached.still_scans (h : d.Reached (c.models overrides))
    (hstill : d.Still (d.step (c.models overrides) (.scan now))) (n : Nat) :
    d.Still (d.scans (c.models overrides) now n) := by
  induction n with
  | zero => exact ⟨rfl, rfl, rfl, .refl d.board d.memory⟩
  | succ n ih =>
    have hfloor := (h.scans now n).scan_toFloor c.models_followsRules.keepsToOrder now
    rw [scans_board] at hfloor
    rw [Still, h.scan_toFloor c.models_followsRules.keepsToOrder now] at hstill
    obtain ⟨hmatched, published, hlog, hlog'⟩ := ih.2.pass c overrides now
    -- the pass publishes what it publishes on `d`, which is nothing
    have hnone : published = [] := List.append_right_eq_self.mp (hlog.symm.trans hstill.1)
    rw [scans_succ, Still, hfloor]
    refine ⟨?_, ?_⟩
    · rw [hlog', hnone, List.append_nil]
      exact ih.1
    · exact ⟨hstill.2.ledger.trans hmatched.ledger, hstill.2.account.trans hmatched.account,
        hstill.2.memory.trans hmatched.memory⟩

end BuiltIn

/-! ## Standstill -/

/-- Repeated scans at one time come to a standstill. After any run under the built-in models, in
exact arithmetic, and over any number of scans at one time that follow it: each order is ended at
most once and each symbol is filled in part at most once, so that no more of the scans publish
anything than there are pending orders and symbols of them; and once a scan publishes nothing and
marks no stop, it and every later one publish nothing and leave the ledger and the account as they
are. -/
theorem run_scans_settle (c : Config Rat) (overrides : Table String (FeePlan Rat))
    (account : Portfolio Rat) (memory : Usage Rat) (actions : List (Action Rat)) (now : Instant) :
    let models := c.models overrides
    let d := (opening account memory).run models actions
    let after (n : Nat) := d.scans models now n
    (∀ n, ∃ published, (after n).log = d.log ++ published ∧
      (∀ id, (published.countP fun e => e.orderId == id && e.status.isTerminal) ≤ 1) ∧
      ∀ symbol, (published.countP fun e =>
        e.symbol == symbol && e.status == .partiallyFilled) ≤ 1) ∧
    (∀ n, ((List.range n).countP fun k => !((after k).published models (.scan now)).isEmpty) ≤
      d.ledger.pendingIds.length + (d.ledger.openOrders.map Order.symbol).dedup.length) ∧
    (∀ k, (after k).published models (.scan now) = [] →
      (after k).ledger.MarksNoStop (after (k + 1)).ledger →
      ∀ m, k ≤ m → (after m).log = (after k).log ∧ (after m).ledger = (after k).ledger ∧
        (after m).account = (after k).account) := by
  intro models d after
  have hd : d.Reached models := ⟨account, memory, actions, rfl⟩
  have plain : models.fill.NeverAcknowledges := c.models_followsRules.neverAcknowledges
  refine ⟨?_, ?_, ?_⟩
  · intro n
    obtain ⟨published, hn⟩ := hd.scans_settle now n
    refine ⟨published, hn.log, (hd.scans now n).closing_count plain hn.log, ?_⟩
    intro symbol
    rcases hn.partly symbol with hquiet | ⟨honce, -⟩
    · exact Nat.le_trans (Nat.le_of_eq hquiet) (Nat.zero_le 1)
    · exact Nat.le_of_eq honce
  · intro n
    obtain ⟨published, hn⟩ := hd.scans_settle now n
    have hlength := hn.length_le hd.orderly ((hd.scans now n).closing_count plain hn.log)
    have hcount := countP_stirs_le models now hd.orderly.wellFiled n
    rw [hn.log, List.length_append] at hcount
    exact Nat.le_trans (Nat.le_of_add_le_add_left hcount) hlength
  · intro k hquiet hstops m hm
    have hk := hd.scans now k
    have hlog := step_log models hk.orderly.wellFiled (.scan now)
    rw [hquiet, List.append_nil] at hlog
    simp only [after, scans_succ] at hstops
    have hstill := hk.still_scans (hk.still_of_quiet hlog hstops) (m - k)
    rw [← scans_add, Nat.add_sub_cancel' hm] at hstill
    exact ⟨hstill.1, hstill.2.ledger.symm, hstill.2.account.symm⟩

end Desk

end TradingDesk
