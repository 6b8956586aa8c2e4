import TradingDesk.Proofs.FillStage
import TradingDesk.Proofs.Interleaving
/- Proofs.Relog — nothing reads the log.

   A pass decides by the ledger, the account, the board and the memory of the models. It
   adds to the log and never looks at it (`Floor.pass_relog`). So desks that differ in
   their logs only, and there not in the events of any one order, cannot be told apart by
   what ignores the log: they agree afterwards, and the same was published on both
   (`IgnoresLog.agrees`). -/
namespace TradingDesk

variable {α σ : Type}

/-- The events of an order are those with its id. -/
theorem eventsOf_eq (log : List (OrderEvent α)) (id : OrderId) :
    eventsOf log id = ofKey OrderEvent.orderId id log := rfl

/-! ## Looks -/

namespace Floor

/-- The floor with another log. -/
def relog (f : Floor α σ) (log : List (OrderEvent α)) : Floor α σ := { f with log := log }

variable [Scalar α]

/-- A look does not read the log, but only adds to it. -/
theorem visit_relog (models : Models α σ) (board : Board α) (now : Instant) (f : Floor α σ)
    (id : OrderId) :
    ∃ f' published needed, ∀ log,
      (relog f log).visit models board now id = (relog f' (log ++ published), needed) := by
  by_cases hopen : ∃ order, f.ledger.get? id = some order ∧ order.status.isTerminal = false
  · obtain ⟨order, hs, ho⟩ := hopen
    obtain ⟨l, a, published, reported, again, hsettle⟩ := settle_determined (σ := σ) f.ledger
      f.account order now (models.judge board f.account order now f.memory).1
    refine ⟨⟨l, a, (models.judge board f.account order now f.memory).2, [], f.reports ++ reported⟩,
      published, again, fun log => ?_⟩
    rw [visit_of_open (f := f.relog log) hs ho]
    exact hsettle _ rfl rfl
  · refine ⟨{ f with ledger := f.ledger.dropPending id }, [], false, fun log => ?_⟩
    obtain ⟨order, hs, ho, -⟩ | ⟨-, -, hvisit⟩ := (f.relog log).visit_cases models board now id
    · exact absurd ⟨order, hs, ho⟩ hopen
    · rw [hvisit, List.append_nil]
      rfl

theorem visitAll_relog (models : Models α σ) (board : Board α) (now : Instant)
    (ids : List OrderId) (f : Floor α σ) :
    ∃ f' published needed, ∀ log,
      (relog f log).visitAll models board now ids = (relog f' (log ++ published), needed) := by
  induction ids generalizing f with
  | nil =>
    refine ⟨f, [], false, fun log => ?_⟩
    rw [List.append_nil]
    rfl
  | cons id ids ih =>
    obtain ⟨f₁, first, needed, hvisit⟩ := f.visit_relog models board now id
    obtain ⟨f₂, others, again, hrest⟩ := ih f₁
    refine ⟨f₂, first ++ others, needed || again, fun log => ?_⟩
    rw [visitAll_cons, hvisit, hrest, List.append_assoc]

theorem pass_relog (models : Models α σ) (board : Board α) (now : Instant) (f : Floor α σ) :
    ∃ f' published needed, ∀ log,
      (relog f log).pass models board now = (relog f' (log ++ published), needed) :=
  f.visitAll_relog models board now f.ledger.pendingIds

end Floor

/-! ## Desks that differ in their logs -/

namespace Desk

variable {d d' : Desk α σ}

/-- The desk with another log. -/
def relog (d : Desk α σ) (log : List (OrderEvent α)) : Desk α σ := { d with log := log }

/-- The desks differ in their logs only, and there not in the events of one order. -/
structure Agrees (d d' : Desk α σ) : Prop where
  same : d' = d.relog d'.log
  events : ∀ id, eventsOf d'.log id = eventsOf d.log id

namespace Agrees

theorem refl (d : Desk α σ) : d.Agrees d := ⟨rfl, fun _ => rfl⟩

theorem trans {d'' : Desk α σ} (h : d.Agrees d') (h' : d'.Agrees d'') : d.Agrees d'' := by
  refine ⟨?_, fun id => (h'.events id).trans (h.events id)⟩
  rw [h'.same, h.same]
  rfl

end Agrees

/-- What is done with a desk does not read the log, but only adds to it. -/
def IgnoresLog (f : Desk α σ → Desk α σ) : Prop :=
  ∀ d, ∃ d' published, ∀ log, f (relog d log) = relog d' (log ++ published)

namespace IgnoresLog

variable {f g : Desk α σ → Desk α σ}

/-- What does not touch the log does not read it, if it is the same on a desk with another log. -/
theorem of_relog (h : ∀ d log, f (relog d log) = (f d).relog log) : IgnoresLog f := by
  intro d
  refine ⟨f d, [], fun log => ?_⟩
  rw [h, List.append_nil]

theorem comp (hf : IgnoresLog f) (hg : IgnoresLog g) : IgnoresLog fun d => g (f d) := by
  intro d
  obtain ⟨d₁, first, h₁⟩ := hf d
  obtain ⟨d₂, second, h₂⟩ := hg d₁
  refine ⟨d₂, first ++ second, fun log => ?_⟩
  show g (f (d.relog log)) = _
  rw [h₁, h₂, List.append_assoc]

/-- Desks that agree do so afterwards, and the same was published. -/
theorem agrees (hf : IgnoresLog f) (h : d.Agrees d') :
    (f d).Agrees (f d') ∧
      ∃ published, (f d).log = d.log ++ published ∧ (f d').log = d'.log ++ published := by
  obtain ⟨e, published, he⟩ := hf d
  have hd : f d = e.relog (d.log ++ published) := he d.log
  have hd' : f d' = e.relog (d'.log ++ published) := by
    rw [h.same]
    exact he d'.log
  rw [hd, hd']
  refine ⟨⟨rfl, fun id => ?_⟩, published, rfl, rfl⟩
  have hevents := h.events id
  show eventsOf (d'.log ++ published) id = eventsOf (d.log ++ published) id
  rw [eventsOf_eq, eventsOf_eq] at hevents ⊢
  rw [ofKey_append, ofKey_append, hevents]

end IgnoresLog

theorem scan_ignoresLog [Scalar α] (models : Models α σ) (now : Instant) :
    IgnoresLog fun d : Desk α σ => d.scan models now := by
  intro d
  cases hneeds : d.needsPass with
  | false =>
    refine ⟨{ d with needsPass := false, time := some now }, [], fun log => ?_⟩
    have hneeds' : (d.relog log).needsPass = false := hneeds
    simp only [scan, hneeds', Bool.false_eq_true, if_false, List.append_nil]
    rfl
  | true =>
    obtain ⟨f, published, again, hpass⟩ := d.toFloor.pass_relog models d.board now
    refine ⟨{ d with toFloor := f, needsPass := again, time := some now }, published,
      fun log => ?_⟩
    have hneeds' : (d.relog log).needsPass = true := hneeds
    have hpass' : (d.relog log).toFloor.pass models (d.relog log).board now = _ := hpass log
    simp only [scan, hneeds', if_true, hpass']
    rfl

end Desk

end TradingDesk
