import TradingDesk.Proofs.Docket
import TradingDesk.Proofs.Rules
/- Proofs.Fault — the model call that faults in a look at an order.

   A look puts an order to the models that may fault only after the gates before
   them let it through (`reach?`). It makes at most four calls then, in two stages:
   for the fee and the buying power, and for the fill and its fee. `callFault?` is
   the first of these calls that faults, and a verdict is a fault exactly if there
   is one (`judge_fault_iff`). A look that meets a fault reports it, publishes the
   event that closes the order, and does nothing else (`visit_of_fault`); a look
   that meets none reports nothing (`visit_reports`).

   What calls leave in the memory is said of a part of it (`Leaves`): the whole of
   it, or the part that one of two suites keeps. -/
namespace TradingDesk

variable {α σ ρ β γ : Type} [Scalar α]

/-! ## Looks that get to the models -/

namespace Models

/-- The security with which a look puts an order to the models that may fault, and their memory. -/
def reach? (models : Models α σ) (board : Board α) (order : Order α) (now : Instant) (memory : σ) :
    Option (Snapshot α × σ) :=
  if order.waits now then none
  else match board.get? order.symbol with
    | none => none
    | some security =>
      if order.isExpired now then none
      else match models.executable security order memory with
        | (false, _) => none
        | (true, memory) => some (security, memory)

/-- A look puts the order to the models, or else holds it or closes it without a fill. Of the models
only the one that may veto has been asked by then. -/
theorem judge_cases (models : Models α σ) (board : Board α) (account : Portfolio α)
    (order : Order α) (now : Instant) (memory : σ) :
    (∃ security, board.get? order.symbol = some security ∧
      models.reach? board order now memory =
        some (security, (models.executable security order memory).2) ∧
      models.judge board account order now memory =
        models.judgeExecutable account security order now
          (models.executable security order memory).2) ∨
    (models.reach? board order now memory = none ∧
      ((models.judge board account order now memory).1 = .hold ∨ ∃ status message,
        (models.judge board account order now memory).1 =
          .close ((OrderEvent.of order now status).withMessage message)) ∧
      ((models.judge board account order now memory).2 = memory ∨ ∃ security,
        (models.judge board account order now memory).2 =
          (models.executable security order memory).2)) := by
  unfold reach? judge
  cases order.waits now with
  | true => exact .inr ⟨rfl, .inl rfl, .inl rfl⟩
  | false =>
    cases hb : board.get? order.symbol with
    | none => exact .inr ⟨rfl, .inr ⟨_, _, rfl⟩, .inl rfl⟩
    | some security =>
      cases order.isExpired now with
      | true => exact .inr ⟨rfl, .inr ⟨_, _, rfl⟩, .inl rfl⟩
      | false =>
        rcases he : models.executable security order memory with ⟨_ | _, m⟩
        · exact .inr ⟨by simp [he], .inl (by simp [he]), .inr ⟨security, by simp [he]⟩⟩
        · exact .inl ⟨security, rfl, by simp [he], by simp [he]⟩

end Models

/-! ## Memory that calls leave alone -/

/-- Whatever the call answers, it leaves a part of the memory as it was. -/
def Trial.Leaves (part : σ → ρ) (t : Trial σ β) : Prop := ∀ m, part (t m).2 = part m

namespace Trial.Leaves

variable {part : σ → ρ} {t : Trial σ β}

theorem give (b : β) : (Trial.give b : Trial σ β).Leaves part := fun _ => rfl

theorem fail (fault : Fault) : (Trial.fail fault : Trial σ β).Leaves part := fun _ => rfl

theorem andThen (h : t.Leaves part) {g : β → Trial σ γ} (hg : ∀ b, (g b).Leaves part) :
    (t.andThen g).Leaves part := by
  intro m
  have ht := h m
  unfold Trial.andThen
  split
  · next b m' he =>
    rw [he] at ht
    exact (hg b m').trans ht
  · next fault m' he =>
    rw [he] at ht
    exact ht

end Trial.Leaves

namespace Models

/-- The models other than the fill model leave a part of the memory alone. -/
structure Leave (part : σ → ρ) (models : Models α σ) : Prop where
  executable : ∀ security order m, part (models.executable security order m).2 = part m
  afford : ∀ account security order fee,
    (models.afford account security order fee).Leaves part
  charge : ∀ symbol security order price quantity,
    ((models.fees symbol).charge security order price quantity).Leaves part

namespace Leave

variable {part : σ → ρ} {models : Models α σ}

theorem fee (h : models.Leave part) (symbol : String) (security : Snapshot α) (order : Order α)
    (price quantity : α) :
    ((models.fees symbol).fee security order price quantity).Leaves part := by
  unfold FeeModel.fee
  split
  · exact .give 0
  · split
    · split
      · exact h.charge symbol security order price quantity
      · exact .give 0
    · exact h.charge symbol security order price quantity

theorem checkPower (h : models.Leave part) (account : Portfolio α) (security : Snapshot α)
    (order : Order α) : (models.checkPower account security order).Leaves part :=
  (h.fee _ _ _ _ _).andThen fun fee => h.afford account security order fee

theorem attemptFill (h : models.Leave part) {security : Snapshot α} {order : Order α}
    {now : Instant} (hfill : (models.fill.dispatch security order now).Leaves part) :
    (models.attemptFill security order now).Leaves part := by
  refine hfill.andThen fun answer => ?_
  obtain ⟨event, kind⟩ := answer
  dsimp only
  split
  · exact (h.fee _ _ _ _ _).andThen fun fee => .give _
  · exact .give _

theorem judgeExecutable (h : models.Leave part) (account : Portfolio α) {security : Snapshot α}
    {order : Order α} {now : Instant}
    (hfill : (models.fill.dispatch security order now).Leaves part) (memory : σ) :
    part (models.judgeExecutable account security order now memory).2 = part memory := by
  have hpower := h.checkPower account security order memory
  unfold Models.judgeExecutable
  rcases hp : models.checkPower account security order memory with ⟨fault | check, m⟩
  · rw [hp] at hpower
    exact hpower
  · rw [hp] at hpower
    have hattempt := h.attemptFill hfill m
    dsimp only
    split
    · unfold judgeFill
      rcases ha : models.attemptFill security order now m with ⟨fault | answer, m'⟩
      · rw [ha] at hattempt
        exact hattempt.trans hpower
      · rw [ha] at hattempt
        exact hattempt.trans hpower
    · exact hpower

theorem judge (h : models.Leave part)
    (hfill : ∀ security order now, (models.fill.dispatch security order now).Leaves part)
    (board : Board α) (account : Portfolio α) (order : Order α) (now : Instant) (memory : σ) :
    part (models.judge board account order now memory).2 = part memory := by
  rcases models.judge_cases board account order now memory with
    ⟨security, -, -, hjudge⟩ | ⟨-, -, hmemory | ⟨security, hmemory⟩⟩
  · rw [hjudge]
    exact (h.judgeExecutable account (hfill security order now) _).trans
      (h.executable security order memory)
  · rw [hmemory]
  · rw [hmemory]
    exact h.executable security order memory

end Leave

end Models

/-! ## The call that faults -/

/-- The stage of a look at which a call faults: before the fill, or at the fill. -/
inductive FaultStage where
  /-- A call for the buying power, or for the fee that goes into it. -/
  | power
  /-- A call for the fill, or for the fee of the fill. -/
  | fill
  deriving DecidableEq, Repr

/-- A fault of a call. -/
structure CallFault where
  stage : FaultStage
  fault : Fault
  deriving DecidableEq, Repr

/-- The text under which a fault is reported. -/
def CallFault.report (f : CallFault) : String :=
  match f.stage with
  | .power => powerFaultReport f.fault
  | .fill => fillFaultReport f.fault

namespace Models

/-- The first call that faults when an order is put to the models. -/
def callFault? (models : Models α σ) (account : Portfolio α) (security : Snapshot α)
    (order : Order α) (now : Instant) (memory : σ) : Option CallFault :=
  match models.checkPower account security order memory with
  | (.error fault, _) => some ⟨.power, fault⟩
  | (.ok check, memory) =>
    if check.sufficient then
      match models.attemptFill security order now memory with
      | (.error fault, _) => some ⟨.fill, fault⟩
      | (.ok _, _) => none
    else none

variable {models : Models α σ} {board : Board α} {account : Portfolio α} {order : Order α}
  {now : Instant} {memory : σ}

omit [Scalar α] in
theorem fault_verdict_iff (fault : CallFault) {report : String} :
    (Verdict.fault fault.report : Verdict α) = .fault report ↔
      ∃ met, some fault = some met ∧ report = met.report := by
  constructor
  · intro h
    exact ⟨fault, rfl, (Verdict.fault.inj h).symm⟩
  · rintro ⟨met, hmet, rfl⟩
    rw [Option.some.inj hmet]

theorem judgeExecutable_fault_iff {security : Snapshot α} {report : String} :
    (models.judgeExecutable account security order now memory).1 = .fault report ↔
      ∃ fault, models.callFault? account security order now memory = some fault ∧
        report = fault.report := by
  unfold judgeExecutable judgeFill callFault?
  rcases models.checkPower account security order memory with ⟨fault | check, m⟩
  · exact fault_verdict_iff ⟨.power, fault⟩
  · cases hs : check.sufficient with
    | false => simp [hs]
    | true =>
      simp only [hs, if_true]
      rcases models.attemptFill security order now m with ⟨fault | answer, m'⟩
      · exact fault_verdict_iff ⟨.fill, fault⟩
      · simp

/-- The first call that faults in a look at an open order. -/
def fault? (models : Models α σ) (board : Board α) (account : Portfolio α) (order : Order α)
    (now : Instant) (memory : σ) : Option CallFault :=
  (models.reach? board order now memory).bind fun (security, memory) =>
    models.callFault? account security order now memory

/-- The verdict on an order is a fault exactly if a call faults, and carries the call's report. -/
theorem judge_fault_iff {report : String} :
    (models.judge board account order now memory).1 = .fault report ↔
      ∃ fault, models.fault? board account order now memory = some fault ∧
        report = fault.report := by
  unfold fault?
  rcases models.judge_cases board account order now memory with
    ⟨security, -, hreach, hjudge⟩ | ⟨hreach, hjudge, -⟩
  · rw [hreach, hjudge]
    exact judgeExecutable_fault_iff
  · rw [hreach]
    constructor
    · intro h
      rcases hjudge with hhold | ⟨status, message, hclose⟩
      · rw [hhold] at h
        cases h
      · rw [hclose] at h
        cases h
    · rintro ⟨fault, h, -⟩
      cases h

end Models

/-! ## The look that meets a fault -/

namespace Floor

/-- The call that faults in a look at an id. -/
def faultAt? (models : Models α σ) (board : Board α) (now : Instant) (f : Floor α σ)
    (id : OrderId) : Option CallFault :=
  match f.ledger.get? id with
  | none => none
  | some order =>
    if order.status.isTerminal then none
    else models.fault? board f.account order now f.memory

variable {models : Models α σ} {board : Board α} {now : Instant} {f : Floor α σ} {id : OrderId}

/-- A look at an open order settles what is judged of it. -/
theorem visit_of_open {order : Order α} (hs : f.ledger.get? id = some order)
    (ho : order.status.isTerminal = false) :
    f.visit models board now id =
      { f with memory := (models.judge board f.account order now f.memory).2 }.settle order now
        (models.judge board f.account order now f.memory).1 := by
  simp only [visit, hs, ho, Bool.false_eq_true, if_false]

/-- A look at an id judges the open order under it, or drops the id. -/
theorem visit_cases (models : Models α σ) (board : Board α) (now : Instant) (f : Floor α σ)
    (id : OrderId) :
    (∃ order, f.ledger.get? id = some order ∧ order.status.isTerminal = false ∧
      f.faultAt? models board now id = models.fault? board f.account order now f.memory ∧
      f.visit models board now id =
        { f with memory := (models.judge board f.account order now f.memory).2 }.settle order now
          (models.judge board f.account order now f.memory).1) ∨
    (∀ order, f.ledger.get? id = some order → order.status.isTerminal = true) ∧
      f.faultAt? models board now id = none ∧
      f.visit models board now id = ({ f with ledger := f.ledger.dropPending id }, false) := by
  unfold visit faultAt?
  cases hs : f.ledger.get? id with
  | none => exact .inr ⟨fun order h => (by cases h), rfl, rfl⟩
  | some order =>
    cases ho : order.status.isTerminal with
    | true =>
      refine .inr ⟨?_, by simp [ho], by simp [ho]⟩
      rintro _ ⟨⟩
      exact ho
    | false => exact .inl ⟨order, rfl, ho, by simp [ho], by simp [ho]⟩

/-- A fault is reported and closes the order it struck, by an event that carries the report. -/
theorem visit_of_fault (hf : f.ledger.WellFiled) {fault : CallFault}
    (h : f.faultAt? models board now id = some fault) :
    ∃ order l, f.ledger.get? id = some order ∧
      f.ledger.Refiled l id (order.booked (faultEvent order now fault.report)) false ∧
      f.visit models board now id =
        (({ f with
            ledger := l
            memory := (models.judge board f.account order now f.memory).2 }.report id
          fault.report).publish (faultEvent order now fault.report), false) := by
  obtain ⟨order, hs, ho, hat, hvisit⟩ | ⟨-, hat, -⟩ := visit_cases models board now f id
  case inr =>
    rw [hat] at h
    cases h
  have hfault := hat.symm.trans h
  have hid : order.id = id := hf id order hs
  have hjudge : (models.judge board f.account order now f.memory).1 = .fault fault.report :=
    Models.judge_fault_iff.mpr ⟨fault, hfault, rfl⟩
  have he : (faultEvent order now fault.report).orderId = id := hid
  have hs' : f.ledger.get? (faultEvent order now fault.report).orderId = some order := by
    rw [he]
    exact hs
  obtain ⟨l, hl, hr⟩ := Ledger.record?_of_allows hs' (OrderStatus.allows_closing ho (.inl rfl))
  refine ⟨order, l, hs, ?_, ?_⟩
  · rw [he, Bool.and_comm] at hr
    exact hr
  · rw [hvisit, hjudge, settle, hid]
    rw [commit_of_some (f := Floor.report { f with memory := _ } id fault.report) hl]
    rfl

theorem commit_reports (f : Floor α σ) (event : OrderEvent α) :
    (f.commit event).1.reports = f.reports := by
  unfold commit
  split <;> rfl

theorem settle_reports (f : Floor α σ) (order : Order α) (now : Instant) {verdict : Verdict α}
    (h : ∀ report, verdict ≠ .fault report) :
    (f.settle order now verdict).1.reports = f.reports := by
  cases verdict with
  | hold => rfl
  | close event => exact f.commit_reports event
  | fault report => exact absurd rfl (h report)
  | answer event kind =>
    simp only [settle]
    split
    · rfl
    · exact commit_reports _ event

/-- A look reports the fault that it meets under the id, and nothing else. -/
theorem visit_reports (models : Models α σ) (board : Board α) (now : Instant) (f : Floor α σ)
    (id : OrderId) (hf : f.ledger.WellFiled) :
    (f.visit models board now id).1.reports =
      f.reports ++ (f.faultAt? models board now id).toList.map fun fault => (id, fault.report) := by
  cases h : f.faultAt? models board now id with
  | some fault =>
    obtain ⟨order, l, -, -, hvisit⟩ := visit_of_fault hf h
    rw [hvisit]
    rfl
  | none =>
    rw [Option.toList_none, List.map_nil, List.append_nil]
    rcases visit_cases models board now f id with ⟨order, hs, ho, hat, hvisit⟩ | ⟨-, -, hvisit⟩
    · rw [hvisit]
      apply settle_reports
      intro report hreport
      obtain ⟨fault, hfault, -⟩ := Models.judge_fault_iff.mp hreport
      rw [← hat, h] at hfault
      cases hfault
    · rw [hvisit]

end Floor

end TradingDesk
