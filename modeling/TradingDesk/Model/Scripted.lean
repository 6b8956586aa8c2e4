import TradingDesk.Model.Suite
/- Model.Scripted — models that follow a script of incidents.

   A script rehearses what models of the user might do: report an error, crash,
   or answer something of their own, on chosen calls. An incident names the
   calls it looks at and, by a count of those calls, on which of them it
   strikes. On a call the incidents are tried in turn, and the first that
   strikes decides; if none does, the model underneath answers. -/
namespace TradingDesk

/-- The model calls that incidents look at. -/
inductive CallSite where
  | fill
  | power
  | fee
  | execution
  deriving DecidableEq, Repr

/-- What an incident makes a call do. -/
inductive IncidentAct (α : Type) where
  | fault (fault : Fault)
  /-- A fill attempt answers with this status and fill. -/
  | answerFill (status : OrderStatus) (price quantity : α) (message : Option String)
  | answerPower (check : PowerCheck α)
  | answerFee (fee : α)
  | answerExecution (allowed : Bool)
  deriving DecidableEq, Repr

/-- Something that happens on chosen model calls. -/
structure Incident (α : Type) where
  site : CallSite
  /-- The symbol looked at; any if there is none. -/
  symbol : Option String
  /-- How many calls pass before it strikes. -/
  skip : Nat
  /-- How many calls it strikes; all further ones if there is none. -/
  count : Option Nat
  act : IncidentAct α
  deriving DecidableEq, Repr

namespace Incident

variable {α : Type}

/-- Whether the incident looks at a call. -/
def looksAt (i : Incident α) (site : CallSite) (symbol : String) : Bool :=
  i.site == site && i.symbol.all (· == symbol)

/-- Whether the incident strikes on the call with this number, counted from zero. -/
def strikes (i : Incident α) (call : Nat) : Bool :=
  decide (i.skip ≤ call) && i.count.all fun count => decide (call < i.skip + count)

end Incident

/-- The incidents of a script, each with how many calls it has looked at. -/
abbrev Script (α : Type) := List (Incident α × Nat)

/-- A script before any call. -/
def Script.ofIncidents {α : Type} (incidents : List (Incident α)) : Script α :=
  incidents.map fun i => (i, 0)

/-- The act that a call meets with, if any, and the script with the call counted by the incidents
that were tried. -/
def Script.meet {α : Type} (site : CallSite) (symbol : String) :
    Script α → Option (IncidentAct α) × Script α
  | [] => (none, [])
  | (i, calls) :: rest =>
    if i.looksAt site symbol then
      if i.strikes calls then (some i.act, (i, calls + 1) :: rest)
      else
        let (act, rest) := Script.meet site symbol rest
        (act, (i, calls + 1) :: rest)
    else
      let (act, rest) := Script.meet site symbol rest
      (act, (i, calls) :: rest)

/-- The memory of scripted models: that of the models underneath, and the script. -/
structure Rehearsal (α σ : Type) where
  memory : σ
  script : Script α

namespace Rehearsal

variable {α σ β : Type}

/-- A call of the models underneath. -/
def below (t : Trial σ β) : Trial (Rehearsal α σ) β := fun r =>
  let (answer, memory) := t r.memory
  (answer, { r with memory := memory })

/-- A call that meets with the script first. An act that is no answer to such a call is passed
over. -/
def call (site : CallSite) (symbol : String) (answer : IncidentAct α → Option β)
    (t : Trial σ β) : Trial (Rehearsal α σ) β := fun r =>
  let (act, script) := Script.meet site symbol r.script
  let r := { r with script := script }
  match act with
  | none => below t r
  | some (.fault fault) => (.error fault, r)
  | some act =>
    match answer act with
    | some b => (.ok b, r)
    | none => below t r

variable [Scalar α]

/-- The event with which an act answers a fill attempt. -/
def fillAnswer (order : Order α) (now : Instant) : IncidentAct α → Option (OrderEvent α)
  | .answerFill status price quantity message =>
    some { (OrderEvent.of order now status).withFill price quantity with message := message }
  | _ => none

/-- A fill attempt that meets with the script first. -/
def attempt (order : Order α) (now : Instant) (t : Trial σ (OrderEvent α)) :
    Trial (Rehearsal α σ) (OrderEvent α) :=
  call .fill order.symbol (fillAnswer order now) t

end Rehearsal

variable {α σ : Type} [Scalar α]

/-- A fill model whose calls meet with the script first. -/
def FillModel.scripted (model : FillModel α σ) : FillModel α (Rehearsal α σ) where
  market security order now := Rehearsal.attempt order now (model.market security order now)
  limit security order price now := Rehearsal.attempt order now (model.limit security order price now)
  stopMarket security order stop now :=
    Rehearsal.attempt order now (model.stopMarket security order stop now)
  stopLimit security order now :=
    Rehearsal.call .fill order.symbol
      (fun act => (Rehearsal.fillAnswer order now act).map fun event => (event, order.kind))
      (model.stopLimit security order now)
  marketOnOpen security order now :=
    Rehearsal.attempt order now (model.marketOnOpen security order now)
  marketOnClose security order now :=
    Rehearsal.attempt order now (model.marketOnClose security order now)

/-- The answer of an act to a buying power check. -/
def IncidentAct.power? : IncidentAct α → Option (PowerCheck α)
  | .answerPower check => some check
  | _ => none

/-- The answer of an act to a question for a fee. -/
def IncidentAct.fee? : IncidentAct α → Option α
  | .answerFee fee => some fee
  | _ => none

/-- A fee model whose calls meet with the script first. -/
def FeeModel.scripted (symbol : String) (model : FeeModel α σ) : FeeModel α (Rehearsal α σ) where
  schedule := model.schedule
  charge security order price quantity :=
    Rehearsal.call .fee symbol IncidentAct.fee? (model.charge security order price quantity)

/-- Models whose calls meet with the script first. -/
def Models.scripted (models : Models α σ) : Models α (Rehearsal α σ) where
  executable security order r :=
    match Script.meet .execution order.symbol r.script with
    | (some (.answerExecution allowed), script) => (allowed, { r with script := script })
    | (_, script) =>
      let (allowed, memory) := models.executable security order r.memory
      (allowed, ⟨memory, script⟩)
  afford account security order fee :=
    Rehearsal.call .power order.symbol IncidentAct.power? (models.afford account security order fee)
  fill := models.fill.scripted
  fees symbol := (models.fees symbol).scripted symbol

end TradingDesk
