/- Model.Trial — calls of models that may fault.

   Fill, fee and buying power models may be supplied by the user of a desk. A
   call of one gives a value, reports an error or crashes; whatever it does, it
   may leave the memory the models share changed. A desk takes both kinds of
   fault as values and carries on. -/
namespace TradingDesk

/-- How a model failed to answer. -/
inductive Fault where
  /-- It reported an error; the causes run from the outermost to the innermost. -/
  | error (causes : List String)
  /-- It crashed, with a message where one is known. -/
  | crash (message : Option String)
  deriving DecidableEq, Repr

/-- The fault in words. -/
def Fault.text : Fault → String
  | .error causes => ": ".intercalate causes
  | .crash message => "panicked: " ++ message.getD "unknown panic payload"

/-- A call of a model with memory `σ`: a value or a fault, and the memory after it. -/
abbrev Trial (σ β : Type) := σ → Except Fault β × σ

namespace Trial

variable {σ τ β γ : Type}

/-- The call that gives a value and leaves the memory alone. -/
def give (b : β) : Trial σ β := fun m => (.ok b, m)

/-- The call that faults and leaves the memory alone. -/
def fail (fault : Fault) : Trial σ β := fun m => (.error fault, m)

/-- Two calls in turn; a fault of the first is the fault of both. -/
def andThen (t : Trial σ β) (f : β → Trial σ γ) : Trial σ γ := fun m =>
  match t m with
  | (.ok b, m) => f b m
  | (.error fault, m) => (.error fault, m)

/-- A call of models that keep the first of two memories. -/
def onFirst (t : Trial σ β) : Trial (σ × τ) β := fun m =>
  let (answer, first) := t m.1
  (answer, (first, m.2))

/-- A call of models that keep the second of two memories. -/
def onSecond (t : Trial τ β) : Trial (σ × τ) β := fun m =>
  let (answer, second) := t m.2
  (answer, (m.1, second))

end Trial

end TradingDesk
