import TradingDesk.Document.Basic
import TradingDesk.Decimal.Layout
import TradingDesk.Decimal.Reading
/- Document.Number — the numbers of a document.

   Floating-point numbers are written with the fewest digits that say them. A
   number beyond the range of floating point is refused; one too small to tell
   from zero is zero. Where a whole number is wanted, one written with a point
   or an exponent will not do. -/
namespace TradingDesk

open Decimal

namespace Document

def natural (n : Nat) : Document := .number (Numeral.ofNat n)

/-- A floating-point number in a document: null if it is not finite. -/
def float (x : Float) : Document :=
  match Binary64.ofBits x.toBits with
  | .finite negative significand exponent =>
    .number (Layout.document.numeral negative significand exponent)
  | .notANumber | .infinite _ => .null

def float? : Document → Option Float
  | .number n => n.float?
  | _ => none

/-- The natural number of a document, below `bound`. -/
def natural? (bound : Nat) : Document → Option Nat
  | .number n => n.natural? bound
  | _ => none

def bool? : Document → Option Bool
  | .bool b => some b
  | _ => none

def text? : Document → Option String
  | .string s => s
  | _ => none

def list? {β : Type} (read : Document → Option β) : Document → Option (List β)
  | .array items => items.mapM read
  | _ => none

def option? {β : Type} (read : Document → Option β) : Document → Option (Option β)
  | .null => some none
  | d => (read d).map some

end Document

end TradingDesk
