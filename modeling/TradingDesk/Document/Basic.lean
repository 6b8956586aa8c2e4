import TradingDesk.Decimal.Numeral
/- Document.Basic — the tree of a JSON document.

   Orders, events, snapshots and settings are kept in JSON documents. A document
   is read in two steps: its text becomes the tree below, and the tree becomes a
   value of the desk. The tree keeps what the second step has to decide: the
   digits of a number as written, repeated keys, and whether a string is Unicode
   text at all. -/
namespace TradingDesk

open Decimal

/-- The tree of a JSON document. A string is `none` when it holds half a surrogate pair, and so
writes no Unicode text. -/
inductive Document where
  | null
  | bool (b : Bool)
  | number (n : Numeral)
  | string (s : Option String)
  | array (items : List Document)
  | object (entries : List (Option String × Document))
  deriving Repr

namespace Document

/-- A string that is Unicode text. -/
def text (s : String) : Document := .string (some s)

def record (fields : List (String × Document)) : Document :=
  .object (fields.map fun f => (some f.1, f.2))

/-- A value that may be missing, which is then null. -/
def option {β : Type} (write : β → Document) : Option β → Document
  | some b => write b
  | none => .null

def list {β : Type} (write : β → Document) (bs : List β) : Document := .array (bs.map write)

end Document

end TradingDesk
