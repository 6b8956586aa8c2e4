/- Decimal.Numeral — a written decimal number.

   A numeral is the text of a number cut into its parts: sign, whole digits,
   an optional fraction and an optional power of ten. The layouts produce
   numerals, the document reader recognises them, and both leave the digits as
   written. -/
namespace TradingDesk.Decimal

def digitValue (c : Char) : Nat := c.toNat - '0'.toNat

def digitsNat (ds : List Char) : Nat := ds.foldl (fun n d => 10 * n + digitValue d) 0

/-- The sign before the digits of an exponent. -/
inductive ExponentSign where
  | bare
  | plus
  | minus
  deriving DecidableEq, Repr

/-- The power of ten of a numeral. -/
structure Exponent where
  /-- Whether the mark is a capital letter. -/
  capital : Bool
  sign : ExponentSign
  digits : List Char
  deriving DecidableEq, Repr

structure Numeral where
  negative : Bool
  whole : List Char
  fraction : Option (List Char)
  exponent : Option Exponent
  deriving DecidableEq, Repr

def Exponent.chars (e : Exponent) : List Char :=
  let sign := match e.sign with
    | .bare => []
    | .plus => ['+']
    | .minus => ['-']
  (if e.capital then 'E' else 'e') :: sign ++ e.digits

def Numeral.chars (n : Numeral) : List Char :=
  let sign := if n.negative then ['-'] else []
  let fraction := match n.fraction with
    | some digits => '.' :: digits
    | none => []
  let exponent := match n.exponent with
    | some e => e.chars
    | none => []
  sign ++ n.whole ++ fraction ++ exponent

def Numeral.text (n : Numeral) : String := String.ofList n.chars

end TradingDesk.Decimal
