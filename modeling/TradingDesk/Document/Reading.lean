import TradingDesk.Document.Basic
/- Document.Reading — a document from its text.

   The grammar is that of JSON: blanks are the space, tab and line ends, numbers
   have no leading zeros and no bare point, strings hold no control characters,
   and nothing follows the value. Reading decides the form alone; what a number
   amounts to is decided where a value is made of it. -/
namespace TradingDesk

open Decimal

namespace Document

/-- Whether a character may stand between the parts of a document. -/
def isSpace (c : Char) : Bool := c == ' ' || c == '\t' || c == '\n' || c == '\r'

/-- What is left of a text after blanks. -/
def skipSpace (cs : List Char) : List Char := cs.dropWhile isSpace

/-! ## Numbers -/

/-- A run of digits, at least one, and what follows it. -/
def digits (cs : List Char) : Option (List Char × List Char) :=
  let ds := cs.takeWhile Char.isDigit
  if ds.isEmpty then none else some (ds, cs.dropWhile Char.isDigit)

/-- The digits before the point: a zero alone, or digits that start with none. -/
def wholeDigits (cs : List Char) : Option (List Char × List Char) :=
  match digits cs with
  | some ('0' :: _ :: _, _) => none
  | r => r

def fractionDigits (cs : List Char) : Option (Option (List Char) × List Char) :=
  match cs with
  | '.' :: rest => (digits rest).map fun (ds, rest) => (some ds, rest)
  | rest => some (none, rest)

/-- The sign and digits of an exponent. -/
def signedDigits (capital : Bool) (cs : List Char) : Option (Option Exponent × List Char) :=
  let (sign, cs) : ExponentSign × List Char := match cs with
    | '+' :: rest => (.plus, rest)
    | '-' :: rest => (.minus, rest)
    | rest => (.bare, rest)
  (digits cs).map fun (ds, rest) => (some ⟨capital, sign, ds⟩, rest)

def exponent (cs : List Char) : Option (Option Exponent × List Char) :=
  match cs with
  | 'e' :: rest => signedDigits false rest
  | 'E' :: rest => signedDigits true rest
  | rest => some (none, rest)

def numeral (cs : List Char) : Option (Numeral × List Char) := do
  let (negative, cs) := match cs with
    | '-' :: rest => (true, rest)
    | rest => (false, rest)
  let (whole, cs) ← wholeDigits cs
  let (fraction, cs) ← fractionDigits cs
  let (power, cs) ← exponent cs
  some (⟨negative, whole, fraction, power⟩, cs)

/-! ## Strings -/

/-- A part of a string as written: a character, or a UTF-16 unit in hexadecimal digits. -/
inductive Piece where
  | char (c : Char)
  | unit (n : Nat)
  deriving DecidableEq, Repr

def hexValue? (c : Char) : Option Nat :=
  if c.isDigit then some (c.toNat - '0'.toNat)
  else if 'a' ≤ c ∧ c ≤ 'f' then some (c.toNat - 'a'.toNat + 10)
  else if 'A' ≤ c ∧ c ≤ 'F' then some (c.toNat - 'A'.toNat + 10)
  else none

def hexQuad? (a b c d : Char) : Option Nat := do
  let a ← hexValue? a
  let b ← hexValue? b
  let c ← hexValue? c
  let d ← hexValue? d
  some (((a * 16 + b) * 16 + c) * 16 + d)

/-- The character that a letter after a backslash stands for. -/
def unescape? (c : Char) : Option Char :=
  if c = '"' ∨ c = '\\' ∨ c = '/' then some c
  else if c = 'b' then some '\x08'
  else if c = 'f' then some '\x0c'
  else if c = 'n' then some '\n'
  else if c = 'r' then some '\r'
  else if c = 't' then some '\t'
  else none

/-- The pieces of a string up to its closing quote, and what follows it. -/
def pieces : List Char → Option (List Piece × List Char)
  | [] => none
  | '"' :: rest => some ([], rest)
  | '\\' :: 'u' :: a :: b :: c :: d :: rest =>
    match hexQuad? a b c d, pieces rest with
    | some n, some (ps, rest) => some (.unit n :: ps, rest)
    | _, _ => none
  | '\\' :: c :: rest =>
    match unescape? c, pieces rest with
    | some c, some (ps, rest) => some (.char c :: ps, rest)
    | _, _ => none
  | c :: rest =>
    if c.toNat < 32 ∨ c = '\\' then none
    else (pieces rest).map fun (ps, rest) => (.char c :: ps, rest)

/-- Whether a UTF-16 unit is the first half of a pair. -/
def isHighHalf (n : Nat) : Bool := decide (0xD800 ≤ n) && decide (n < 0xDC00)

/-- Whether a UTF-16 unit is the second half of a pair. -/
def isLowHalf (n : Nat) : Bool := decide (0xDC00 ≤ n) && decide (n < 0xE000)

/-- The characters of the pieces of a string; none if half of a pair stands alone. -/
def joinPieces : List Piece → Option (List Char)
  | [] => some []
  | .char c :: rest => (joinPieces rest).map (c :: ·)
  | .unit n :: .unit m :: rest =>
    if isHighHalf n then
      if isLowHalf m then
        (joinPieces rest).map (Char.ofNat (0x10000 + (n - 0xD800) * 0x400 + (m - 0xDC00)) :: ·)
      else none
    else if isLowHalf n then none
    else (joinPieces (.unit m :: rest)).map (Char.ofNat n :: ·)
  | .unit n :: rest =>
    if isHighHalf n || isLowHalf n then none
    else (joinPieces rest).map (Char.ofNat n :: ·)

/-- A string after its opening quote. -/
def stringBody (cs : List Char) : Option (Option String × List Char) :=
  (pieces cs).map fun (ps, rest) => ((joinPieces ps).map String.ofList, rest)

/-! ## Values -/

mutual

def value : Nat → List Char → Option (Document × List Char)
  | 0, _ => none
  | fuel + 1, cs =>
    match skipSpace cs with
    | 'n' :: 'u' :: 'l' :: 'l' :: rest => some (.null, rest)
    | 't' :: 'r' :: 'u' :: 'e' :: rest => some (.bool true, rest)
    | 'f' :: 'a' :: 'l' :: 's' :: 'e' :: rest => some (.bool false, rest)
    | '"' :: rest => (stringBody rest).map fun (s, rest) => (.string s, rest)
    | '[' :: rest =>
      match skipSpace rest with
      | ']' :: rest => some (.array [], rest)
      | rest => (items fuel rest).map fun (ds, rest) => (.array ds, rest)
    | '\x7b' :: rest =>
      match skipSpace rest with
      | '\x7d' :: rest => some (.object [], rest)
      | rest => (entries fuel rest).map fun (es, rest) => (.object es, rest)
    | rest => (numeral rest).map fun (n, rest) => (.number n, rest)

/-- The items of an array up to its closing bracket, at least one. -/
def items : Nat → List Char → Option (List Document × List Char)
  | 0, _ => none
  | fuel + 1, cs =>
    match value fuel cs with
    | none => none
    | some (d, rest) =>
      match skipSpace rest with
      | ']' :: rest => some ([d], rest)
      | ',' :: rest => (items fuel rest).map fun (ds, rest) => (d :: ds, rest)
      | _ => none

/-- The entries of an object up to its closing brace, at least one. -/
def entries : Nat → List Char → Option (List (Option String × Document) × List Char)
  | 0, _ => none
  | fuel + 1, cs =>
    match skipSpace cs with
    | '"' :: rest =>
      match stringBody rest with
      | none => none
      | some (key, rest) =>
        match skipSpace rest with
        | ':' :: rest =>
          match value fuel rest with
          | none => none
          | some (d, rest) =>
            match skipSpace rest with
            | '\x7d' :: rest => some ([(key, d)], rest)
            | ',' :: rest => (entries fuel rest).map fun (es, rest) => ((key, d) :: es, rest)
            | _ => none
        | _ => none
    | _ => none

end

/-- The document that a list of characters writes. Every step down a level or along a list takes
a character, and no level takes more than two steps, so the fuel is never short. -/
def ofChars? (cs : List Char) : Option Document :=
  match value (2 * cs.length + 2) cs with
  | some (d, rest) => if (skipSpace rest).isEmpty then some d else none
  | none => none

def read? (text : String) : Option Document := ofChars? text.toList

end Document

end TradingDesk
