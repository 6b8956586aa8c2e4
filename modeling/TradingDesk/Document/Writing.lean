import TradingDesk.Document.Basic
/- Document.Writing — the text of a document.

   Documents are written without blanks, the entries of an object in their
   order. In a string only quotes, backslashes and control characters are
   escaped. -/
namespace TradingDesk

namespace Document

/-- The characters of a lower-case hexadecimal digit. -/
def hexDigit (n : Nat) : Char := (Nat.toDigits 16 n).headD '0'

/-- The characters that stand for one character of a string. -/
def escape (c : Char) : List Char :=
  if c = '"' then ['\\', '"']
  else if c = '\\' then ['\\', '\\']
  else if c = '\n' then ['\\', 'n']
  else if c = '\r' then ['\\', 'r']
  else if c = '\t' then ['\\', 't']
  else if c.toNat = 8 then ['\\', 'b']
  else if c.toNat = 12 then ['\\', 'f']
  else if c.toNat < 32 then
    ['\\', 'u', '0', '0', hexDigit (c.toNat / 16), hexDigit (c.toNat % 16)]
  else [c]

/-- The characters of a string with its quotes. What is no text is written as the empty string. -/
def quoted (s : Option String) : List Char :=
  '"' :: ((s.getD "").toList.flatMap escape ++ ['"'])

/-- Lists of characters with commas between them. -/
def commaSeparated : List (List Char) → List Char
  | [] => []
  | [cs] => cs
  | cs :: rest => cs ++ ',' :: commaSeparated rest

mutual

def chars : Document → List Char
  | .null => ['n', 'u', 'l', 'l']
  | .bool true => ['t', 'r', 'u', 'e']
  | .bool false => ['f', 'a', 'l', 's', 'e']
  | .number n => n.chars
  | .string s => quoted s
  | .array items => '[' :: (commaSeparated (itemChars items) ++ [']'])
  | .object entries => '\x7b' :: (commaSeparated (entryChars entries) ++ ['\x7d'])

def itemChars : List Document → List (List Char)
  | [] => []
  | d :: rest => d.chars :: itemChars rest

def entryChars : List (Option String × Document) → List (List Char)
  | [] => []
  | (key, d) :: rest => (quoted key ++ ':' :: d.chars) :: entryChars rest

end

def write (d : Document) : String := String.ofList d.chars

end Document

end TradingDesk
