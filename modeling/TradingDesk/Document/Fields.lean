import TradingDesk.Document.Number
/- Document.Fields — records in documents.

   A record is written as an object under the names of its fields. It may be
   read from an object in any order, where names that are not fields are passed
   over and no field may come twice, or from an array that gives the fields in
   their order. A field that has a default may be missing from either; a field
   whose value is optional may be missing from an object. -/
namespace TradingDesk

/-- The fields of a record as found in a document. -/
structure Fields where
  /-- Whether they were given by position. -/
  positional : Bool
  values : List (String × Document)

namespace Fields

/-- The entries of an object under the given names, in their order, if every key is text and no
name comes twice. -/
def named (names : List String) :
    List (Option String × Document) → Option (List (String × Document))
  | [] => some []
  | (none, _) :: _ => none
  | (some key, d) :: rest =>
    match named names rest with
    | none => none
    | some found =>
      if names.contains key then
        if found.any (·.1 == key) then none else some ((key, d) :: found)
      else some found

/-- The fields of a document that has a record with the given names. -/
def of? (names : List String) : Document → Option Fields
  | .object entries => (named names entries).map (⟨false, ·⟩)
  | .array items =>
    if items.length ≤ names.length then some ⟨true, names.zip items⟩ else none
  | _ => none

/-- A field that has to be there. -/
def required {β : Type} (f : Fields) (name : String) (read : Document → Option β) : Option β :=
  (f.values.lookup name).bind read

/-- A field that may be missing, and is then the default. -/
def defaulted {β : Type} (f : Fields) (name : String) (default : β)
    (read : Document → Option β) : Option β :=
  match f.values.lookup name with
  | some d => read d
  | none => some default

/-- A field whose value may be null, or missing where fields are given by name. -/
def optional {β : Type} (f : Fields) (name : String) (read : Document → Option β) :
    Option (Option β) :=
  match f.values.lookup name with
  | some d => d.option? read
  | none => if f.positional then none else some none

end Fields

end TradingDesk
