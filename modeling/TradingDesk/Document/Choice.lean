import TradingDesk.Document.Fields
/- Document.Choice — alternatives in documents.

   An alternative without content is written as its name. One that is marked by
   a tag is an object with the alternative's name under the tag, which may stand
   anywhere in it, and the alternative's fields; or an array with the name first.
   Whatever stands beside a tag is held until the tag is known, and so has to be
   sound: numbers in range, strings that are text, and no deeper nesting than a
   reader holds. -/
namespace TradingDesk

namespace Document

/-- How deep a document that is held may be nested, counted from the outermost value. -/
def nestingBound : Nat := 127

mutual

/-- Whether a value can be held where `room` more levels of nesting fit. -/
def isSound (room : Nat) : Document → Bool
  | .null => true
  | .bool _ => true
  | .number n => n.float?.isSome
  | .string s => s.isSome
  | .array items => decide (0 < room) && areSound (room - 1) items
  | .object entries => decide (0 < room) && areSoundEntries (room - 1) entries

def areSound (room : Nat) : List Document → Bool
  | [] => true
  | d :: rest => isSound room d && areSound room rest

def areSoundEntries (room : Nat) : List (Option String × Document) → Bool
  | [] => true
  | (key, d) :: rest => key.isSome && isSound room d && areSoundEntries room rest

end

/-- The name of an alternative without content: the name alone, or as the only key of an object
with the value null. -/
def choiceName? : Document → Option String
  | .string s => s
  | .object [(key, .null)] => key
  | _ => none

/-- The name under a tag among the entries of an object, and the other entries. The tag may not
come twice. -/
def splitTag (tag : String) :
    List (Option String × Document) →
      Option (Option String × List (Option String × Document))
  | [] => some (none, [])
  | (key, d) :: rest =>
    match splitTag tag rest with
    | none => none
    | some (found, others) =>
      if key = some tag then
        match found, d.text? with
        | none, some name => some (some name, others)
        | _, _ => none
      else some (found, (key, d) :: others)

/-- The alternative of a tagged document that stands inside `enclosing` levels, and what stands
beside its tag. -/
def tagged? (tag : String) (enclosing : Nat) : Document → Option (String × Document)
  | .object entries =>
    match splitTag tag entries with
    | some (some name, others) =>
      if areSoundEntries (nestingBound - (enclosing + 1)) others then some (name, .object others)
      else none
    | _ => none
  | .array (d :: items) =>
    match d.text? with
    | some name =>
      if areSound (nestingBound - (enclosing + 1)) items then some (name, .array items) else none
    | none => none
  | _ => none

/-- Whether what stands beside a tag suits an alternative without fields: any entries, or no
items. -/
def isBare : Document → Bool
  | .object _ => true
  | .array items => items.isEmpty
  | _ => false

end Document

end TradingDesk
