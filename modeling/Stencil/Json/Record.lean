import Stencil.Json.Basic

/-!
# Records

A record is written as an object with named fields, of which unknown ones are ignored, or as the
array of its fields in their order. A tagged record has its tag in a named field, or first in the
array. A tag, or another word of a fixed list, has more than one spelling inside a record.
-/

namespace Stencil.Json

/-- A word, alone or as the only key of an object that has no value there. -/
def word? : Json → Option String
  | .string word => some word
  | .object [(word, .null)] => some word
  | _ => none

/-- A word in a field of a record, where an empty object is no value either. -/
def fieldWord? : Json → Option String
  | .object [(word, .object [])] => some word
  | v => v.word?

/-- A word of a list, or its place in the list. -/
def placedWord? (words : List String) : Json → Option String
  | .string word => some word
  | .number (.int (.ofNat place)) => words[place]?
  | _ => none

inductive Record where
  | named (fields : Fields)
  | listed (items : List Json)

namespace Record

def ofJson? : Json → Option Record
  | .object fields => some (.named fields)
  | .array items => some (.listed items)
  | _ => none

/-- The tag under a name, as `tag?` reads it, with the record of the other fields. -/
def tagged? (tag? : Json → Option String) (name : String) : Record → Option (String × Record)
  | .named fields => do some (← tag? (← fields.lookup name), .named fields)
  | .listed (tag :: items) => do some (← tag? tag, .listed items)
  | .listed [] => none

/-- The field with a name and a place in the order. -/
def field? (r : Record) (place : Nat) (name : String) : Option Json :=
  match r with
  | .named fields => fields.lookup name
  | .listed items => items[place]?

def text? (r : Record) (place : Nat) (name : String) : Option String := do
  (← r.field? place name).string?

/-- The record, if it lists no more than `size` fields. -/
def within? (r : Record) (size : Nat) : Option Record :=
  match r with
  | .named _ => some r
  | .listed items => if items.length ≤ size then some r else none

end Record

end Stencil.Json
