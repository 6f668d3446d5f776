import Stencil.Json.Record
import Stencil.Template.Lexed

/-!
# Tokens as JSON

Tokens, inclusions and recoveries are written as tagged records, fields in a fixed order, and read
back from any record that has the fields.
-/

namespace Stencil

open Json (Record)

namespace PropType

def toJson (t : PropType) : Json := .string t.keyword

/-- A type is its keyword. -/
def ofJson? (v : Json) : Option PropType := do ofKeyword? (← v.word?)

/-- The type in a field of a record. -/
def ofField? (v : Json) : Option PropType := do ofKeyword? (← v.fieldWord?)

end PropType

namespace Fragment

def toJson : Fragment → Json
  | .literal text => .object [("type", .string "literal"), ("value", .string text)]
  | .prop name => .object [("type", .string "prop"), ("value", .string name)]

def kinds : List String := ["literal", "prop"]

/-- The fragment of a kind. -/
def ofKind? (text : String) : String → Option Fragment
  | "literal" => some (.literal text)
  | "prop" => some (.prop text)
  | _ => none

def ofJson? : Json → Option Fragment
  | .object fields => do
      let kind ← (← fields.lookup "type").fieldWord?
      ofKind? (← (← fields.lookup "value").string?) kind
  | .array [kind, text] => do ofKind? (← text.string?) (← kind.placedWord? kinds)
  | _ => none

end Fragment

/-- The items of an array, each read by `read`. -/
def Json.arrayOf? {α : Type} (read : Json → Option α) : Json → Option (List α)
  | .array items => items.mapM read
  | _ => none

namespace Argument

def toJson : Argument → Json
  | .named name fragments =>
      .object [("kind", .string "named"), ("name", .string name),
        ("fragments", .array (fragments.map Fragment.toJson))]
  | .wildcard => .object [("kind", .string "wildcard")]

def kinds : List String := ["named", "wildcard"]

/-- An argument whose kind is read by `kind?`. -/
def read? (kind? : Json → Option String) (v : Json) : Option Argument := do
  let (kind, r) ← (← Record.ofJson? v).tagged? kind? "kind"
  match kind with
  | "named" =>
      let r ← r.within? 2
      some (.named (← r.text? 0 "name")
        (← Json.arrayOf? Fragment.ofJson? (← r.field? 1 "fragments")))
  | "wildcard" => do
      let _ ← r.within? 0
      some .wildcard
  | _ => none

def ofJson? (v : Json) : Option Argument := read? Json.string? v

/-- An argument in the record of an inclusion. -/
def ofField? (v : Json) : Option Argument := read? (Json.placedWord? kinds) v

end Argument

namespace Inclusion

/-- The fields of an inclusion, which a token puts behind its tag. -/
def toFields (inclusion : Inclusion) : Json.Fields :=
  [("name", .string inclusion.name), ("id", .string inclusion.id),
    ("args", .array (inclusion.arguments.map Argument.toJson))]

def toJson (inclusion : Inclusion) : Json := .object inclusion.toFields

/-- Arguments may be left out. -/
def ofRecord? (r : Record) : Option Inclusion := do
  let r ← r.within? 3
  let arguments ← match r.field? 2 "args" with
    | some v => Json.arrayOf? Argument.ofField? v
    | none => some []
  some ⟨← r.text? 0 "name", ← r.text? 1 "id", arguments⟩

end Inclusion

namespace Token

def toJson : Token → Json
  | .literal text => .object [("type", .string "literal"), ("text", .string text)]
  | .prop name type =>
      .object [("type", .string "prop"), ("name", .string name), ("prop_type", type.toJson)]
  | .attribute name => .object [("type", .string "attr"), ("name", .string name)]
  | .forwarded => .object [("type", .string "attrs_forward")]
  | .single inclusion => .object (("type", .string "sub") :: inclusion.toFields)
  | .repeated inclusion => .object (("type", .string "subs") :: inclusion.toFields)

def ofJson? (v : Json) : Option Token := do
  let (tag, r) ← (← Record.ofJson? v).tagged? Json.string? "type"
  match tag with
  | "literal" => some (.literal (← (← r.within? 1).text? 0 "text"))
  | "prop" =>
      let r ← r.within? 2
      some (.prop (← r.text? 0 "name") (← PropType.ofField? (← r.field? 1 "prop_type")))
  | "attr" => some (.attribute (← (← r.within? 1).text? 0 "name"))
  | "attrs_forward" => do
      let _ ← r.within? 0
      some .forwarded
  | "sub" => some (.single (← Inclusion.ofRecord? r))
  | "subs" => some (.repeated (← Inclusion.ofRecord? r))
  | _ => none

end Token

def Construct.tag : Construct → String
  | .prop => "prop"
  | .attribute => "attr"
  | .single => "sub"
  | .repeated => "subs"

def Recovery.toFields (r : Recovery) : Json.Fields :=
  [("construct", .string r.construct.tag), ("start", .nat r.start), ("end", .nat r.stop),
    ("line", .nat r.line), ("column", .nat r.column), ("reason", .string r.reason.message)]

end Stencil
