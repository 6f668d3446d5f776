import Stencil.Template.TokenJson

/-!
# Schemas

The shape that a JSON value is asked to have: a value of a type, or an object in which some keys have
shapes of their own. Keys beyond those do not matter. A check visits the keys in their order and
reports the first violation.
-/

namespace Stencil

/-- A list of fields in strictly ascending key order, as `Schema.Ordered` says. -/
inductive Schema where
  | tag (type : PropType)
  | object (fields : List (String × Schema))
  deriving Repr, BEq

/-- The first place where a value departs from a schema. -/
structure Violation where
  path : String
  expected : PropType
  missing : Bool
  deriving DecidableEq, Repr

/-- Whether a value is of a type; an array counts as an object. -/
def PropType.admits : PropType → Json → Bool
  | .any, _ => true
  | .string, .string _ => true
  | .number, .number _ => true
  | .boolean, .bool _ => true
  | .object, .object _ => true
  | .object, .array _ => true
  | _, _ => false

namespace Schema

/-- The type that a value of the schema is said to have. -/
def type : Schema → PropType
  | .tag type => type
  | .object _ => .object

/-- The path of a key under a path. -/
def pathTo (path key : String) : String := if path.isEmpty then key else path ++ "." ++ key

mutual

def checkAt (path : String) : Schema → Json → Option Violation
  | .tag type, v => if type.admits v then none else some ⟨path, type, false⟩
  | .object fields, v =>
      match v with
      | .object props => checkFields path fields props
      | _ => some ⟨path, .object, false⟩

def checkFields (path : String) : List (String × Schema) → Json.Fields → Option Violation
  | [], _ => none
  | (key, schema) :: rest, props =>
      match props.lookup key with
      | none => some ⟨pathTo path key, schema.type, true⟩
      | some v =>
          match checkAt (pathTo path key) schema v with
          | some violation => some violation
          | none => checkFields path rest props

end

/-- The first violation, `none` for a value that has the shape. -/
def check (schema : Schema) (v : Json) : Option Violation := schema.checkAt "" v

mutual

/-- At every level the keys stand in strictly ascending order. -/
def Ordered : Schema → Prop
  | .tag _ => True
  | .object fields => (fields.map (·.1)).Pairwise (· < ·) ∧ OrderedFields fields

def OrderedFields : List (String × Schema) → Prop
  | [] => True
  | (_, schema) :: rest => schema.Ordered ∧ OrderedFields rest

end

mutual

def toJson : Schema → Json
  | .tag type => type.toJson
  | .object fields => .object (fieldsToJson fields)

def fieldsToJson : List (String × Schema) → Json.Fields
  | [] => []
  | (key, schema) :: rest => (key, schema.toJson) :: fieldsToJson rest

end

mutual

/-- A schema is a type, or else an object of schemas. -/
def ofJson? : Json → Option Schema
  | .object fields =>
      match PropType.ofJson? (.object fields) with
      | some type => some (.tag type)
      | none => (fieldsOfJson? fields).map fun fields => .object (Dictionary.ofList fields).entries
  | v => (PropType.ofJson? v).map .tag

def fieldsOfJson? : Json.Fields → Option (List (String × Schema))
  | [] => some []
  | (key, v) :: rest => do some ((key, ← ofJson? v) :: (← fieldsOfJson? rest))

end

end Schema

def Violation.toJson (v : Violation) : Json :=
  .object [("path", .string v.path), ("expected", v.expected.toJson), ("missing", .bool v.missing)]

end Stencil
