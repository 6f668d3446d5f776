import Stencil.Schema
import Stencil.Sha256

/-!
# Components

A component is a source text with what lexing makes of it. It knows no other component: the names in
its inclusions are looked up when it is rendered.
-/

namespace Stencil

/-- A source, lexed once. -/
structure Component where
  source : String
  lexed : Lexed
  lexed_eq : lexed = lex source

/-- An inclusion without its arguments. -/
structure Dependency where
  name : String
  id : String
  repeated : Bool
  deriving DecidableEq, Repr

def Dependency.toFields (d : Dependency) : Json.Fields :=
  [("name", .string d.name), ("id", .string d.id), ("repeated", .bool d.repeated)]

def Dependency.ofToken? : Token → Option Dependency
  | .single inclusion => some ⟨inclusion.name, inclusion.id, false⟩
  | .repeated inclusion => some ⟨inclusion.name, inclusion.id, true⟩
  | _ => none

namespace Component

def ofSource (source : String) : Component := ⟨source, lex source, rfl⟩

theorem ext_source {c d : Component} (h : c.source = d.source) : c = d := by
  obtain ⟨s, l, hl⟩ := c
  obtain ⟨t, m, hm⟩ := d
  cases h
  cases hl.trans hm.symm
  rfl

def tokens (c : Component) : List Token := c.lexed.tokens

def recovered (c : Component) : List Recovery := c.lexed.recovered

/-- The hash that stands for the source. -/
def hash (c : Component) : String := Sha256.hexOfText c.source

def dependencies (c : Component) : List Dependency := c.tokens.filterMap Dependency.ofToken?

/-- Declare a prop once more: declarations that differ leave any type. -/
def declare (declared : Dictionary PropType) (name : String) (type : PropType) :
    Dictionary PropType :=
  match declared.get? name with
  | none => declared.insert name type
  | some known => if known = type then declared else declared.insert name .any

def declareToken (declared : Dictionary PropType) : Token → Dictionary PropType
  | .prop name type => declare declared name type
  | .attribute name => declare declared name .any
  | _ => declared

/-- The props of placeholders and shorthands, with their types. -/
def declaredProps (c : Component) : Dictionary PropType := c.tokens.foldl declareToken .empty

end Component

/-- The props that the fragments of an argument refer to. -/
def Argument.references : Argument → List String
  | .named _ fragments =>
      fragments.filterMap fun
        | .prop name => some name
        | .literal _ => none
  | .wildcard => []

def Inclusion.references (inclusion : Inclusion) : List String :=
  inclusion.arguments.flatMap Argument.references

namespace Component

/-- Ask for a key of any type, unless something is asked of it already. -/
def require (fields : Dictionary Schema) (key : String) : Dictionary Schema :=
  if fields.contains key then fields else fields.insert key (.tag .any)

/-- Add what an inclusion asks for: the props in its arguments, and under the id of a repeated one
an object. -/
def requireToken (fields : Dictionary Schema) : Token → Dictionary Schema
  | .single inclusion => inclusion.references.foldl require fields
  | .repeated inclusion =>
      (inclusion.references.foldl require fields).insert inclusion.id (.tag .object)
  | _ => fields

def signatureFields (c : Component) : Dictionary Schema :=
  c.tokens.foldl requireToken (c.declaredProps.mapValues .tag)

/-- The shape that the component asks of its props. -/
def signature (c : Component) : Schema := .object c.signatureFields.entries

end Component

end Stencil
