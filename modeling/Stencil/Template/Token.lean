/-!
# Tokens

What a component's source is made of. A component is a list of tokens: text to keep, placeholders,
attribute shorthands, the place for forwarded attributes, and inclusions of other components.
-/

namespace Stencil

/-- The kind of value that a placeholder asks for. -/
inductive PropType where
  | string
  | number
  | boolean
  | object
  | any
  deriving DecidableEq, Repr, Inhabited

namespace PropType

def all : List PropType := [string, number, boolean, object, any]

/-- The word that names a type in a template. -/
def keyword : PropType → String
  | string => "string"
  | number => "number"
  | boolean => "boolean"
  | object => "object"
  | any => "any"

def ofKeyword? (word : String) : Option PropType := all.find? (·.keyword == word)

theorem ofKeyword?_eq_some_iff {word : String} {t : PropType} :
    ofKeyword? word = some t ↔ word = t.keyword := by
  constructor
  · intro h
    unfold ofKeyword? at h
    have found := List.find?_some h
    exact (beq_iff_eq.1 found).symm
  · rintro rfl
    cases t <;> decide

end PropType

/-- A piece of an argument's value: text, or the value of a prop. -/
inductive Fragment where
  | literal (text : String)
  | prop (name : String)
  deriving DecidableEq, Repr

/-- An argument of an inclusion: an attribute with a value, or all attributes that the including
component was handed itself. -/
inductive Argument where
  | named (name : String) (fragments : List Fragment)
  | wildcard
  deriving DecidableEq, Repr

/-- The argument that hands on a prop under its own name. -/
def Argument.relay (name : String) : Argument := .named name [.prop name]

/-- The inclusion of the component `name` with the props found under `id`. -/
structure Inclusion where
  name : String
  id : String
  arguments : List Argument
  deriving DecidableEq, Repr

inductive Token where
  | literal (text : String)
  | prop (name : String) (type : PropType)
  | attribute (name : String)
  | forwarded
  | single (inclusion : Inclusion)
  | repeated (inclusion : Inclusion)
  deriving DecidableEq, Repr

def Token.inclusion? : Token → Option Inclusion
  | .single inclusion => some inclusion
  | .repeated inclusion => some inclusion
  | _ => none

end Stencil
