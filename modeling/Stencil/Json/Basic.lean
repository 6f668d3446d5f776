import Stencil.Binary64.Basic
import Stencil.Dictionary

/-!
# JSON values

One tree type for JSON. A number is an exact integer or a binary64 number; an object is the list of
its fields, whose order carries no meaning and whose keys are distinct (`Json.Distinct`).
-/

namespace Stencil

inductive Json.Number where
  | int (value : Int)
  | float (value : Binary64)
  deriving DecidableEq, Repr, Inhabited

inductive Json where
  | null
  | bool (value : Bool)
  | number (value : Json.Number)
  | string (value : String)
  | array (items : List Json)
  | object (fields : List (String × Json))
  deriving Repr, Inhabited, BEq

namespace Json

/-- The fields of an object. -/
abbrev Fields := List (String × Json)

def nat (n : Nat) : Json := .number (.int n)

def fields? : Json → Option Fields
  | .object fields => some fields
  | _ => none

def string? : Json → Option String
  | .string s => some s
  | _ => none

def field? (key : String) : Json → Option Json
  | .object fields => fields.lookup key
  | _ => none

mutual

/-- Every object in the value has distinct keys. -/
def Distinct : Json → Prop
  | .array items => DistinctItems items
  | .object fields => (fields.map (·.1)).Nodup ∧ DistinctFields fields
  | _ => True

def DistinctItems : List Json → Prop
  | [] => True
  | v :: rest => v.Distinct ∧ DistinctItems rest

def DistinctFields : List (String × Json) → Prop
  | [] => True
  | (_, v) :: rest => v.Distinct ∧ DistinctFields rest

end

mutual

/-- The value with the fields of every object in ascending key order. -/
def sorted : Json → Json
  | .array items => .array (sortedItems items)
  | .object fields => .object (Dictionary.ofList (sortedFields fields)).entries
  | v => v

def sortedItems : List Json → List Json
  | [] => []
  | v :: rest => v.sorted :: sortedItems rest

def sortedFields : List (String × Json) → List (String × Json)
  | [] => []
  | (k, v) :: rest => (k, v.sorted) :: sortedFields rest

end

end Json

end Stencil
