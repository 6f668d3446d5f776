import Stencil.Binary64.Layout
import Stencil.Hex
import Stencil.Json.Basic

/-!
# JSON text

Writing a JSON value: compact, or over several lines with two spaces for each level. The canonical
text of a value is the compact text of its sorted form, so that it does not depend on the order in
which fields were put in.
-/

namespace Stencil.Json

/-- Numbers keep the mark of a whole float, and leave positional notation below `10 ^ (-5)` and
from `10 ^ 16` on. -/
def floatLayout : DecimalLayout where
  positionalFrom := -5
  positionalTo := 15
  wholeEnd := ".0"
  exponentMark := "e"
  positiveSign := "+"

def Number.text : Number → String
  | .int value => toString value
  | .float value => floatLayout.write value

/-- A character inside quotes: quotes, backslashes and control characters are escaped. -/
def escape (c : Char) : List Char :=
  if c = '"' then ['\\', '"']
  else if c = '\\' then ['\\', '\\']
  else if c = '\x08' then ['\\', 'b']
  else if c = '\x0c' then ['\\', 'f']
  else if c = '\n' then ['\\', 'n']
  else if c = '\r' then ['\\', 'r']
  else if c = '\t' then ['\\', 't']
  else if c.toNat < 32 then
    ['\\', 'u', '0', '0', hexDigit (c.toNat / 16), hexDigit (c.toNat % 16)]
  else [c]

def quote (s : String) : String := "\"" ++ String.ofList (s.toList.flatMap escape) ++ "\""

mutual

/-- The text of a value without any blanks. -/
def compact : Json → String
  | .null => "null"
  | .bool true => "true"
  | .bool false => "false"
  | .number n => n.text
  | .string s => quote s
  | .array items => "[" ++ ",".intercalate (compactItems items) ++ "]"
  | .object fields => "\x7b" ++ ",".intercalate (compactFields fields) ++ "\x7d"

def compactItems : List Json → List String
  | [] => []
  | v :: rest => v.compact :: compactItems rest

def compactFields : List (String × Json) → List String
  | [] => []
  | (k, v) :: rest => (quote k ++ ":" ++ v.compact) :: compactFields rest

end

def canonicalText (v : Json) : String := v.sorted.compact

/-- The text that a value leaves in rendered output: a string as it is, anything else as canonical
JSON. -/
def display : Json → String
  | .string s => s
  | v => v.canonicalText

/-- Two spaces for each level. -/
def indent (level : Nat) : String := String.ofList (List.replicate (2 * level) ' ')

/-- Lines between brackets, one level deeper than the brackets; no lines leave the brackets bare. -/
def block (level : Nat) (opening closing : String) (lines : List String) : String :=
  if lines.isEmpty then opening ++ closing
  else
    let deeper := "\n" ++ indent (level + 1)
    opening ++ deeper ++ ("," ++ deeper).intercalate lines ++ "\n" ++ indent level ++ closing

mutual

/-- The text of a value over several lines, at a level of indentation. -/
def prettyAt (level : Nat) : Json → String
  | .array items => block level "[" "]" (prettyItems (level + 1) items)
  | .object fields => block level "\x7b" "\x7d" (prettyFields (level + 1) fields)
  | .null => "null"
  | .bool true => "true"
  | .bool false => "false"
  | .number n => n.text
  | .string s => quote s

def prettyItems (level : Nat) : List Json → List String
  | [] => []
  | v :: rest => v.prettyAt level :: prettyItems level rest

def prettyFields (level : Nat) : List (String × Json) → List String
  | [] => []
  | (k, v) :: rest => (quote k ++ ": " ++ v.prettyAt level) :: prettyFields level rest

end

def pretty (v : Json) : String := v.prettyAt 0

end Stencil.Json
