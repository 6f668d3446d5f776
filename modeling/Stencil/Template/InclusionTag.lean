import Stencil.Template.Machine

/-!
# Inclusion tags

An inclusion tag names a component and an id, in either order, then any number of arguments, and
ends in `/>`. An argument is `$*`, `$name`, or a key with a quoted value in which a braced name
after a dollar sign refers to a prop and a backslash keeps such a reference as text. The machine
starts after the first blank behind the opening word.
-/

namespace Stencil.InclusionTag

/-- What is known of name and id before both are. -/
inductive Head where
  | nothing
  | name (name : String)
  | id (id : String)
  deriving DecidableEq, Repr

/-- A value that is being read: the inclusion so far, the key, the fragments so far. -/
structure Value where
  inclusion : Inclusion
  key : String
  fragments : List Fragment
  deriving DecidableEq, Repr

inductive State where
  | beforeAttribute (head : Head)
  | attribute (head : Head)
  | name (head : Head) (read : String)
  | id (head : Head) (read : String)
  | afterAttribute (head : Head)
  | afterArgument (inclusion : Inclusion)
  | argumentOrEnd (inclusion : Inclusion)
  | relay (inclusion : Inclusion) (read : String)
  | key (inclusion : Inclusion) (read : String)
  | value (value : Value) (text : String)
  | reference (value : Value) (read : String)
  deriving DecidableEq, Repr

def addArgument (inclusion : Inclusion) (argument : Argument) : Inclusion :=
  { inclusion with arguments := inclusion.arguments ++ [argument] }

/-- The value with the text read so far as a fragment; no text leaves no fragment. -/
def Value.close (v : Value) (text : String) : Value :=
  if text.isEmpty then v else { v with fragments := v.fragments ++ [.literal text] }

def Value.refer (v : Value) (name : String) : Value :=
  { v with fragments := v.fragments ++ [.prop name] }

/-- The inclusion with the argument whose value ends in `text`. -/
def Value.finish (v : Value) (text : String) : Inclusion :=
  addArgument v.inclusion (.named v.key (v.close text).fragments)

def nameOpening : List Char := ['n', 'a', 'm', 'e', '=', '"']

def idOpening : List Char := ['i', 'd', '=', '"']

variable (wrap : Inclusion → Token)

def step : State → Char → List Char → Move State
  | .beforeAttribute head, c, _ =>
      if isBlank c then .pass 0 (.beforeAttribute head) else .stay (.attribute head)
  | .attribute head, c, cs =>
      if nameOpening.isPrefixOf (c :: cs) then
        match head with
        | .name _ => .stall .nameRepeated
        | _ => .pass 5 (.name head "")
      else if idOpening.isPrefixOf (c :: cs) then
        match head with
        | .id _ => .stall .idRepeated
        | _ => .pass 3 (.id head "")
      else .stall .nameOrIdMissing
  | .name head read, c, _ =>
      if c == '"' then
        if read.isEmpty then .stall .nameOrIdEmpty
        else
          match head with
          | .id id => .pass 0 (.afterArgument ⟨read, id, []⟩)
          | _ => .pass 0 (.afterAttribute (.name read))
      else if isValueStop c then .stall .nameOrIdCharacter
      else .pass 0 (.name head (read.push c))
  | .id head read, c, _ =>
      if c == '"' then
        if read.isEmpty then .stall .nameOrIdEmpty
        else
          match head with
          | .name name => .pass 0 (.afterArgument ⟨name, read, []⟩)
          | _ => .pass 0 (.afterAttribute (.id read))
      else if c == '/' then .stall .idSlash
      else if isValueStop c then .stall .nameOrIdCharacter
      else .pass 0 (.id head (read.push c))
  | .afterAttribute head, c, _ =>
      if isBlank c then .stay (.beforeAttribute head) else .stall .blankMissing
  | .afterArgument inclusion, c, _ =>
      if isBlank c || c == '/' then .stay (.argumentOrEnd inclusion)
      else .stall .blankOrCloseMissing
  | .argumentOrEnd inclusion, c, cs =>
      if isBlank c then .pass 0 (.argumentOrEnd inclusion)
      else if c == '/' then
        if cs.head? == some '>' then .accept (wrap inclusion) 2 else .stall .closeMissing
      else if c == '$' then
        match cs.head? with
        | some d =>
            if d == '*' then .pass 1 (.afterArgument (addArgument inclusion .wildcard))
            else if isIdent d then .pass 0 (.relay inclusion "")
            else .stall .wildcardOrRelayMissing
        | none => .stall .wildcardOrRelayMissing
      else if isIdent c then .stay (.key inclusion "")
      else .stall .argumentOrCloseMissing
  | .relay inclusion read, c, _ =>
      if isIdent c then .pass 0 (.relay inclusion (read.push c))
      else .stay (.afterArgument (addArgument inclusion (.relay read)))
  | .key inclusion read, c, cs =>
      if isIdent c then .pass 0 (.key inclusion (read.push c))
      else if c == '=' && cs.head? == some '"' then .pass 1 (.value ⟨inclusion, read, []⟩ "")
      else .stall .argumentValueMissing
  | .value v text, c, cs =>
      if c == '"' then .pass 0 (.afterArgument (v.finish text))
      else if c == '\\' && ['$', '\x7b'].isPrefixOf cs then
        .pass 2 (.value v (text ++ "$\x7b"))
      else if c == '$' && cs.head? == some '\x7b' then .pass 1 (.reference (v.close text) "")
      else .pass 0 (.value v (text.push c))
  | .reference v read, c, _ =>
      if c == '\x7d' then
        if read.isEmpty then .stall .referenceEmpty else .pass 0 (.value (v.refer read) "")
      else if isBlank c || c == ':' || isPropStop c then .stall .referenceCharacter
      else .pass 0 (.reference v (read.push c))

def rank : State → Nat
  | .afterAttribute _ => 2
  | .beforeAttribute _ => 1
  | .attribute _ => 0
  | .name _ _ => 0
  | .id _ _ => 0
  | .relay _ _ => 3
  | .afterArgument _ => 2
  | .argumentOrEnd _ => 1
  | .key _ _ => 0
  | .value _ _ => 0
  | .reference _ _ => 0

theorem rank_lt_of_stay {s t : State} {c : Char} {cs : List Char}
    (h : step wrap s c cs = .stay t) : rank t < rank s := by
  cases s <;> simp only [step] at h <;> (repeat' split at h) <;> cases h <;> simp [rank]

def machine : Machine State := ⟨step wrap, rank, rank_lt_of_stay wrap⟩

/-- Scan a tag from the character after the opening word and its blank. -/
def scan (cs : List Char) : Outcome := (machine wrap).run (.beforeAttribute .nothing) cs

end Stencil.InclusionTag
