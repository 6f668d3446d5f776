import Stencil.Template.Machine

/-!
# Placeholders

A placeholder is `$`, an opening brace, a name, optionally a colon and a type, and a closing brace,
with blanks around name and type. The machine starts after the opening brace.
-/

namespace Stencil.Placeholder

inductive State where
  | beforeName
  | name (read : String)
  | afterName (name : String)
  | beforeType (name : String)
  | type (name read : String)
  | afterType (name : String) (type : PropType)
  deriving DecidableEq, Repr

def step : State → Char → List Char → Move State
  | .beforeName, c, _ => if isBlank c then .pass 0 .beforeName else .stay (.name "")
  | .name read, c, _ =>
      if (c == ':' || c == '\x7d') && read.isEmpty then .stall .propNameMissing
      else if c == '\x7d' then .accept (.prop read .any) 1
      else if c == ':' then .pass 0 (.beforeType read)
      else if isBlank c then .stay (.afterName read)
      else if isPropStop c then .stall .propNameCharacter
      else .pass 0 (.name (read.push c))
  | .afterName name, c, _ =>
      if isBlank c then .pass 0 (.afterName name)
      else if c == ':' then .pass 0 (.beforeType name)
      else if c == '\x7d' then .accept (.prop name .any) 1
      else .stall .colonOrEndMissing
  | .beforeType name, c, _ =>
      if isBlank c then .pass 0 (.beforeType name) else .stay (.type name "")
  | .type name read, c, _ =>
      if isLetter c then .pass 0 (.type name (read.push c))
      else
        match PropType.ofKeyword? read with
        | some type => .stay (.afterType name type)
        | none => .stall .propTypeUnknown
  | .afterType name type, c, _ =>
      if isBlank c then .pass 0 (.afterType name type)
      else if c == '\x7d' then .accept (.prop name type) 1
      else .stall .propEndMissing

def rank : State → Nat
  | .beforeName => 2
  | .name _ => 1
  | .afterName _ => 0
  | .beforeType _ => 2
  | .type _ _ => 1
  | .afterType _ _ => 0

theorem rank_lt_of_stay {s t : State} {c : Char} {cs : List Char}
    (h : step s c cs = .stay t) : rank t < rank s := by
  cases s <;> simp only [step] at h <;> (repeat' split at h) <;> cases h <;> simp [rank]

def machine : Machine State := ⟨step, rank, rank_lt_of_stay⟩

/-- Scan a placeholder from the character after its opening brace. -/
def scan (cs : List Char) : Outcome := machine.run .beforeName cs

end Stencil.Placeholder
