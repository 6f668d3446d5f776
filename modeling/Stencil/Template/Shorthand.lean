import Stencil.Template.Machine

/-!
# Attribute shorthands

`$name` inside an opening tag stands for the attribute `name` with the value of the prop `name`. The
name reaches up to a blank, a slash or the end of the tag, which stay ahead.
-/

namespace Stencil.Shorthand

/-- The name as far as it is read. -/
structure State where
  read : String
  deriving DecidableEq, Repr

def step (s : State) (c : Char) (_ : List Char) : Move State :=
  if isIdent c then .pass 0 ⟨s.read.push c⟩
  else if isBlank c || c == '>' || c == '/' then .accept (.attribute s.read) 0
  else .stall .shorthandCharacter

theorem step_ne_stay (s t : State) (c : Char) (cs : List Char) : step s c cs ≠ .stay t := by
  simp only [step]; (repeat' split) <;> simp

def machine : Machine State := ⟨step, fun _ => 0, fun h => absurd h (step_ne_stay _ _ _ _)⟩

/-- Scan a shorthand from the character after the dollar sign. -/
def scan (cs : List Char) : Outcome := machine.run ⟨""⟩ cs

end Stencil.Shorthand
