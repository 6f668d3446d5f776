import Stencil.CharClass
import Stencil.Template.Token

/-!
# Scanning machines

A construct of the template language is scanned by a machine that looks at one character at a time.
At a character a machine passes on, stays where it is in another state, accepts, or stalls. Staying
lowers the rank of the state, so a machine cannot stay forever, and every run ends.
-/

namespace Stencil

/-- Why a construct was given up. -/
inductive Stall where
  | endOfInput
  | propNameMissing
  | propNameCharacter
  | colonOrEndMissing
  | propTypeUnknown
  | propEndMissing
  | shorthandCharacter
  | nameRepeated
  | idRepeated
  | nameOrIdMissing
  | nameOrIdEmpty
  | idSlash
  | nameOrIdCharacter
  | blankMissing
  | blankOrCloseMissing
  | closeMissing
  | wildcardOrRelayMissing
  | argumentOrCloseMissing
  | argumentValueMissing
  | referenceEmpty
  | referenceCharacter
  deriving DecidableEq, Repr

def Stall.message : Stall → String
  | endOfInput => "unexpected end of input"
  | propNameMissing => "expected a prop name"
  | propNameCharacter => "invalid character in prop name"
  | colonOrEndMissing => "expected ':' or '\x7d'"
  | propTypeUnknown => "unknown prop type"
  | propEndMissing => "expected '\x7d'"
  | shorthandCharacter => "invalid character in attribute shorthand"
  | nameRepeated => "duplicate name attribute"
  | idRepeated => "duplicate id attribute"
  | nameOrIdMissing => "expected name=\"...\" or id=\"...\""
  | nameOrIdEmpty => "empty name or id"
  | idSlash => "invalid character in id"
  | nameOrIdCharacter => "invalid character in name or id"
  | blankMissing => "expected whitespace"
  | blankOrCloseMissing => "expected whitespace or '/>'"
  | closeMissing => "expected '/>'"
  | wildcardOrRelayMissing => "expected '$*' or '$name'"
  | argumentOrCloseMissing => "expected inline argument or '/>'"
  | argumentValueMissing => "expected '=\"' after argument name"
  | referenceEmpty => "empty prop reference"
  | referenceCharacter => "invalid character in prop reference"

/-- What a machine does at a character. `pass n` leaves the character and `n` more behind, and
`accept` ends the construct after `n` characters, the one at hand among them. -/
inductive Move (σ : Type) where
  | stay (state : σ)
  | pass (more : Nat) (state : σ)
  | accept (token : Token) (used : Nat)
  | stall (reason : Stall)

/-- How a run ends, with the characters that are left. -/
inductive Outcome where
  | found (token : Token) (rest : List Char)
  | stalled (reason : Stall) (rest : List Char)
  deriving DecidableEq, Repr

def Outcome.rest : Outcome → List Char
  | found _ rest => rest
  | stalled _ rest => rest

structure Machine (σ : Type) where
  step : σ → Char → List Char → Move σ
  rank : σ → Nat
  settles : ∀ {s c cs t}, step s c cs = .stay t → rank t < rank s

namespace Machine

variable {σ : Type}

def run (m : Machine σ) (s : σ) (cs : List Char) : Outcome :=
  match cs with
  | [] => .stalled .endOfInput []
  | c :: cs =>
      match _h : m.step s c cs with
      | .stay t => m.run t (c :: cs)
      | .pass more t => m.run t (cs.drop more)
      | .accept token used => .found token ((c :: cs).drop used)
      | .stall reason => .stalled reason (c :: cs)
termination_by (cs.length, m.rank s)
decreasing_by
  · exact Prod.Lex.right _ (m.settles ‹_›)
  · exact Prod.Lex.left _ _ (by simp only [List.length_drop, List.length_cons]; omega)

theorem run_stay (m : Machine σ) {s t : σ} {c : Char} {cs : List Char}
    (h : m.step s c cs = .stay t) : m.run s (c :: cs) = m.run t (c :: cs) := by
  rw [run]; split <;> simp_all

theorem run_pass (m : Machine σ) {s t : σ} {c : Char} {cs : List Char} {n : Nat}
    (h : m.step s c cs = .pass n t) : m.run s (c :: cs) = m.run t (cs.drop n) := by
  rw [run]; split <;> simp_all

theorem run_accept (m : Machine σ) {s : σ} {c : Char} {cs : List Char} {token : Token} {n : Nat}
    (h : m.step s c cs = .accept token n) :
    m.run s (c :: cs) = .found token ((c :: cs).drop n) := by
  rw [run]; split <;> simp_all

theorem run_stall (m : Machine σ) {s : σ} {c : Char} {cs : List Char} {reason : Stall}
    (h : m.step s c cs = .stall reason) : m.run s (c :: cs) = .stalled reason (c :: cs) := by
  rw [run]; split <;> simp_all

/-- What is left of a run is the end of its input. -/
theorem run_rest_suffix (m : Machine σ) (s : σ) (cs : List Char) :
    (m.run s cs).rest <:+ cs := by
  fun_induction run m s cs with
  | case1 => exact List.suffix_refl _
  | case2 s c cs t h ih => exact ih
  | case3 s c cs n t h ih =>
      exact ih.trans ((List.drop_suffix n cs).trans (List.suffix_cons c cs))
  | case4 s c cs token n h => exact List.drop_suffix n _
  | case5 s c cs reason h => exact List.suffix_refl _

end Machine

end Stencil
