import Stencil.CharClass

/-!
# Character sets

The classes of characters that lexing tests, character by character. The written forms of a template
are described with these lists, and the classes hold of their members and of no other characters.
-/

namespace Stencil

def blankCharacters : List Char := [' ', '\t', '\r', '\n']

/-- The letters of ASCII. -/
def letters : List Char :=
  ['a', 'b', 'c', 'd', 'e', 'f', 'g', 'h', 'i', 'j', 'k', 'l', 'm',
    'n', 'o', 'p', 'q', 'r', 's', 't', 'u', 'v', 'w', 'x', 'y', 'z',
    'A', 'B', 'C', 'D', 'E', 'F', 'G', 'H', 'I', 'J', 'K', 'L', 'M',
    'N', 'O', 'P', 'Q', 'R', 'S', 'T', 'U', 'V', 'W', 'X', 'Y', 'Z']

/-- What the names of attributes and the keys of arguments are made of. -/
def identCharacters : List Char :=
  letters ++ ['0', '1', '2', '3', '4', '5', '6', '7', '8', '9', '_', '-']

theorem isBlank_iff {c : Char} : isBlank c = true ↔ c ∈ blankCharacters := by
  simp [isBlank, blankCharacters, or_assoc]

/-- A character between two others is in every list that has all the characters from one to the
other. -/
theorem mem_of_between {low high c : Char} {characters : List Char}
    (listed : ∀ n ≤ high.toNat, low.toNat ≤ n → Char.ofNat n ∈ characters)
    (hlow : low ≤ c) (hhigh : c ≤ high) : c ∈ characters := by
  rw [← Char.ofNat_toNat c]
  exact listed c.toNat hhigh hlow

theorem isLetter_iff {c : Char} : isLetter c = true ↔ c ∈ letters := by
  constructor
  · intro h
    simp only [isLetter, Bool.or_eq_true, Bool.and_eq_true, decide_eq_true_eq] at h
    obtain ⟨hlow, hhigh⟩ | ⟨hlow, hhigh⟩ := h
    · exact mem_of_between (by decide) hlow hhigh
    · exact mem_of_between (by decide) hlow hhigh
  · have hall : letters.all isLetter = true := by decide
    exact List.all_eq_true.1 hall c

theorem isIdent_iff {c : Char} : isIdent c = true ↔ c ∈ identCharacters := by
  constructor
  · intro h
    simp only [isIdent, isDigit, Bool.or_eq_true, Bool.and_eq_true, decide_eq_true_eq,
      beq_iff_eq] at h
    obtain ((hletter | ⟨hlow, hhigh⟩) | rfl) | rfl := h
    · exact List.mem_append_left _ (isLetter_iff.1 hletter)
    · exact mem_of_between (by decide) hlow hhigh
    · decide
    · decide
  · have hall : identCharacters.all isIdent = true := by decide
    exact List.all_eq_true.1 hall c

theorem any_isLetter_eq_false_iff {next : Option Char} :
    next.any isLetter = false ↔ ∀ c ∈ next, c ∉ letters := by
  simp only [Option.any_eq_false, Bool.not_eq_true, ← isLetter_iff, Option.mem_def]

/-- The class of identifier characters as the test for being one of them. -/
theorem isIdent_eq_decide : isIdent = fun c => decide (c ∈ identCharacters) := by
  funext c
  rw [Bool.eq_iff_iff, decide_eq_true_iff, isIdent_iff]

end Stencil
