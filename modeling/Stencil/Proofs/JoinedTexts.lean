import Mathlib

/-!
# Texts joined by a separator

Where no part holds the separator, a single character, a joined text splits into its parts again.
-/

namespace Stencil

variable {separator : String} {c : Char} {parts others : List String}

theorem splitOn_intercalate (hseparator : separator.toList = [c]) (hne : parts ≠ [])
    (h : ∀ part ∈ parts, c ∉ part.toList) :
    (separator.intercalate parts).toList.splitOn c = parts.map String.toList := by
  rw [String.toList_intercalate, hseparator]
  apply List.splitOn_intercalate
  · simpa using h
  · simpa using hne

theorem intercalate_inj (hseparator : separator.toList = [c]) (hne : parts ≠ []) (hne' : others ≠ [])
    (h : ∀ part ∈ parts, c ∉ part.toList) (h' : ∀ part ∈ others, c ∉ part.toList)
    (heq : separator.intercalate parts = separator.intercalate others) : parts = others := by
  have hlists : parts.map String.toList = others.map String.toList := by
    rw [← splitOn_intercalate hseparator hne h, ← splitOn_intercalate hseparator hne' h', heq]
  exact List.map_injective_iff.2 (fun _ _ => String.toList_inj.1) hlists

end Stencil
