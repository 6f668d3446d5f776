import Mathlib.Tactic.SplitIfs
import Stencil.Json.Reader
import Stencil.Json.Text

/-!
# Quoted text

A text that is written between quotes is read back, whatever follows the closing quote. So a quoted
text tells where it ends.
-/

namespace Stencil

theorem hexValue?_hexDigit {n : Nat} (h : n < 16) : hexValue? (hexDigit n) = some n := by
  have hall : ∀ n < 16, hexValue? (hexDigit n) = some n := by decide
  exact hall n h

namespace Json

variable {sofar : String} {c : Char} {rest : List Char}

/-- The two digits of a control character, behind two zeros, are read as its code. -/
theorem hex4_control {n : Nat} (h : n < 32) :
    Reader.hex4 ('0' :: '0' :: hexDigit (n / 16) :: hexDigit (n % 16) :: rest) = .ok n := by
  have hzero : hexValue? '0' = some 0 := by decide
  have hhigh := hexValue?_hexDigit (show n / 16 < 16 by omega)
  have hlow := hexValue?_hexDigit (show n % 16 < 16 by omega)
  simp only [Reader.hex4, hzero, hhigh, hlow]
  congr 1
  omega

theorem escaped_control (h : c.toNat < 32) :
    Reader.escaped .kept
      ('u' :: '0' :: '0' :: hexDigit (c.toNat / 16) :: hexDigit (c.toNat % 16) :: rest) =
        .ok (c, 5) := by
  have hlow : Reader.isLowSurrogate c.toNat = false := by
    simp [Reader.isLowSurrogate]
    omega
  have hhigh : Reader.isHighSurrogate c.toNat = false := by
    simp [Reader.isHighSurrogate]
    omega
  simp [Reader.escaped, hex4_control h, bind, Except.bind, hlow, hhigh]

theorem stringRest_backslash {d : Char} (h : Reader.escaped .kept (d :: rest) = .ok (c, 1)) :
    Reader.stringRest .kept sofar ('\\' :: d :: rest) =
      Reader.stringRest .kept (sofar.push c) rest := by
  rw [Reader.stringRest, h]
  rfl

/-- The escape of a character is read as the character. -/
theorem stringRest_escape (sofar : String) (c : Char) (rest : List Char) :
    Reader.stringRest .kept sofar (escape c ++ rest) =
      Reader.stringRest .kept (sofar.push c) rest := by
  unfold escape
  split_ifs with hquote hbackslash hback hfeed hline hreturn htab hcontrol
  · rw [hquote]
    exact stringRest_backslash rfl
  · rw [hbackslash]
    exact stringRest_backslash rfl
  · rw [hback]
    exact stringRest_backslash rfl
  · rw [hfeed]
    exact stringRest_backslash rfl
  · rw [hline]
    exact stringRest_backslash rfl
  · rw [hreturn]
    exact stringRest_backslash rfl
  · rw [htab]
    exact stringRest_backslash rfl
  · simp only [List.cons_append, List.nil_append]
    rw [Reader.stringRest, escaped_control hcontrol]
    rfl
  · rw [List.singleton_append, Reader.stringRest, if_neg hcontrol]
    · simpa using hquote
    · simpa using hbackslash

/-- The escapes of a text are read as the text, up to the quote behind them. -/
theorem stringRest_escapes (sofar : String) (text rest : List Char) :
    Reader.stringRest .kept sofar (text.flatMap escape ++ '"' :: rest) =
      .ok (sofar ++ String.ofList text, rest) := by
  induction text generalizing sofar with
  | nil => simp [Reader.stringRest]
  | cons c text ih =>
      rw [List.flatMap_cons, List.append_assoc, stringRest_escape, ih]
      congr 2
      ext
      simp

theorem toList_quote (s : String) :
    (quote s).toList = '"' :: (s.toList.flatMap escape ++ ['"']) := by
  simp [quote]

/-- A quoted text is read back. -/
theorem key_quote (s : String) (rest : List Char) :
    Reader.key .kept ((quote s).toList ++ rest) = .ok (s, rest) := by
  rw [toList_quote, List.cons_append, List.append_assoc, List.singleton_append]
  simp only [Reader.key, stringRest_escapes]
  simp

/-- A quoted text tells where it ends. -/
theorem quote_append_inj {s t : String} {rest others : List Char}
    (h : (quote s).toList ++ rest = (quote t).toList ++ others) : s = t ∧ rest = others := by
  have hread := key_quote s rest
  rw [h, key_quote] at hread
  cases hread
  exact ⟨rfl, rfl⟩

end Json

end Stencil
