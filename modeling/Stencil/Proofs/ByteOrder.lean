import Mathlib

/-!
# The order of texts by their bytes

Texts compare by code point. The bytes of their UTF-8 forms compare in the same way, since the form
of a character is below that of a greater one at the first byte in which they differ, and neither
form is the beginning of the other.
-/

namespace Stencil

/-- The bytes of a text in UTF-8. -/
def utf8Bytes (text : String) : List UInt8 := text.toUTF8.data.toList

theorem utf8Bytes_eq (text : String) :
    utf8Bytes text = text.toList.flatMap String.utf8EncodeChar := by
  rw [utf8Bytes, String.toUTF8, ← String.utf8Encode_toList, List.utf8Encode,
    List.data_toByteArray]

/-- Numbers compare by their digits to the base 64, of which the first may have more than one. -/
theorem base64_lt {m n : Nat} (h : m < n) :
    m / 262144 < n / 262144 ∨ m / 262144 = n / 262144 ∧
      (m / 4096 % 64 < n / 4096 % 64 ∨ m / 4096 % 64 = n / 4096 % 64 ∧
        (m / 64 % 64 < n / 64 % 64 ∨ m / 64 % 64 = n / 64 % 64 ∧ m % 64 < n % 64)) := by
  have digits (k : Nat) :
      k = 262144 * (k / 262144) + 4096 * (k / 4096 % 64) + 64 * (k / 64 % 64) + k % 64 := by
    omega
  have hm := digits m
  have hn := digits n
  omega

/-- The forms of two characters differ before either of them ends. -/
theorem utf8EncodeChar_append_lt {c d : Char} (h : c < d) (xs ys : List UInt8) :
    String.utf8EncodeChar c ++ xs < String.utf8EncodeChar d ++ ys := by
  have hlt : c.val.toNat < d.val.toNat := h
  have hbound : d.val.toNat < 1114112 := by
    have hvalid := d.valid
    simp only [UInt32.isValidChar, Nat.isValidChar] at hvalid
    omega
  have hdigits := base64_lt hlt
  have leading {n : Nat} (h : n < 1114112) : (n / 262144 % 8 + 240) % 2 ^ 8 = n / 262144 + 240 := by
    omega
  have following (n : Nat) : (n % 64 + 128) % 2 ^ 8 = n % 64 + 128 := by omega
  -- a case for each pair of lengths
  unfold String.utf8EncodeChar
  dsimp only
  split_ifs <;>
    simp only [List.cons_append, List.nil_append, List.cons_lt_cons_iff, UInt8.lt_iff_toNat_lt,
      ← UInt8.toNat_inj, UInt8.toNat_ofNat', following, leading hbound,
      leading (hlt.trans hbound)] <;>
    omega

theorem utf8Bytes_lt_of_lt {a b : String} (h : a < b) : utf8Bytes a < utf8Bytes b := by
  rw [String.lt_iff_toList_lt] at h
  rw [utf8Bytes_eq, utf8Bytes_eq]
  generalize a.toList = cs at h
  generalize b.toList = ds at h
  induction h with
  | @nil d ds =>
      rw [List.flatMap_nil, List.flatMap_cons]
      obtain ⟨byte, bytes, hd⟩ := List.exists_cons_of_ne_nil (String.utf8EncodeChar_ne_nil (c := d))
      rw [hd]
      exact List.nil_lt_cons _ _
  | cons _ ih => exact List.append_left_lt ih
  | rel hlt => exact utf8EncodeChar_append_lt hlt _ _

/-- Texts stand in the order of their bytes. -/
theorem lt_iff_utf8Bytes_lt {a b : String} : a < b ↔ utf8Bytes a < utf8Bytes b := by
  constructor
  · exact utf8Bytes_lt_of_lt
  · intro h
    by_contra hnot
    obtain heq | hlt := (String.not_lt.1 hnot).eq_or_lt
    · rw [heq] at h
      exact List.lt_irrefl _ h
    · exact List.lt_asymm h (utf8Bytes_lt_of_lt hlt)

theorem utf8Bytes_le_iff {a b : String} : utf8Bytes a ≤ utf8Bytes b ↔ ¬ b < a := by
  rw [← List.not_lt, lt_iff_utf8Bytes_lt]

/-- Whatever is the form of a text is read as that text. -/
theorem fromUTF8?_toUTF8 (text : String) : String.fromUTF8? text.toUTF8 = some text :=
  dif_pos text.isValidUTF8

end Stencil
