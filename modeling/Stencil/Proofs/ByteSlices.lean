import Stencil.CharClass
import Stencil.Proofs.ByteOrder

/-!
# Bytes and slices of a source

A source is read byte by byte, and texts are cut out of it between two byte offsets. There is such a
text only between the bounds of characters (`slice?`). The offsets behind the beginnings of a source
are such bounds, and what stands between two of them is cut out (`slice?_eq_some`).
-/

namespace Stencil

/-- A character that is a single byte in UTF-8. -/
def Ascii (c : Char) : Prop := c.toNat < 128

instance : DecidablePred Ascii := fun c => Nat.decLt c.toNat 128

/-- The bytes of a text, each read as the character with its code. -/
def bytesOf (text : List Char) : List Char :=
  text.flatMap fun c => (String.utf8EncodeChar c).map Char.ofUInt8

@[simp] theorem bytesOf_nil : bytesOf [] = [] := rfl

@[simp] theorem bytesOf_append (a b : List Char) : bytesOf (a ++ b) = bytesOf a ++ bytesOf b :=
  List.flatMap_append

theorem bytesOf_toList (source : String) :
    bytesOf source.toList = (utf8Bytes source).map Char.ofUInt8 := by
  rw [utf8Bytes_eq, List.map_flatMap, bytesOf]

/-- The offset behind a text. -/
theorem length_bytesOf (text : List Char) :
    (bytesOf text).length = (String.ofList text).utf8ByteSize := by
  induction text with
  | nil => rfl
  | cons c cs ih =>
      rw [String.ofList_cons, String.utf8ByteSize_append, String.utf8ByteSize_singleton, ← ih]
      simp [bytesOf, String.length_utf8EncodeChar]

theorem length_bytesOf_toList (source : String) :
    (bytesOf source.toList).length = source.utf8ByteSize := by
  rw [length_bytesOf, String.ofList_toList]

theorem toNat_ofUInt8_ofNat (n : Nat) : (Char.ofUInt8 (UInt8.ofNat n)).toNat = n % 256 := by
  simp [Char.ofUInt8, Char.toNat]

/-- A single byte stands for itself. -/
theorem bytesOf_singleton {c : Char} (h : Ascii c) : bytesOf [c] = [c] := by
  have hvalue : c.val.toNat < 128 := h
  have hcode : String.utf8EncodeChar c = [UInt8.ofNat c.toNat] := by
    simp only [String.utf8EncodeChar]
    rw [if_pos (by omega)]
    rfl
  have hsame : Char.ofUInt8 (UInt8.ofNat c.toNat) = c := by
    apply Char.ext
    apply UInt32.toNat_inj.1
    have hnat := toNat_ofUInt8_ofNat c.toNat
    rw [Nat.mod_eq_of_lt (Nat.lt_trans h (by decide))] at hnat
    exact hnat
  rw [bytesOf, List.flatMap_singleton, hcode, List.map_singleton, hsame]

/-- No byte of a longer character is a character of its own. -/
theorem not_ascii_of_mem_bytesOf {c d : Char} (h : ¬ Ascii c) (hd : d ∈ bytesOf [c]) :
    ¬ Ascii d := by
  have hvalue : ¬ c.val.toNat ≤ 127 := fun hle => h (Nat.lt_succ_of_le hle)
  have hbound : c.val.toNat < 1114112 := by
    have hvalid := c.valid
    simp only [UInt32.isValidChar, Nat.isValidChar] at hvalid
    omega
  rw [bytesOf, List.flatMap_singleton] at hd
  obtain ⟨byte, hbyte, rfl⟩ := List.mem_map.1 hd
  -- a case for each length
  simp only [String.utf8EncodeChar, if_neg hvalue] at hbyte
  split_ifs at hbyte <;> simp only [List.mem_cons, List.not_mem_nil, or_false] at hbyte <;>
    (repeat' obtain rfl | hbyte := hbyte) <;> try subst hbyte
  all_goals
    rw [Ascii, toNat_ofUInt8_ofNat]
    omega

theorem bytesOf_cons {c : Char} (h : Ascii c) (cs : List Char) :
    bytesOf (c :: cs) = c :: bytesOf cs := by
  rw [← List.singleton_append, bytesOf_append, bytesOf_singleton h, List.singleton_append]

theorem bytesOf_word {word : List Char} (h : ∀ c ∈ word, Ascii c) (cs : List Char) :
    bytesOf (word ++ cs) = word ++ bytesOf cs := by
  induction word with
  | nil => rfl
  | cons c word ih =>
      rw [List.cons_append, bytesOf_cons (h c List.mem_cons_self),
        ih fun d hd => h d (List.mem_cons_of_mem c hd), List.cons_append]

/-- A word of single bytes moves the offset by its length. -/
theorem length_bytesOf_word (front : List Char) {word : List Char} (h : ∀ c ∈ word, Ascii c) :
    (bytesOf (front ++ word)).length = (bytesOf front).length + word.length := by
  have hword := bytesOf_word h []
  rw [List.append_nil, bytesOf_nil, List.append_nil] at hword
  rw [bytesOf_append, List.length_append, hword]

/-- The bytes of a longer character begin with one that is no character of its own. -/
theorem exists_bytesOf_cons {c : Char} (h : ¬ Ascii c) (cs : List Char) :
    ∃ d ds, bytesOf (c :: cs) = d :: ds ∧ ¬ Ascii d := by
  have hbytes : bytesOf (c :: cs) = bytesOf [c] ++ bytesOf cs := bytesOf_append [c] cs
  cases hfirst : bytesOf [c] with
  | nil =>
      have hlength := length_bytesOf [c]
      rw [hfirst, ← String.singleton_eq_ofList, String.utf8ByteSize_singleton] at hlength
      exact absurd hlength (Nat.ne_of_lt c.utf8Size_pos)
  | cons d ds =>
      have hd : d ∈ bytesOf [c] := by
        rw [hfirst]
        exact List.mem_cons_self
      rw [hfirst, List.cons_append] at hbytes
      exact ⟨d, _, hbytes, not_ascii_of_mem_bytesOf h hd⟩

/-- What a class of single bytes says of the first character ahead, it says of the first byte. -/
theorem any_head?_bytesOf {p : Char → Bool} (hp : ∀ c, p c = true → Ascii c) (cs : List Char) :
    (bytesOf cs).head?.any p = cs.head?.any p := by
  have hnone {c : Char} (h : ¬ Ascii c) : p c = false :=
    Bool.eq_false_iff.2 fun hc => h (hp c hc)
  cases cs with
  | nil => rfl
  | cons c cs =>
      by_cases h : Ascii c
      · rw [bytesOf_cons h]
        rfl
      · obtain ⟨d, ds, hbytes, hd⟩ := exists_bytesOf_cons h cs
        rw [hbytes]
        exact (hnone hd).trans (hnone h).symm

/-- And of the last character before, it says of the last byte. -/
theorem any_getLast?_bytesOf {p : Char → Bool} (hp : ∀ c, p c = true → Ascii c) (cs : List Char) :
    (bytesOf cs).getLast?.any p = cs.getLast?.any p := by
  have hnone {c : Char} (h : ¬ Ascii c) : p c = false :=
    Bool.eq_false_iff.2 fun hc => h (hp c hc)
  obtain rfl | ⟨before, c, rfl⟩ := List.eq_nil_or_concat' cs
  · rfl
  · rw [bytesOf_append, List.getLast?_concat]
    by_cases h : Ascii c
    · rw [bytesOf_singleton h, List.getLast?_concat]
    · obtain ⟨d, ds, hbytes, _⟩ := exists_bytesOf_cons h []
      have hnonempty : bytesOf [c] ≠ [] := by
        rw [hbytes]
        exact List.cons_ne_nil d ds
      have hlast := List.getLast_mem hnonempty
      rw [List.getLast?_append_of_ne_nil _ hnonempty, List.getLast?_eq_some_getLast hnonempty]
      exact (hnone (not_ascii_of_mem_bytesOf h hlast)).trans (hnone h).symm

theorem head?_bytesOf_beq {d : Char} (hd : Ascii d) (cs : List Char) :
    ((bytesOf cs).head? == some d) = (cs.head? == some d) := by
  have hany (o : Option Char) : (o == some d) = o.any (· == d) := by cases o <;> rfl
  rw [hany, hany]
  apply any_head?_bytesOf
  intro c hc
  rwa [beq_iff_eq.1 hc]

/-- A word of single bytes is ahead in the bytes where it is ahead in the text. -/
theorem prefix_bytesOf {word : List Char} (h : ∀ c ∈ word, Ascii c) {cs : List Char} :
    word <+: bytesOf cs ↔ word <+: cs := by
  induction word generalizing cs with
  | nil => simp
  | cons c word ih =>
      have hc : Ascii c := h c List.mem_cons_self
      have htail := @ih fun d hd => h d (List.mem_cons_of_mem c hd)
      cases cs with
      | nil => rfl
      | cons d ds =>
          by_cases hd : Ascii d
          · rw [bytesOf_cons hd, List.cons_prefix_cons, List.cons_prefix_cons, htail]
          · obtain ⟨e, es, hbytes, he⟩ := exists_bytesOf_cons hd ds
            have hcd : c ≠ d := fun heq => hd (heq ▸ hc)
            have hce : c ≠ e := fun heq => he (heq ▸ hc)
            rw [hbytes, List.cons_prefix_cons, List.cons_prefix_cons]
            simp [hcd, hce]

theorem isPrefixOf_bytesOf {word : List Char} (h : ∀ c ∈ word, Ascii c) (cs : List Char) :
    word.isPrefixOf (bytesOf cs) = word.isPrefixOf cs := by
  rw [Bool.eq_iff_iff, List.isPrefixOf_iff_prefix, List.isPrefixOf_iff_prefix, prefix_bytesOf h]

/-- The text between two byte offsets of a source. There is none where an offset is behind the end
or inside of a character, or where the text would end before it begins. -/
def slice? (source : String) (start stop : Nat) : Option String :=
  if h : String.Pos.Raw.IsValid source ⟨start⟩ ∧ String.Pos.Raw.IsValid source ⟨stop⟩ ∧
      start ≤ stop then
    some (source.extract ⟨⟨start⟩, h.1⟩ ⟨⟨stop⟩, h.2.1⟩)
  else none

/-- Offsets are the bounds of characters behind the beginnings of a source. -/
theorem isValid_length_bytesOf {source : String} {front rest : List Char}
    (h : source.toList = front ++ rest) :
    String.Pos.Raw.IsValid source ⟨(bytesOf front).length⟩ := by
  rw [String.Pos.Raw.isValid_iff_exists_append]
  refine ⟨String.ofList front, String.ofList rest, ?_, ?_⟩
  · rw [← String.ofList_append, ← h, String.ofList_toList]
  · rw [length_bytesOf]
    rfl

theorem slice?_eq_some {source : String} {front text rest : List Char}
    (h : source.toList = front ++ text ++ rest) :
    slice? source (bytesOf front).length (bytesOf (front ++ text)).length =
      some (String.ofList text) := by
  have hstart : String.Pos.Raw.IsValid source ⟨(bytesOf front).length⟩ :=
    isValid_length_bytesOf (h.trans (List.append_assoc _ _ _))
  have hstop : String.Pos.Raw.IsValid source ⟨(bytesOf (front ++ text)).length⟩ :=
    isValid_length_bytesOf h
  have hle : (bytesOf front).length ≤ (bytesOf (front ++ text)).length := by
    rw [bytesOf_append, List.length_append]
    exact Nat.le_add_right _ _
  rw [slice?, dif_pos ⟨hstart, hstop, hle⟩]
  congr 1
  have hsource : source = String.ofList front ++ String.ofList text ++ String.ofList rest := by
    rw [← String.ofList_append, ← String.ofList_append, ← h, String.ofList_toList]
  rw [← String.toByteArray_inj, String.toByteArray_extract]
  change source.toByteArray.extract (bytesOf front).length (bytesOf (front ++ text)).length = _
  rw [length_bytesOf, length_bytesOf, hsource, String.ofList_append, String.utf8ByteSize_append]
  simp only [String.toByteArray_append, ← String.size_toByteArray]
  rw [ByteArray.extract_append, ByteArray.extract_append_eq_right rfl rfl]
  simp

theorem slice?_self {source : String} {i : Nat} {word : String}
    (h : slice? source i i = some word) : word = "" := by
  unfold slice? at h
  split at h
  · obtain rfl := Option.some.inj h
    rw [← String.toByteArray_inj, String.toByteArray_extract]
    simp
  · cases h

end Stencil
