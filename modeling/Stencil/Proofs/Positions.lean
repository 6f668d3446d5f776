import Stencil.Proofs.LosslessLexing

/-!
# Positions read off the text before them

The position behind a text is found character by character. It is the same that is found by looking
at the text as a whole: its bytes are the offset, its line breaks give the line, and what stands
behind the last of them gives the column.
-/

namespace Stencil.Position

/-- The characters of a text that end within its first bytes. -/
def textBefore (offset : Nat) : List Char → List Char
  | [] => []
  | c :: cs => if c.utf8Size ≤ offset then c :: textBefore (offset - c.utf8Size) cs else []

/-- The position of a byte offset in a source. -/
def ofOffset (source : String) (offset : Nat) : Position where
  offset := offset
  line := (textBefore offset source.toList).count '\n' + 1
  column := ((textBefore offset source.toList).reverse.takeWhile (· ≠ '\n')).length + 1

theorem textBefore_append (front rest : List Char) :
    textBefore (String.ofList front).utf8ByteSize (front ++ rest) = front := by
  induction front with
  | nil =>
      cases rest with
      | nil => rfl
      | cons c cs =>
          have hsize : ¬ c.utf8Size ≤ (String.ofList []).utf8ByteSize :=
            Nat.not_le.2 c.utf8Size_pos
          rw [List.nil_append, textBefore, if_neg hsize]
  | cons c cs ih =>
      have hsize : (String.ofList (c :: cs)).utf8ByteSize =
          c.utf8Size + (String.ofList cs).utf8ByteSize := by
        rw [String.ofList_cons, String.utf8ByteSize_append, String.utf8ByteSize_singleton]
      rw [List.cons_append, textBefore, hsize, if_pos (Nat.le_add_right _ _),
        Nat.add_sub_cancel_left, ih]

theorem advance_line (p : Position) (text : List Char) :
    (p.advance text).line = p.line + text.count '\n' := by
  induction text generalizing p with
  | nil => rfl
  | cons c cs ih =>
      change ((p.step c).advance cs).line = _
      rw [ih, List.count_cons]
      by_cases h : c = '\n'
      · simp only [step, h, ↓reduceIte, beq_self_eq_true]
        omega
      · simp [step, h]

theorem start_advance_column (text : List Char) :
    (start.advance text).column = (text.reverse.takeWhile (· ≠ '\n')).length + 1 := by
  induction text using List.reverseRecOn with
  | nil => rfl
  | append_singleton cs c ih =>
      rw [advance_append, List.reverse_concat, List.takeWhile_cons]
      change ((start.advance cs).step c).column = _
      by_cases h : c = '\n' <;> simp [step, h, ih]

theorem start_advance_offset (text : List Char) :
    (start.advance text).offset = (String.ofList text).utf8ByteSize := by
  rw [advance_offset]
  exact Nat.zero_add _

/-- The position behind a beginning of a source is that of the offset where the rest begins. -/
theorem ofOffset_start_advance {source : String} {front rest : List Char}
    (h : source.toList = front ++ rest) :
    ofOffset source (start.advance front).offset = start.advance front := by
  have hline : (start.advance front).line = front.count '\n' + 1 := by
    rw [advance_line]
    exact Nat.add_comm _ _
  have hcolumn := start_advance_column front
  rw [ofOffset, start_advance_offset, h, textBefore_append, ← hline, ← hcolumn,
    ← start_advance_offset]

end Stencil.Position
