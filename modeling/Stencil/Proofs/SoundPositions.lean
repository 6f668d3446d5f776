import Stencil.Proofs.ByteLexing
import Stencil.Proofs.SourceOrder

/-!
# Sound positions

The bounds of a recovery are bounds of characters of its source, and its line and column lead back
to the byte at which it begins.
-/

namespace Stencil

namespace Position

/-- The offset behind so many line breaks and then so many characters that are none, counted on from
the offset of a text. There is none where the text or the line is too short. -/
def seek : Nat → Nat → Nat → List Char → Option Nat
  | 0, 0, offset, _ => some offset
  | _, _, _, [] => none
  | 0, columns + 1, offset, c :: cs =>
      if c = '\n' then none else seek 0 columns (offset + c.utf8Size) cs
  | lines + 1, columns, offset, c :: cs =>
      seek (if c = '\n' then lines else lines + 1) columns (offset + c.utf8Size) cs

/-- The characters behind the last line break of a text. -/
def lastLine (text : List Char) : Nat := (text.reverse.takeWhile (· ≠ '\n')).length

/-- A character before a text is in its last line if the text is a single line. -/
theorem lastLine_cons (c : Char) (cs : List Char) :
    lastLine (c :: cs) = if c ≠ '\n' ∧ '\n' ∉ cs then lastLine cs + 1 else lastLine cs := by
  by_cases hbreak : '\n' ∈ cs
  · have hshort : ¬ (cs.reverse.takeWhile (· ≠ '\n')).length = cs.reverse.length := by
      intro hlength
      have hall := (List.takeWhile_prefix (· ≠ '\n')).eq_of_length hlength
      have hmem := List.mem_takeWhile_imp (hall ▸ List.mem_reverse.2 hbreak)
      simp at hmem
    rw [if_neg fun h => h.2 hbreak, lastLine, List.reverse_cons, List.takeWhile_append,
      if_neg hshort, lastLine]
  · have hall : cs.reverse.takeWhile (· ≠ '\n') = cs.reverse := by
      rw [List.takeWhile_eq_self_iff]
      intro d hd
      have hne : d ≠ '\n' := ne_of_mem_of_not_mem (List.mem_reverse.1 hd) hbreak
      exact decide_eq_true hne
    rw [lastLine, List.reverse_cons, List.takeWhile_append, if_pos (congrArg List.length hall),
      lastLine, hall]
    by_cases hc : c = '\n' <;> simp [hc, hbreak]

/-- The line breaks and the last line of a beginning lead to the offset behind it. -/
theorem seek_append (front rest : List Char) (offset : Nat) :
    seek (front.count '\n') (lastLine front) offset (front ++ rest) =
      some (offset + (String.ofList front).utf8ByteSize) := by
  induction front generalizing offset with
  | nil =>
      change seek 0 0 offset rest = _
      rw [seek]
      rfl
  | cons c cs ih =>
      have hsize : (String.ofList (c :: cs)).utf8ByteSize =
          c.utf8Size + (String.ofList cs).utf8ByteSize := by
        rw [String.ofList_cons, String.utf8ByteSize_append, String.utf8ByteSize_singleton]
      have htail := ih (offset + c.utf8Size)
      rw [hsize, ← Nat.add_assoc, ← htail, List.cons_append, lastLine_cons]
      by_cases hc : c = '\n'
      · subst hc
        rw [List.count_cons_self, if_neg fun h => h.1 rfl, seek, if_pos rfl]
      · rw [List.count_cons_of_ne hc]
        by_cases hbreak : '\n' ∈ cs
        · obtain ⟨lines, hlines⟩ := Nat.exists_eq_add_of_le' (List.count_pos_iff.2 hbreak)
          rw [if_neg fun h => h.2 hbreak, hlines, seek, if_neg hc]
        · rw [if_pos ⟨hc, hbreak⟩, List.count_eq_zero.2 hbreak, seek, if_neg hc]

/-- Line and column of the position behind a beginning of a source lead back to its offset. -/
theorem seek_start_advance {source : String} {front rest : List Char}
    (htext : source.toList = front ++ rest) :
    seek ((start.advance front).line - 1) ((start.advance front).column - 1) 0 source.toList =
      some (start.advance front).offset := by
  have hseek := seek_append front rest 0
  rw [advance_line, start_advance_column, start_advance_offset, htext]
  change seek (1 + front.count '\n' - 1) (lastLine front + 1 - 1) 0 (front ++ rest) = _
  rw [Nat.add_sub_cancel_left, Nat.add_sub_cancel, hseek, Nat.zero_add]

end Position

/-- A recovery is sound in a source if its bounds are bounds of characters, in order, and if its
line and column, which count from 1, lead to the byte at which it begins. -/
structure Recovery.Sound (source : String) (r : Recovery) : Prop where
  start_lt_stop : r.start < r.stop
  stop_le : r.stop ≤ source.utf8ByteSize
  start_valid : String.Pos.Raw.IsValid source ⟨r.start⟩
  stop_valid : String.Pos.Raw.IsValid source ⟨r.stop⟩
  line_pos : 1 ≤ r.line
  column_pos : 1 ≤ r.column
  place : Position.seek (r.line - 1) (r.column - 1) 0 source.toList = some r.start

/-- Each recovery is that of a segment, between the positions before and behind it. -/
theorem Lexed.exists_of_mem_recoveriesOf {segments : List Segment} {p : Position} {r : Recovery}
    (h : r ∈ recoveriesOf p segments) :
    ∃ passed kind reason text more, segments = passed ++ .recovered kind reason text :: more ∧
      r = ⟨kind, (p.advance (passed.flatMap Segment.source)).offset,
        ((p.advance (passed.flatMap Segment.source)).advance text).offset,
        (p.advance (passed.flatMap Segment.source)).line,
        (p.advance (passed.flatMap Segment.source)).column, reason⟩ := by
  induction segments generalizing p with
  | nil => cases h
  | cons segment segments ih =>
      have hlater (h : r ∈ recoveriesOf (p.advance segment.source) segments) :
          ∃ passed kind reason text more,
            segment :: segments = passed ++ .recovered kind reason text :: more ∧
            r = ⟨kind, (p.advance (passed.flatMap Segment.source)).offset,
              ((p.advance (passed.flatMap Segment.source)).advance text).offset,
              (p.advance (passed.flatMap Segment.source)).line,
              (p.advance (passed.flatMap Segment.source)).column, reason⟩ := by
        obtain ⟨passed, kind, reason, text, more, rfl, rfl⟩ := ih h
        refine ⟨segment :: passed, kind, reason, text, more, rfl, ?_⟩
        rw [List.flatMap_cons, Position.advance_append]
      cases segment with
      | recovered kind reason text =>
          obtain rfl | htail := List.mem_cons.1 h
          · exact ⟨[], kind, reason, text, segments, rfl, rfl⟩
          · exact hlater htail
      | _ => exact hlater h

theorem recovery_sound {source : String} {r : Recovery} (h : r ∈ (lex source).recovered) :
    r.Sound source := by
  obtain ⟨passed, kind, reason, text, more, hsegments, rfl⟩ := Lexed.exists_of_mem_recoveriesOf h
  have hsegmentation := segmentation_segments source
  have hmem : Segment.recovered kind reason text ∈ segments source := by
    rw [hsegments]
    exact List.mem_append_right _ List.mem_cons_self
  have hsize := Segment.bytes_pos (hsegmentation.division.source_ne_nil_of_mem hmem)
  rw [Segment.bytes_singleton] at hsize
  generalize hfront : passed.flatMap Segment.source = front
  have hstop : source.toList = (front ++ text) ++ more.flatMap Segment.source := by
    rw [← hsegmentation.whole, hsegments, List.flatMap_append, hfront, List.flatMap_cons,
      List.append_assoc]
    rfl
  have hstart : source.toList = front ++ (text ++ more.flatMap Segment.source) := by
    rw [hstop, List.append_assoc]
  let p := Position.start.advance front
  have hstartOffset : p.offset = (bytesOf front).length := by
    rw [Position.start_advance_offset, length_bytesOf]
  have hstopOffset : (p.advance text).offset = (bytesOf (front ++ text)).length := by
    rw [← Position.advance_append, Position.start_advance_offset, length_bytesOf]
  refine
    { start_lt_stop := ?_
      stop_le := ?_
      start_valid := ?_
      stop_valid := ?_
      line_pos := ?_
      column_pos := ?_
      place := Position.seek_start_advance hstart }
  · change p.offset < (p.advance text).offset
    rw [Position.advance_offset p text]
    exact Nat.lt_add_of_pos_right hsize
  · change (p.advance text).offset ≤ _
    have hwhole := length_bytesOf_toList source
    rw [hstop, bytesOf_append, List.length_append] at hwhole
    rw [hstopOffset, ← hwhole]
    exact Nat.le_add_right _ _
  · change String.Pos.Raw.IsValid source ⟨p.offset⟩
    rw [hstartOffset]
    exact isValid_length_bytesOf hstart
  · change String.Pos.Raw.IsValid source ⟨(p.advance text).offset⟩
    rw [hstopOffset]
    exact isValid_length_bytesOf hstop
  · change 1 ≤ p.line
    rw [Position.advance_line]
    exact Nat.le_add_right _ _
  · change 1 ≤ p.column
    rw [Position.start_advance_column]
    exact Nat.le_add_left _ _

/-- Lexing never cuts a text at offsets between which there is none, and the positions of its
recoveries are sound. -/
theorem lex_positions_sound (source : String) :
    ByteLexer.lex source = some (lex source) ∧ ∀ r ∈ (lex source).recovered, r.Sound source :=
  ⟨ByteLexer.lex_eq source, fun _ hr => recovery_sound hr⟩

/-- The placeholder in the second line stands behind five characters of eight bytes, and its name is
given up behind one of two. -/
theorem lex_positions_sound_accented :
    ByteLexer.lex "é\n<p>ü$\x7bä b\x7d" = some (lex "é\n<p>ü$\x7bä b\x7d") ∧
      (⟨.prop, 8, 13, 2, 5, .colonOrEndMissing⟩ : Recovery) ∈
        (lex "é\n<p>ü$\x7bä b\x7d").recovered ∧
      (⟨.prop, 8, 13, 2, 5, .colonOrEndMissing⟩ : Recovery).Sound "é\n<p>ü$\x7bä b\x7d" := by
  have hsegments : segments "é\n<p>ü$\x7bä b\x7d" = "é\n<p>ü".toList.map .plain ++
      .recovered .prop .colonOrEndMissing ['$', '\x7b', 'ä', ' '] ::
        "b\x7d".toList.map .plain := by
    cbv
  have hmem : (⟨.prop, 8, 13, 2, 5, .colonOrEndMissing⟩ : Recovery) ∈
      (lex "é\n<p>ü$\x7bä b\x7d").recovered := by
    rw [lex, hsegments]
    decide
  have hsound := lex_positions_sound "é\n<p>ü$\x7bä b\x7d"
  exact ⟨hsound.1, hmem, hsound.2 _ hmem⟩

end Stencil
