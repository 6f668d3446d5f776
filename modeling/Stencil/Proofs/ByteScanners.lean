import Stencil.Proofs.ByteScans
import Stencil.Template.Placeholder
import Stencil.Template.Shorthand

/-!
# Placeholders and shorthands by bytes

The scans of placeholders and shorthands that hold offsets in place of texts. All that a scan tells
apart are single bytes, so a longer character is passed in a name and ends every other word
(`beq_of_not_ascii` and the lemmas beside it).
-/

namespace Stencil

/-! ## Character classes -/

theorem ascii_of_isBlank {c : Char} (h : isBlank c = true) : Ascii c := by
  simp only [isBlank, Bool.or_eq_true, beq_iff_eq] at h
  obtain ((rfl | rfl) | rfl) | rfl := h <;> decide

theorem ascii_of_isLetter {c : Char} (h : isLetter c = true) : Ascii c := by
  simp only [isLetter, Bool.or_eq_true, Bool.and_eq_true, decide_eq_true_eq] at h
  have htop : ∀ d : Char, Ascii d → c ≤ d → Ascii c := fun d hd hle => Nat.lt_of_le_of_lt hle hd
  obtain ⟨_, hle⟩ | ⟨_, hle⟩ := h
  · exact htop 'z' (by decide) hle
  · exact htop 'Z' (by decide) hle

theorem ascii_of_isIdent {c : Char} (h : isIdent c = true) : Ascii c := by
  simp only [isIdent, isDigit, Bool.or_eq_true, Bool.and_eq_true, decide_eq_true_eq,
    beq_iff_eq] at h
  obtain ((hletter | ⟨_, hle⟩) | rfl) | rfl := h
  · exact ascii_of_isLetter hletter
  · exact Nat.lt_of_le_of_lt hle (by decide : Ascii '9')
  · decide
  · decide

section NotAscii

variable {c : Char} (h : ¬ Ascii c)
include h

theorem beq_of_not_ascii {d : Char} (hd : Ascii d) : (c == d) = false :=
  beq_false_of_ne fun heq => h (heq ▸ hd)

theorem isBlank_of_not_ascii : isBlank c = false :=
  Bool.eq_false_iff.2 fun hc => h (ascii_of_isBlank hc)

theorem isLetter_of_not_ascii : isLetter c = false :=
  Bool.eq_false_iff.2 fun hc => h (ascii_of_isLetter hc)

theorem isIdent_of_not_ascii : isIdent c = false :=
  Bool.eq_false_iff.2 fun hc => h (ascii_of_isIdent hc)

theorem isPropStop_of_not_ascii : isPropStop c = false := by
  simp (disch := decide) [isPropStop, beq_of_not_ascii h]

theorem isValueStop_of_not_ascii : isValueStop c = false := by
  simp (disch := decide) [isValueStop, isBlank_of_not_ascii h, beq_of_not_ascii h]

theorem isPrefixOf_of_not_ascii {d : Char} (hd : Ascii d) (word cs : List Char) :
    (d :: word).isPrefixOf (c :: cs) = false := by
  have hne : d ≠ c := fun heq => h (heq ▸ hd)
  rw [List.isPrefixOf_cons_cons, beq_false_of_ne hne, Bool.false_and]

end NotAscii

namespace Placeholder

/-- The states of a scan that holds offsets in place of texts. -/
inductive Marks where
  | beforeName
  | name (start : Nat)
  | afterName (start stop : Nat)
  | beforeType (start stop : Nat)
  | type (start stop typeStart : Nat)
  | afterType (start stop : Nat) (type : PropType)
  deriving DecidableEq, Repr

def byteStep (source : String) : Marks → Nat → Char → List Char → Option (Move Marks)
  | .beforeName, i, c, _ => if isBlank c then some (.pass 0 .beforeName) else some (.stay (.name i))
  | .name start, i, c, _ =>
      if (c == ':' || c == '\x7d') && i == start then some (.stall .propNameMissing)
      else if c == '\x7d' then (slice? source start i).map fun name => .accept (.prop name .any) 1
      else if c == ':' then some (.pass 0 (.beforeType start i))
      else if isBlank c then some (.stay (.afterName start i))
      else if isPropStop c then some (.stall .propNameCharacter)
      else some (.pass 0 (.name start))
  | .afterName start stop, _, c, _ =>
      if isBlank c then some (.pass 0 (.afterName start stop))
      else if c == ':' then some (.pass 0 (.beforeType start stop))
      else if c == '\x7d' then
        (slice? source start stop).map fun name => .accept (.prop name .any) 1
      else some (.stall .colonOrEndMissing)
  | .beforeType start stop, i, c, _ =>
      if isBlank c then some (.pass 0 (.beforeType start stop))
      else some (.stay (.type start stop i))
  | .type start stop typeStart, i, c, _ =>
      if isLetter c then some (.pass 0 (.type start stop typeStart))
      else
        (slice? source typeStart i).map fun word =>
          match PropType.ofKeyword? word with
          | some type => .stay (.afterType start stop type)
          | none => .stall .propTypeUnknown
  | .afterType start stop type, _, c, _ =>
      if isBlank c then some (.pass 0 (.afterType start stop type))
      else if c == '\x7d' then
        (slice? source start stop).map fun name => .accept (.prop name type) 1
      else some (.stall .propEndMissing)

def Marks.rank : Marks → Nat
  | beforeName => 2
  | name _ => 1
  | afterName _ _ => 0
  | beforeType _ _ => 2
  | type _ _ _ => 1
  | afterType _ _ _ => 0

theorem Marks.rank_lt_of_stay {source : String} {s t : Marks} {i : Nat} {c : Char} {cs : List Char}
    (h : byteStep source s i c cs = some (.stay t)) : t.rank < s.rank := by
  cases s with
  | type start stop typeStart =>
      simp only [byteStep] at h
      split at h
      · cases h
      · obtain ⟨word, _, hmove⟩ := Option.map_eq_some_iff.1 h
        split at hmove <;> cases hmove
        exact Nat.zero_lt_one
  | _ =>
      simp only [byteStep] at h
      (repeat' split at h) <;> simp at h <;> subst h <;> simp [rank]

def byteMachine (source : String) : ByteMachine Marks :=
  ⟨byteStep source, Marks.rank, Marks.rank_lt_of_stay⟩

def byteScan (source : String) (offset : Nat) (bytes : List Char) : Option ByteOutcome :=
  (byteMachine source).run .beforeName offset bytes

/-- The marks of a state behind the beginning `front` of a source. -/
inductive Marked (source : String) (front : List Char) : State → Marks → Prop
  | beforeName : Marked source front .beforeName .beforeName
  | name {read start} (reads : ReadFrom front start read) :
      Marked source front (.name read) (.name start)
  | afterName {name start stop} (cut : slice? source start stop = some name) :
      Marked source front (.afterName name) (.afterName start stop)
  | beforeType {name start stop} (cut : slice? source start stop = some name) :
      Marked source front (.beforeType name) (.beforeType start stop)
  | type {name read start stop typeStart} (cut : slice? source start stop = some name)
      (reads : ReadFrom front typeStart read) :
      Marked source front (.type name read) (.type start stop typeStart)
  | afterType {name type start stop} (cut : slice? source start stop = some name) :
      Marked source front (.afterType name type) (.afterType start stop type)

open ByteMachine

section States

variable {source : String} {front cs : List Char} {c : Char} {name read : String} {type : PropType}
variable {start stop typeStart : Nat}

theorem moves_beforeName : MovesAlike (byteMachine source) machine (Marked source) front c cs
    .beforeName .beforeName where
  single _ := by
    simp only [machine, byteMachine, step, byteStep]
    split_ifs
    · exact ⟨_, rfl, .pass_one .beforeName⟩
    · exact ⟨_, rfl, .stay (.name (.empty front))⟩
  longer hc := by
    simp only [machine, step, isBlank_of_not_ascii hc, Bool.false_eq_true, if_false]
    refine .stay (.name (.empty front)) fun d ds hd => ?_
    simp [byteMachine, byteStep, isBlank_of_not_ascii hd]

theorem moves_name (htext : source.toList = front ++ c :: cs) (reads : ReadFrom front start read) :
    MovesAlike (byteMachine source) machine (Marked source) front c cs
      (.name read) (.name start) where
  single hc := by
    simp only [machine, byteMachine, step, byteStep, reads.beq_start, reads.slice? htext,
      Option.map_some]
    split_ifs
    · exact ⟨_, rfl, .stall⟩
    · exact ⟨_, rfl, .accept_one hc⟩
    · exact ⟨_, rfl, .pass_one (.beforeType (reads.slice? htext))⟩
    · exact ⟨_, rfl, .stay (.afterName (reads.slice? htext))⟩
    · exact ⟨_, rfl, .stall⟩
    · exact ⟨_, rfl, .pass_one (.name (reads.push c))⟩
  longer hc := by
    simp (disch := decide) only [machine, step, isBlank_of_not_ascii hc, isPropStop_of_not_ascii hc,
      beq_of_not_ascii hc, Bool.or_self, Bool.false_and, Bool.false_eq_true, if_false]
    refine .pass (.name (reads.push c)) fun offset d ds hd => ?_
    simp (disch := decide) [byteMachine, byteStep, isBlank_of_not_ascii hd,
      isPropStop_of_not_ascii hd, beq_of_not_ascii hd]

theorem moves_afterName (cut : slice? source start stop = some name) :
    MovesAlike (byteMachine source) machine (Marked source) front c cs
      (.afterName name) (.afterName start stop) where
  single hc := by
    simp only [machine, byteMachine, step, byteStep, cut, Option.map_some]
    split_ifs
    · exact ⟨_, rfl, .pass_one (.afterName cut)⟩
    · exact ⟨_, rfl, .pass_one (.beforeType cut)⟩
    · exact ⟨_, rfl, .accept_one hc⟩
    · exact ⟨_, rfl, .stall⟩
  longer hc := by
    simp (disch := decide) only [machine, step, isBlank_of_not_ascii hc, beq_of_not_ascii hc,
      Bool.false_eq_true, if_false]
    refine .stall fun d ds hd => ?_
    simp (disch := decide) [byteMachine, byteStep, isBlank_of_not_ascii hd, beq_of_not_ascii hd]

theorem moves_beforeType (cut : slice? source start stop = some name) :
    MovesAlike (byteMachine source) machine (Marked source) front c cs
      (.beforeType name) (.beforeType start stop) where
  single _ := by
    simp only [machine, byteMachine, step, byteStep]
    split_ifs
    · exact ⟨_, rfl, .pass_one (.beforeType cut)⟩
    · exact ⟨_, rfl, .stay (.type cut (.empty front))⟩
  longer hc := by
    simp only [machine, step, isBlank_of_not_ascii hc, Bool.false_eq_true, if_false]
    refine .stay (.type cut (.empty front)) fun d ds hd => ?_
    simp [byteMachine, byteStep, isBlank_of_not_ascii hd]

theorem moves_type (htext : source.toList = front ++ c :: cs)
    (cut : slice? source start stop = some name) (reads : ReadFrom front typeStart read) :
    MovesAlike (byteMachine source) machine (Marked source) front c cs
      (.type name read) (.type start stop typeStart) where
  single _ := by
    simp only [machine, byteMachine, step, byteStep, reads.slice? htext, Option.map_some]
    split_ifs
    · exact ⟨_, rfl, .pass_one (.type cut (reads.push c))⟩
    · cases PropType.ofKeyword? read with
      | none => exact ⟨_, rfl, .stall⟩
      | some type => exact ⟨_, rfl, .stay (.afterType cut)⟩
  longer hc := by
    simp only [machine, step, isLetter_of_not_ascii hc, Bool.false_eq_true, if_false]
    cases hword : PropType.ofKeyword? read with
    | none =>
        refine .stall fun d ds hd => ?_
        simp [byteMachine, byteStep, isLetter_of_not_ascii hd, reads.slice? htext, hword]
    | some type =>
        refine .stay (.afterType cut) fun d ds hd => ?_
        simp [byteMachine, byteStep, isLetter_of_not_ascii hd, reads.slice? htext, hword]

theorem moves_afterType (cut : slice? source start stop = some name) :
    MovesAlike (byteMachine source) machine (Marked source) front c cs
      (.afterType name type) (.afterType start stop type) where
  single hc := by
    simp only [machine, byteMachine, step, byteStep, cut, Option.map_some]
    split_ifs
    · exact ⟨_, rfl, .pass_one (.afterType cut)⟩
    · exact ⟨_, rfl, .accept_one hc⟩
    · exact ⟨_, rfl, .stall⟩
  longer hc := by
    simp (disch := decide) only [machine, step, isBlank_of_not_ascii hc, beq_of_not_ascii hc,
      Bool.false_eq_true, if_false]
    refine .stall fun d ds hd => ?_
    simp (disch := decide) [byteMachine, byteStep, isBlank_of_not_ascii hd, beq_of_not_ascii hd]

end States

theorem follows (source : String) :
    (byteMachine source).Follows machine source (Marked source) := by
  refine follows_of_movesAlike ?_
  intro front c cs s t htext hmarked
  cases hmarked with
  | beforeName => exact moves_beforeName
  | name reads => exact moves_name htext reads
  | afterName cut => exact moves_afterName cut
  | beforeType cut => exact moves_beforeType cut
  | type cut reads => exact moves_type htext cut reads
  | afterType cut => exact moves_afterType cut

/-- The scan by bytes is the scan by characters. -/
theorem byteScan_eq {source : String} {front cs : List Char} (htext : source.toList = front ++ cs) :
    byteScan source (bytesOf front).length (bytesOf cs) =
      some ((scan cs).atOffset (bytesOf source.toList).length) :=
  (follows source).run_eq htext .beforeName

end Placeholder

namespace Shorthand

def byteStep (source : String) (start i : Nat) (c : Char) (_ : List Char) : Option (Move Nat) :=
  if isIdent c then some (.pass 0 start)
  else if isBlank c || c == '>' || c == '/' then
    (slice? source start i).map fun name => .accept (.attribute name) 0
  else some (.stall .shorthandCharacter)

theorem byteStep_ne_stay {source : String} {start i t : Nat} {c : Char} {cs : List Char} :
    byteStep source start i c cs ≠ some (.stay t) := by
  simp only [byteStep]
  (repeat' split) <;> simp

/-- The state is the offset at which the name begins. -/
def byteMachine (source : String) : ByteMachine Nat :=
  ⟨byteStep source, fun _ => 0, fun h => absurd h byteStep_ne_stay⟩

def byteScan (source : String) (offset : Nat) (bytes : List Char) : Option ByteOutcome :=
  (byteMachine source).run offset offset bytes

theorem follows (source : String) : (byteMachine source).Follows machine source
    fun front s start => ReadFrom front start s.read where
  single {front c cs s t} htext reads hc := by
    simp only [machine, byteMachine, step, byteStep, reads.slice? htext, Option.map_some]
    split_ifs
    · exact ⟨_, rfl, .pass_one (reads.push c)⟩
    · exact ⟨_, rfl, @ByteMachine.SameMove.accept _ _ _ _ _ _ [] (c :: cs) _ rfl (by simp)⟩
    · exact ⟨_, rfl, .stall⟩
  longer {front c cs s t} htext reads hc := by
    simp (disch := decide) only [machine, step, isIdent_of_not_ascii hc, isBlank_of_not_ascii hc,
      beq_of_not_ascii hc, Bool.or_self, Bool.false_eq_true, if_false]
    refine .stall fun d ds hd => ?_
    simp (disch := decide) [byteMachine, byteStep, isIdent_of_not_ascii hd, isBlank_of_not_ascii hd,
      beq_of_not_ascii hd]

theorem byteScan_eq {source : String} {front cs : List Char} (htext : source.toList = front ++ cs) :
    byteScan source (bytesOf front).length (bytesOf cs) =
      some ((scan cs).atOffset (bytesOf source.toList).length) := by
  have hempty : ReadFrom front (bytesOf front).length (State.mk "").read := .empty front
  exact (follows source).run_eq htext hempty

end Shorthand

end Stencil
