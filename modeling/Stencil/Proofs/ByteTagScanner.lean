import Stencil.Proofs.ByteScanners
import Stencil.Template.InclusionTag

/-!
# Inclusion tags by bytes

The scan of an inclusion tag that holds the offset at which the name, id, key, reference or text it
is reading begins. What it has read before is cut out of the source already.
-/

namespace Stencil.InclusionTag

/-- The states of a scan that holds an offset in place of the text that is being read. Of the text
of a value it also holds what is cut out already, up to the last escape. -/
inductive Marks where
  | beforeAttribute (head : Head)
  | attribute (head : Head)
  | name (head : Head) (start : Nat)
  | id (head : Head) (start : Nat)
  | afterAttribute (head : Head)
  | afterArgument (inclusion : Inclusion)
  | argumentOrEnd (inclusion : Inclusion)
  | relay (inclusion : Inclusion) (start : Nat)
  | key (inclusion : Inclusion) (start : Nat)
  | value (value : Value) (text : String) (start : Nat)
  | reference (value : Value) (start : Nat)
  deriving DecidableEq, Repr

variable (wrap : Inclusion → Token) (source : String)

def byteStep : Marks → Nat → Char → List Char → Option (Move Marks)
  | .beforeAttribute head, _, c, _ =>
      if isBlank c then some (.pass 0 (.beforeAttribute head)) else some (.stay (.attribute head))
  | .attribute head, i, c, cs =>
      if nameOpening.isPrefixOf (c :: cs) then
        match head with
        | .name _ => some (.stall .nameRepeated)
        | _ => some (.pass 5 (.name head (i + 6)))
      else if idOpening.isPrefixOf (c :: cs) then
        match head with
        | .id _ => some (.stall .idRepeated)
        | _ => some (.pass 3 (.id head (i + 4)))
      else some (.stall .nameOrIdMissing)
  | .name head start, i, c, _ =>
      if c == '"' then
        if i == start then some (.stall .nameOrIdEmpty)
        else
          (slice? source start i).map fun name =>
            match head with
            | .id id => .pass 0 (.afterArgument ⟨name, id, []⟩)
            | _ => .pass 0 (.afterAttribute (.name name))
      else if isValueStop c then some (.stall .nameOrIdCharacter)
      else some (.pass 0 (.name head start))
  | .id head start, i, c, _ =>
      if c == '"' then
        if i == start then some (.stall .nameOrIdEmpty)
        else
          (slice? source start i).map fun id =>
            match head with
            | .name name => .pass 0 (.afterArgument ⟨name, id, []⟩)
            | _ => .pass 0 (.afterAttribute (.id id))
      else if c == '/' then some (.stall .idSlash)
      else if isValueStop c then some (.stall .nameOrIdCharacter)
      else some (.pass 0 (.id head start))
  | .afterAttribute head, _, c, _ =>
      if isBlank c then some (.stay (.beforeAttribute head)) else some (.stall .blankMissing)
  | .afterArgument inclusion, _, c, _ =>
      if isBlank c || c == '/' then some (.stay (.argumentOrEnd inclusion))
      else some (.stall .blankOrCloseMissing)
  | .argumentOrEnd inclusion, i, c, cs =>
      if isBlank c then some (.pass 0 (.argumentOrEnd inclusion))
      else if c == '/' then
        if cs.head? == some '>' then some (.accept (wrap inclusion) 2)
        else some (.stall .closeMissing)
      else if c == '$' then
        if cs.head? == some '*' then
          some (.pass 1 (.afterArgument (addArgument inclusion .wildcard)))
        else if cs.head?.any isIdent then some (.pass 0 (.relay inclusion (i + 1)))
        else some (.stall .wildcardOrRelayMissing)
      else if isIdent c then some (.stay (.key inclusion i))
      else some (.stall .argumentOrCloseMissing)
  | .relay inclusion start, i, c, _ =>
      if isIdent c then some (.pass 0 (.relay inclusion start))
      else
        (slice? source start i).map fun name =>
          .stay (.afterArgument (addArgument inclusion (.relay name)))
  | .key inclusion start, i, c, cs =>
      if isIdent c then some (.pass 0 (.key inclusion start))
      else if c == '=' && cs.head? == some '"' then
        (slice? source start i).map fun key => .pass 1 (.value ⟨inclusion, key, []⟩ "" (i + 2))
      else some (.stall .argumentValueMissing)
  | .value v text start, i, c, cs =>
      if c == '"' then
        (slice? source start i).map fun run => .pass 0 (.afterArgument (v.finish (text ++ run)))
      else if c == '\\' && ['$', '\x7b'].isPrefixOf cs then
        (slice? source start i).map fun run => .pass 2 (.value v (text ++ run ++ "$\x7b") (i + 3))
      else if c == '$' && cs.head? == some '\x7b' then
        (slice? source start i).map fun run => .pass 1 (.reference (v.close (text ++ run)) (i + 2))
      else some (.pass 0 (.value v text start))
  | .reference v start, i, c, _ =>
      if c == '\x7d' then
        if i == start then some (.stall .referenceEmpty)
        else (slice? source start i).map fun name => .pass 0 (.value (v.refer name) "" (i + 1))
      else if isBlank c || c == ':' || isPropStop c then some (.stall .referenceCharacter)
      else some (.pass 0 (.reference v start))

def Marks.rank : Marks → Nat
  | .afterAttribute _ => 2
  | .beforeAttribute _ => 1
  | .attribute _ => 0
  | .name _ _ => 0
  | .id _ _ => 0
  | .relay _ _ => 3
  | .afterArgument _ => 2
  | .argumentOrEnd _ => 1
  | .key _ _ => 0
  | .value _ _ _ => 0
  | .reference _ _ => 0

theorem Marks.rank_lt_of_stay {s t : Marks} {i : Nat} {c : Char} {cs : List Char}
    (h : byteStep wrap source s i c cs = some (.stay t)) : t.rank < s.rank := by
  cases s <;> simp only [byteStep] at h <;> (repeat' split at h)
  all_goals
    try (rw [Option.map_eq_some_iff] at h; obtain ⟨_, _, h⟩ := h)
    (repeat' split at h) <;> cases h <;> simp [rank]

def byteMachine : ByteMachine Marks :=
  ⟨byteStep wrap source, Marks.rank, Marks.rank_lt_of_stay wrap source⟩

def byteScan (offset : Nat) (bytes : List Char) : Option ByteOutcome :=
  (byteMachine wrap source).run (.beforeAttribute .nothing) offset bytes

theorem ascii_nameOpening : ∀ c ∈ nameOpening, Ascii c := by simp [nameOpening, Ascii]

theorem ascii_idOpening : ∀ c ∈ idOpening, Ascii c := by simp [idOpening, Ascii]

/-- The marks of a state behind the beginning `front` of a source. -/
inductive Marked (front : List Char) : State → Marks → Prop
  | beforeAttribute {head} : Marked front (.beforeAttribute head) (.beforeAttribute head)
  | attribute {head} : Marked front (.attribute head) (.attribute head)
  | name {head read start} (reads : ReadFrom front start read) :
      Marked front (.name head read) (.name head start)
  | id {head read start} (reads : ReadFrom front start read) :
      Marked front (.id head read) (.id head start)
  | afterAttribute {head} : Marked front (.afterAttribute head) (.afterAttribute head)
  | afterArgument {inclusion} : Marked front (.afterArgument inclusion) (.afterArgument inclusion)
  | argumentOrEnd {inclusion} : Marked front (.argumentOrEnd inclusion) (.argumentOrEnd inclusion)
  | relay {inclusion read start} (reads : ReadFrom front start read) :
      Marked front (.relay inclusion read) (.relay inclusion start)
  | key {inclusion read start} (reads : ReadFrom front start read) :
      Marked front (.key inclusion read) (.key inclusion start)
  | value {v text read start} (reads : ReadFrom front start read) :
      Marked front (.value v (text ++ read)) (.value v text start)
  | reference {v read start} (reads : ReadFrom front start read) :
      Marked front (.reference v read) (.reference v start)

namespace Marked

variable {front : List Char} {v : Value} {text read : String} {start : Nat}

/-- A text of a value that begins here. -/
theorem value_start (reads : ReadFrom front start "") :
    Marked front (.value v text) (.value v text start) := by
  have hvalue : Marked front (.value v (text ++ "")) (.value v text start) := .value reads
  rwa [String.append_empty] at hvalue

theorem value_push (reads : ReadFrom front start read) (c : Char) :
    Marked (front ++ [c]) (.value v ((text ++ read).push c)) (.value v text start) := by
  have hvalue : Marked (front ++ [c]) (.value v (text ++ read.push c)) (.value v text start) :=
    .value (reads.push c)
  rwa [String.push_eq_append, ← String.append_assoc, ← String.push_eq_append] at hvalue

end Marked

open ByteMachine

section States

variable {wrap source} {front cs : List Char} {c : Char} {head : Head} {inclusion : Inclusion}
variable {v : Value} {text read : String} {start : Nat}

theorem moves_beforeAttribute : MovesAlike (byteMachine wrap source) (machine wrap) Marked front c cs
    (.beforeAttribute head) (.beforeAttribute head) where
  single _ := by
    simp only [machine, byteMachine, step, byteStep]
    split_ifs
    · exact ⟨_, rfl, .pass_one .beforeAttribute⟩
    · exact ⟨_, rfl, .stay .attribute⟩
  longer hc := by
    simp only [machine, step, isBlank_of_not_ascii hc, Bool.false_eq_true, if_false]
    refine .stay .attribute fun d ds hd => ?_
    simp [byteMachine, byteStep, isBlank_of_not_ascii hd]

/-- An opening word is passed whole, and what it opens begins behind it. -/
theorem moves_attribute : MovesAlike (byteMachine wrap source) (machine wrap) Marked front c cs
    (.attribute head) (.attribute head) where
  single hc := by
    have hname : nameOpening.isPrefixOf (c :: bytesOf cs) = nameOpening.isPrefixOf (c :: cs) := by
      rw [← bytesOf_cons hc, isPrefixOf_bytesOf ascii_nameOpening]
    have hid : idOpening.isPrefixOf (c :: bytesOf cs) = idOpening.isPrefixOf (c :: cs) := by
      rw [← bytesOf_cons hc, isPrefixOf_bytesOf ascii_idOpening]
    simp only [machine, byteMachine, step, byteStep, hname, hid]
    split_ifs with hnameOpening hidOpening
    · obtain ⟨rest, hrest⟩ := List.isPrefixOf_iff_prefix.1 hnameOpening
      cases hrest
      cases head with
      | name name => exact ⟨_, rfl, .stall⟩
      | _ => exact ⟨_, rfl, .pass_word ['a', 'm', 'e', '=', '"'] rest ascii_nameOpening .name⟩
    · obtain ⟨rest, hrest⟩ := List.isPrefixOf_iff_prefix.1 hidOpening
      cases hrest
      cases head with
      | id id => exact ⟨_, rfl, .stall⟩
      | _ => exact ⟨_, rfl, .pass_word ['d', '=', '"'] rest ascii_idOpening .id⟩
    · exact ⟨_, rfl, .stall⟩
  longer hc := by
    simp (disch := decide) only [machine, step, nameOpening, idOpening, isPrefixOf_of_not_ascii hc,
      Bool.false_eq_true, if_false]
    refine .stall fun d ds hd => ?_
    simp (disch := decide) [byteMachine, byteStep, nameOpening, idOpening,
      isPrefixOf_of_not_ascii hd]

theorem moves_name (htext : source.toList = front ++ c :: cs) (reads : ReadFrom front start read) :
    MovesAlike (byteMachine wrap source) (machine wrap) Marked front c cs
      (.name head read) (.name head start) where
  single _ := by
    simp only [machine, byteMachine, step, byteStep, reads.beq_start, reads.slice? htext,
      Option.map_some]
    split_ifs
    · exact ⟨_, rfl, .stall⟩
    · cases head with
      | id id => exact ⟨_, rfl, .pass_one .afterArgument⟩
      | _ => exact ⟨_, rfl, .pass_one .afterAttribute⟩
    · exact ⟨_, rfl, .stall⟩
    · exact ⟨_, rfl, .pass_one (.name (reads.push c))⟩
  longer hc := by
    simp (disch := decide) only [machine, step, beq_of_not_ascii hc, isValueStop_of_not_ascii hc,
      Bool.false_eq_true, if_false]
    refine .pass (.name (reads.push c)) fun offset d ds hd => ?_
    simp (disch := decide) [byteMachine, byteStep, beq_of_not_ascii hd, isValueStop_of_not_ascii hd]

theorem moves_id (htext : source.toList = front ++ c :: cs) (reads : ReadFrom front start read) :
    MovesAlike (byteMachine wrap source) (machine wrap) Marked front c cs
      (.id head read) (.id head start) where
  single _ := by
    simp only [machine, byteMachine, step, byteStep, reads.beq_start, reads.slice? htext,
      Option.map_some]
    split_ifs
    · exact ⟨_, rfl, .stall⟩
    · cases head with
      | name name => exact ⟨_, rfl, .pass_one .afterArgument⟩
      | _ => exact ⟨_, rfl, .pass_one .afterAttribute⟩
    · exact ⟨_, rfl, .stall⟩
    · exact ⟨_, rfl, .stall⟩
    · exact ⟨_, rfl, .pass_one (.id (reads.push c))⟩
  longer hc := by
    simp (disch := decide) only [machine, step, beq_of_not_ascii hc, isValueStop_of_not_ascii hc,
      Bool.false_eq_true, if_false]
    refine .pass (.id (reads.push c)) fun offset d ds hd => ?_
    simp (disch := decide) [byteMachine, byteStep, beq_of_not_ascii hd, isValueStop_of_not_ascii hd]

theorem moves_afterAttribute : MovesAlike (byteMachine wrap source) (machine wrap) Marked front c cs
    (.afterAttribute head) (.afterAttribute head) where
  single _ := by
    simp only [machine, byteMachine, step, byteStep]
    split_ifs
    · exact ⟨_, rfl, .stay .beforeAttribute⟩
    · exact ⟨_, rfl, .stall⟩
  longer hc := by
    simp only [machine, step, isBlank_of_not_ascii hc, Bool.false_eq_true, if_false]
    refine .stall fun d ds hd => ?_
    simp [byteMachine, byteStep, isBlank_of_not_ascii hd]

theorem moves_afterArgument : MovesAlike (byteMachine wrap source) (machine wrap) Marked front c cs
    (.afterArgument inclusion) (.afterArgument inclusion) where
  single _ := by
    simp only [machine, byteMachine, step, byteStep]
    split_ifs
    · exact ⟨_, rfl, .stay .argumentOrEnd⟩
    · exact ⟨_, rfl, .stall⟩
  longer hc := by
    simp (disch := decide) only [machine, step, isBlank_of_not_ascii hc, beq_of_not_ascii hc,
      Bool.or_self, Bool.false_eq_true, if_false]
    refine .stall fun d ds hd => ?_
    simp (disch := decide) [byteMachine, byteStep, isBlank_of_not_ascii hd, beq_of_not_ascii hd]

/-- At the dollar sign of a wildcard or a relayed prop the character behind it decides. -/
theorem same_dollar : ∃ move, (byteMachine wrap source).step (.argumentOrEnd inclusion)
      (bytesOf front).length '$' (bytesOf cs) = some move ∧
    SameMove Marked front '$' cs ((machine wrap).step (.argumentOrEnd inclusion) '$' cs) move := by
  have hbyte : (byteMachine wrap source).step (.argumentOrEnd inclusion) (bytesOf front).length '$'
      (bytesOf cs) =
        if cs.head? == some '*' then
          some (.pass 1 (.afterArgument (addArgument inclusion .wildcard)))
        else if cs.head?.any isIdent then
          some (.pass 0 (.relay inclusion ((bytesOf front).length + 1)))
        else some (.stall .wildcardOrRelayMissing) := by
    rw [← head?_bytesOf_beq (by decide), ← any_head?_bytesOf fun _ => ascii_of_isIdent]
    rfl
  have hstep : (machine wrap).step (.argumentOrEnd inclusion) '$' cs =
      if cs.head? == some '*' then .pass 1 (.afterArgument (addArgument inclusion .wildcard))
      else if cs.head?.any isIdent then .pass 0 (.relay inclusion "")
      else .stall .wildcardOrRelayMissing := by
    cases cs <;> rfl
  rw [hbyte, hstep]
  split_ifs with hstar
  · obtain ⟨rest, rfl⟩ := List.head?_eq_some_iff.1 (beq_iff_eq.1 hstar)
    exact ⟨_, rfl, .pass_word ['*'] rest (by simp [Ascii]) fun _ => .afterArgument⟩
  · exact ⟨_, rfl, .pass_word [] cs (by simp [Ascii]) .relay⟩
  · exact ⟨_, rfl, .stall⟩

theorem moves_argumentOrEnd : MovesAlike (byteMachine wrap source) (machine wrap) Marked front c cs
    (.argumentOrEnd inclusion) (.argumentOrEnd inclusion) where
  single _ := by
    by_cases hdollar : c = '$'
    · rw [hdollar]
      exact same_dollar
    simp (disch := decide) only [machine, byteMachine, step, byteStep, head?_bytesOf_beq,
      beq_false_of_ne hdollar, Bool.false_eq_true, if_false]
    split_ifs with hblank hslash hclose
    · exact ⟨_, rfl, .pass_one .argumentOrEnd⟩
    · obtain rfl := beq_iff_eq.1 hslash
      obtain ⟨rest, rfl⟩ := List.head?_eq_some_iff.1 (beq_iff_eq.1 hclose)
      exact ⟨_, rfl, @SameMove.accept _ _ _ _ _ _ ['/', '>'] rest _ rfl (by simp [Ascii])⟩
    · exact ⟨_, rfl, .stall⟩
    · exact ⟨_, rfl, .stay (.key (.empty front))⟩
    · exact ⟨_, rfl, .stall⟩
  longer hc := by
    simp (disch := decide) only [machine, step, isBlank_of_not_ascii hc, beq_of_not_ascii hc,
      isIdent_of_not_ascii hc, Bool.false_eq_true, if_false]
    refine .stall fun d ds hd => ?_
    simp (disch := decide) [byteMachine, byteStep, isBlank_of_not_ascii hd, beq_of_not_ascii hd,
      isIdent_of_not_ascii hd]

theorem moves_relay (htext : source.toList = front ++ c :: cs) (reads : ReadFrom front start read) :
    MovesAlike (byteMachine wrap source) (machine wrap) Marked front c cs
      (.relay inclusion read) (.relay inclusion start) where
  single _ := by
    simp only [machine, byteMachine, step, byteStep, reads.slice? htext, Option.map_some]
    split_ifs
    · exact ⟨_, rfl, .pass_one (.relay (reads.push c))⟩
    · exact ⟨_, rfl, .stay .afterArgument⟩
  longer hc := by
    simp only [machine, step, isIdent_of_not_ascii hc, Bool.false_eq_true, if_false]
    refine .stay .afterArgument fun d ds hd => ?_
    simp [byteMachine, byteStep, isIdent_of_not_ascii hd, reads.slice? htext]

theorem moves_key (htext : source.toList = front ++ c :: cs) (reads : ReadFrom front start read) :
    MovesAlike (byteMachine wrap source) (machine wrap) Marked front c cs
      (.key inclusion read) (.key inclusion start) where
  single _ := by
    simp (disch := decide) only [machine, byteMachine, step, byteStep, reads.slice? htext,
      Option.map_some, head?_bytesOf_beq]
    split_ifs with hident hequals
    · exact ⟨_, rfl, .pass_one (.key (reads.push c))⟩
    · obtain ⟨hsign, hhead⟩ := Bool.and_eq_true_iff.1 hequals
      obtain rfl := beq_iff_eq.1 hsign
      obtain ⟨rest, rfl⟩ := List.head?_eq_some_iff.1 (beq_iff_eq.1 hhead)
      exact ⟨_, rfl, .pass_word ['"'] rest (by simp [Ascii]) .value_start⟩
    · exact ⟨_, rfl, .stall⟩
  longer hc := by
    simp (disch := decide) only [machine, step, isIdent_of_not_ascii hc, beq_of_not_ascii hc,
      Bool.false_and, Bool.false_eq_true, if_false]
    refine .stall fun d ds hd => ?_
    simp (disch := decide) [byteMachine, byteStep, isIdent_of_not_ascii hd, beq_of_not_ascii hd]

theorem moves_value (htext : source.toList = front ++ c :: cs) (reads : ReadFrom front start read) :
    MovesAlike (byteMachine wrap source) (machine wrap) Marked front c cs
      (.value v (text ++ read)) (.value v text start) where
  single _ := by
    have hreferring : ∀ c ∈ ['$', '\x7b'], Ascii c := by simp [Ascii]
    simp (disch := decide) only [machine, byteMachine, step, byteStep, reads.slice? htext,
      Option.map_some, head?_bytesOf_beq, isPrefixOf_bytesOf hreferring]
    split_ifs with hquote hescape hreference
    · exact ⟨_, rfl, .pass_one .afterArgument⟩
    · obtain ⟨hsign, hahead⟩ := Bool.and_eq_true_iff.1 hescape
      obtain rfl := beq_iff_eq.1 hsign
      obtain ⟨rest, rfl⟩ := List.isPrefixOf_iff_prefix.1 hahead
      exact ⟨_, rfl, .pass_word ['$', '\x7b'] rest (by simp [Ascii]) .value_start⟩
    · obtain ⟨hsign, hhead⟩ := Bool.and_eq_true_iff.1 hreference
      obtain rfl := beq_iff_eq.1 hsign
      obtain ⟨rest, rfl⟩ := List.head?_eq_some_iff.1 (beq_iff_eq.1 hhead)
      exact ⟨_, rfl, .pass_word ['\x7b'] rest hreferring .reference⟩
    · exact ⟨_, rfl, .pass_one (.value_push reads c)⟩
  longer hc := by
    simp (disch := decide) only [machine, step, beq_of_not_ascii hc, Bool.false_and,
      Bool.false_eq_true, if_false]
    refine .pass (.value_push reads c) fun offset d ds hd => ?_
    simp (disch := decide) [byteMachine, byteStep, beq_of_not_ascii hd]

theorem moves_reference (htext : source.toList = front ++ c :: cs)
    (reads : ReadFrom front start read) :
    MovesAlike (byteMachine wrap source) (machine wrap) Marked front c cs
      (.reference v read) (.reference v start) where
  single hc := by
    simp only [machine, byteMachine, step, byteStep, reads.beq_start, reads.slice? htext,
      Option.map_some]
    split_ifs
    · exact ⟨_, rfl, .stall⟩
    · exact ⟨_, rfl, .pass_word [] cs (by simpa using hc) .value_start⟩
    · exact ⟨_, rfl, .stall⟩
    · exact ⟨_, rfl, .pass_one (.reference (reads.push c))⟩
  longer hc := by
    simp (disch := decide) only [machine, step, beq_of_not_ascii hc, isBlank_of_not_ascii hc,
      isPropStop_of_not_ascii hc, Bool.or_self, Bool.false_eq_true, if_false]
    refine .pass (.reference (reads.push c)) fun offset d ds hd => ?_
    simp (disch := decide) [byteMachine, byteStep, beq_of_not_ascii hd, isBlank_of_not_ascii hd,
      isPropStop_of_not_ascii hd]

end States

theorem follows : (byteMachine wrap source).Follows (machine wrap) source Marked := by
  refine follows_of_movesAlike ?_
  intro front c cs s t htext hmarked
  cases hmarked with
  | beforeAttribute => exact moves_beforeAttribute
  | «attribute» => exact moves_attribute
  | name reads => exact moves_name htext reads
  | id reads => exact moves_id htext reads
  | afterAttribute => exact moves_afterAttribute
  | afterArgument => exact moves_afterArgument
  | argumentOrEnd => exact moves_argumentOrEnd
  | relay reads => exact moves_relay htext reads
  | key reads => exact moves_key htext reads
  | value reads => exact moves_value htext reads
  | reference reads => exact moves_reference htext reads

variable {source}

theorem byteScan_eq {front cs : List Char} (htext : source.toList = front ++ cs) :
    byteScan wrap source (bytesOf front).length (bytesOf cs) =
      some ((scan wrap cs).atOffset (bytesOf source.toList).length) :=
  (follows wrap source).run_eq htext .beforeAttribute

end Stencil.InclusionTag
