import Stencil.Proofs.Printing
import Stencil.Proofs.ScanLoops
import Stencil.Proofs.Segmentation

/-!
# How placeholders and shorthands are written

A scan finds a placeholder if and only if one of its written forms is ahead, and a shorthand if and
only if a word of identifier characters is ahead that a blank, a slash or the end of the tag follows.
The forms are given without the machines: which blanks may stand where, which characters a name may
hold, and which words are types.
-/

namespace Stencil

theorem Avoids.exists_cons {stops : List Char} {word : String} (h : Avoids stops word) :
    ∃ c cs, word.toList = c :: cs ∧ c ∉ stops := by
  have hne : word.toList ≠ [] := by simpa using h.1
  obtain ⟨c, cs, hword⟩ := List.exists_cons_of_ne_nil hne
  exact ⟨c, cs, hword, h.2 c (by simp [hword])⟩

namespace Placeholder

/-- What may stand behind the name of a placeholder, up to its closing brace, with the type that it
gives to the prop. -/
inductive Ending : List Char → PropType → Prop
  | untyped {blanks} (h : Blanks blanks) : Ending (blanks ++ ['\x7d']) .any
  | typed {blanks before after type} (h : Blanks blanks) (hbefore : Blanks before)
      (hafter : Blanks after) :
      Ending (blanks ++ ':' :: (before ++ type.word ++ (after ++ ['\x7d']))) type

/-- The written forms of a placeholder, from its dollar sign to its closing brace, with the name and
the type that are written there. -/
inductive Written : List Char → String → PropType → Prop
  | form {blanks name ending type} (h : Blanks blanks) (hname : Avoids propNameStops name)
      (hending : Ending ending type) :
      Written ('$' :: '\x7b' :: (blanks ++ (name.toList ++ ending))) name type

variable {name : String} {type : PropType} {token : Token} {c : Char} {cs rest : List Char}

theorem isLetter_of_isBlank (h : isBlank c = true) : isLetter c = false := by
  simp only [isBlank, Bool.or_eq_true, beq_iff_eq] at h
  obtain ((rfl | rfl) | rfl) | rfl := h <;> rfl

theorem isLetter_of_mem_word (type : PropType) : ∀ c ∈ type.word, isLetter c = true := by
  cases type <;> simp [PropType.word, isLetter]

theorem skip_beforeName (c : Char) (cs : List Char) (h : isBlank c = true) :
    machine.step .beforeName c cs = .pass 0 .beforeName := if_pos h

theorem skip_afterName (c : Char) (cs : List Char) (h : isBlank c = true) :
    machine.step (.afterName name) c cs = .pass 0 (.afterName name) := if_pos h

theorem skip_beforeType (c : Char) (cs : List Char) (h : isBlank c = true) :
    machine.step (.beforeType name) c cs = .pass 0 (.beforeType name) := if_pos h

theorem skip_afterType (c : Char) (cs : List Char) (h : isBlank c = true) :
    machine.step (.afterType name type) c cs = .pass 0 (.afterType name type) := if_pos h

theorem step_name (hc : c ∉ propNameStops) (read : String) (cs : List Char) :
    machine.step (.name read) c cs = .pass 0 (.name (read.push c)) := by
  simp_all [machine, step, propNameStops, isBlank, isPropStop]

theorem pass_letter (read : String) (c : Char) (cs : List Char) (h : isLetter c = true) :
    machine.step (.type name read) c cs = .pass 0 (.type name (read.push c)) := if_pos h

section Complete

/-- A name that is ahead is read up to the character behind it. -/
theorem scan_name (h : Avoids propNameStops name) (rest : List Char) :
    scan (name.toList ++ rest) = machine.run (.name name) rest := by
  obtain ⟨c, cs, hname, hc⟩ := h.exists_cons
  have hstart : machine.step .beforeName c (cs ++ rest) = .stay (.name "") := by
    simp_all [machine, step, propNameStops, isBlank]
  have hword := machine.run_word .name (fun read d hd => step_name (h.2 d hd) read) rest
  rw [← hword, scan, hname, List.cons_append, machine.run_stay hstart]

theorem run_afterType {blanks : List Char} (h : Blanks blanks) (rest : List Char) :
    machine.run (.afterType name type) (blanks ++ '\x7d' :: rest) =
      .found (.prop name type) rest := by
  have hbrace : machine.step (.afterType name type) '\x7d' rest =
      .accept (.prop name type) 1 := by
    simp [machine, step, isBlank]
  rw [machine.run_blanks skip_afterType h, machine.run_accept hbrace]
  rfl

theorem run_beforeType {before after : List Char} (hbefore : Blanks before)
    (hafter : Blanks after) (rest : List Char) :
    machine.run (.beforeType name)
        (before ++ (type.word ++ (after ++ '\x7d' :: rest))) =
      .found (.prop name type) rest := by
  have hstart : ∀ cs, machine.run (.beforeType name) (type.word ++ cs) =
      machine.run (.type name "") (type.word ++ cs) := by
    intro cs
    cases type <;> exact machine.run_stay rfl
  have hletters : ∀ c ∈ type.keyword.toList, isLetter c = true := by
    rw [PropType.toList_keyword]
    exact isLetter_of_mem_word type
  have hword := machine.run_word (.type name)
    (fun read c hc cs => pass_letter read c cs (hletters c hc)) (after ++ '\x7d' :: rest)
  rw [PropType.toList_keyword] at hword
  obtain ⟨d, ds, hhead, hd⟩ := hafter.exists_head '\x7d' rest
  have hletter : isLetter d = false := by
    obtain hblank | rfl := hd
    · exact isLetter_of_isBlank hblank
    · rfl
  have hknown : machine.step (.type name type.keyword) d ds = .stay (.afterType name type) := by
    simp [machine, step, hletter, PropType.ofKeyword?_eq_some_iff.2 rfl]
  rw [machine.run_blanks skip_beforeType hbefore, hstart, hword, hhead, machine.run_stay hknown,
    ← hhead, run_afterType hafter]

theorem run_ending {ending : List Char} (h : Ending ending type) (rest : List Char) :
    machine.run (.afterName name) (ending ++ rest) = .found (.prop name type) rest := by
  cases h with
  | untyped h =>
      have hbrace : machine.step (.afterName name) '\x7d' rest = .accept (.prop name .any) 1 := by
        simp [machine, step, isBlank]
      rw [List.append_assoc, List.singleton_append, machine.run_blanks skip_afterName h,
        machine.run_accept hbrace]
      rfl
  | typed h hbefore hafter =>
      have hcolon : ∀ cs, machine.step (.afterName name) ':' cs = .pass 0 (.beforeType name) := by
        simp [machine, step, isBlank]
      simp only [List.append_assoc, List.cons_append, List.nil_append]
      rw [machine.run_blanks skip_afterName h, machine.run_pass (hcolon _), List.drop_zero,
        run_beforeType hbefore hafter]

end Complete

section Sound

theorem afterType_found (h : machine.run (.afterType name type) cs = .found token rest) :
    ∃ blanks, Blanks blanks ∧ cs = blanks ++ '\x7d' :: rest ∧ token = .prop name type := by
  obtain ⟨blanks, c, ds, rfl, hblanks, hc, hrun⟩ := Machine.run_blanks_found skip_afterType h
  by_cases hbrace : c = '\x7d'
  · subst hbrace
    have hstep : machine.step (.afterType name type) '\x7d' ds =
        .accept (.prop name type) 1 := by
      simp [machine, step, isBlank]
    rw [machine.run_accept hstep] at hrun
    cases hrun
    exact ⟨blanks, hblanks, rfl, rfl⟩
  · have hstep : machine.step (.afterType name type) c ds = .stall .propEndMissing := by
      simp [machine, step, hc, hbrace]
    rw [machine.run_stall hstep] at hrun
    cases hrun

theorem beforeType_found (h : machine.run (.beforeType name) cs = .found token rest) :
    ∃ before after type, Blanks before ∧ Blanks after ∧
      cs = before ++ PropType.word type ++ (after ++ '\x7d' :: rest) ∧
      token = .prop name type := by
  obtain ⟨before, c, ds, rfl, hbefore, hc, hrun⟩ := Machine.run_blanks_found skip_beforeType h
  have hstart : machine.step (.beforeType name) c ds = .stay (.type name "") := by
    simp [machine, step, hc]
  rw [machine.run_stay hstart] at hrun
  obtain ⟨word, d, es, htext, _, hd, hrun⟩ := Machine.run_loop_found pass_letter hrun
  cases hword : PropType.ofKeyword? word with
  | none =>
      have hstep : machine.step (.type name word) d es = .stall .propTypeUnknown := by
        simp [machine, step, hd, hword]
      rw [machine.run_stall hstep] at hrun
      cases hrun
  | some type =>
      have hstep : machine.step (.type name word) d es = .stay (.afterType name type) := by
        simp [machine, step, hd, hword]
      rw [machine.run_stay hstep] at hrun
      obtain ⟨after, hafter, hrest, htoken⟩ := afterType_found hrun
      refine ⟨before, after, type, hbefore, hafter, ?_, htoken⟩
      rw [htext, hrest, PropType.ofKeyword?_eq_some_iff.1 hword, PropType.toList_keyword,
        List.append_assoc]

theorem afterName_found (h : machine.run (.afterName name) cs = .found token rest) :
    ∃ ending type, Ending ending type ∧ cs = ending ++ rest ∧ token = .prop name type := by
  obtain ⟨blanks, c, ds, rfl, hblanks, hc, hrun⟩ := Machine.run_blanks_found skip_afterName h
  by_cases hcolon : c = ':'
  · subst hcolon
    have hstep : machine.step (.afterName name) ':' ds = .pass 0 (.beforeType name) := by
      simp [machine, step, isBlank]
    rw [machine.run_pass hstep, List.drop_zero] at hrun
    obtain ⟨before, after, type, hbefore, hafter, rfl, htoken⟩ := beforeType_found hrun
    exact ⟨_, type, .typed hblanks hbefore hafter, by simp, htoken⟩
  by_cases hbrace : c = '\x7d'
  · subst hbrace
    have hstep : machine.step (.afterName name) '\x7d' ds = .accept (.prop name .any) 1 := by
      simp [machine, step, isBlank]
    rw [machine.run_accept hstep] at hrun
    cases hrun
    exact ⟨_, .any, .untyped hblanks, by simp, rfl⟩
  · have hstep : machine.step (.afterName name) c ds = .stall .colonOrEndMissing := by
      simp [machine, step, hc, hcolon, hbrace]
    rw [machine.run_stall hstep] at hrun
    cases hrun

theorem stop_cases (h : c ∈ propNameStops) :
    isBlank c = true ∨ c = ':' ∨ c = '\x7d' ∨
      (isPropStop c = true ∧ isBlank c = false ∧ c ≠ ':' ∧ c ≠ '\x7d') := by
  have hall : propNameStops.all (fun c => isBlank c || c == ':' || c == '\x7d' ||
      isPropStop c && !isBlank c && c != ':' && c != '\x7d') = true := by decide
  simpa [or_assoc, and_assoc] using List.all_eq_true.1 hall c h

/-- A scan that goes on behind a name has read one, and stands at a blank, a colon or the brace. -/
theorem name_end_of_found (hc : c ∈ propNameStops) (hfirst : name = "" → isBlank c = false)
    (h : machine.run (.name name) (c :: cs) = .found token rest) :
    name ≠ "" ∧ (isBlank c = true ∨ c = ':' ∨ c = '\x7d') := by
  have hmissing : c = ':' ∨ c = '\x7d' → name ≠ "" := by
    rintro hend rfl
    have hstall : machine.step (.name "") c cs = .stall .propNameMissing := by
      obtain rfl | rfl := hend <;> rfl
    rw [machine.run_stall hstall] at h
    cases h
  obtain hblank | hcolon | hbrace | ⟨hstop, hnot⟩ := stop_cases hc
  · refine ⟨?_, .inl hblank⟩
    intro hempty
    rw [hfirst hempty] at hblank
    cases hblank
  · exact ⟨hmissing (.inl hcolon), .inr (.inl hcolon)⟩
  · exact ⟨hmissing (.inr hbrace), .inr (.inr hbrace)⟩
  · have hstall : machine.step (.name name) c cs = .stall .propNameCharacter := by
      simp [machine, step, hstop, hnot]
    rw [machine.run_stall hstall] at h
    cases h

/-- Where a name ends it does not matter whether it counts as read already. -/
theorem run_name_end (hname : name ≠ "") (hc : isBlank c = true ∨ c = ':' ∨ c = '\x7d')
    (cs : List Char) :
    machine.run (.name name) (c :: cs) = machine.run (.afterName name) (c :: cs) := by
  obtain hblank | rfl | rfl := hc
  · have hcolon : c ≠ ':' := by rintro rfl; cases hblank
    have hbrace : c ≠ '\x7d' := by rintro rfl; cases hblank
    exact machine.run_stay (by simp [machine, step, hcolon, hbrace, hblank])
  · have hname : machine.step (.name name) ':' cs = .pass 0 (.beforeType name) := by
      simp [machine, step, hname]
    have hafter : machine.step (.afterName name) ':' cs = .pass 0 (.beforeType name) := by
      simp [machine, step, isBlank]
    rw [machine.run_pass hname, machine.run_pass hafter]
  · have hname : machine.step (.name name) '\x7d' cs = .accept (.prop name .any) 1 := by
      simp [machine, step, hname]
    have hafter : machine.step (.afterName name) '\x7d' cs = .accept (.prop name .any) 1 := by
      simp [machine, step, isBlank]
    rw [machine.run_accept hname, machine.run_accept hafter]

end Sound

/-- What stands behind a name begins with a blank, a colon or the brace. -/
theorem Ending.exists_head {ending : List Char} (h : Ending ending type) (rest : List Char) :
    ∃ c cs, ending ++ rest = c :: cs ∧ (isBlank c = true ∨ c = ':' ∨ c = '\x7d') := by
  cases h with
  | untyped h =>
      obtain ⟨c, cs, hhead, hc⟩ := h.exists_head '\x7d' rest
      exact ⟨c, cs, by simpa using hhead, hc.imp_right .inr⟩
  | @typed blanks before after type h hbefore hafter =>
      obtain ⟨c, cs, hhead, hc⟩ := h.exists_head ':'
        (before ++ type.word ++ (after ++ ['\x7d']) ++ rest)
      exact ⟨c, cs, by simpa using hhead, hc.imp_right .inl⟩

/-- A scan finds a placeholder exactly where one of its written forms is ahead. -/
theorem scan_eq_found_iff :
    scan cs = .found token rest ↔
      ∃ text name type, Written text name type ∧ '$' :: '\x7b' :: cs = text ++ rest ∧
        token = .prop name type := by
  have hpass : ∀ read c cs, decide (c ∉ propNameStops) = true →
      machine.step (.name read) c cs = .pass 0 (.name (read.push c)) := by
    intro read c cs hc
    exact step_name (of_decide_eq_true hc) read cs
  constructor
  · intro h
    obtain ⟨blanks, c, ds, rfl, hblanks, hc, hrun⟩ := Machine.run_blanks_found skip_beforeName h
    have hstart : machine.step .beforeName c ds = .stay (.name "") := by
      simp [machine, step, hc]
    rw [machine.run_stay hstart] at hrun
    obtain ⟨name, d, es, htext, hname, hd, hrun⟩ := Machine.run_loop_found hpass hrun
    have hfirst : name = "" → isBlank d = false := by
      rintro rfl
      cases htext
      exact hc
    obtain ⟨hne, hend⟩ := name_end_of_found (by simpa using hd) hfirst hrun
    rw [run_name_end hne hend] at hrun
    obtain ⟨ending, type, hending, hrest, htoken⟩ := afterName_found hrun
    refine ⟨_, name, type, .form hblanks ⟨hne, ?_⟩ hending, ?_, htoken⟩
    · intro c hc
      exact of_decide_eq_true (hname c hc)
    · simp [htext, hrest]
  · rintro ⟨text, name, type, ⟨hblanks, hname, hending⟩, htext, rfl⟩
    obtain ⟨c, ds, hhead, hc⟩ := hending.exists_head rest
    simp only [List.cons_append, List.append_assoc, List.cons.injEq, true_and] at htext
    have hscan := scan_name hname (c :: ds)
    rw [scan] at hscan
    rw [htext, scan, machine.run_blanks skip_beforeName hblanks, hhead, hscan,
      run_name_end hname.1 hc, ← hhead, run_ending hending]

/-- A text begins with one written form at most. -/
theorem Written.unique {text text' rest' : List Char} {name' : String} {type' : PropType}
    (h : Written text name type) (h' : Written text' name' type')
    (hsame : text ++ rest = text' ++ rest') : text = text' ∧ name = name' ∧ type = type' := by
  have hopen : ∃ cs, text ++ rest = '$' :: '\x7b' :: cs := by
    obtain ⟨_, _, _⟩ := h
    exact ⟨_, rfl⟩
  obtain ⟨cs, hcs⟩ := hopen
  have hfound := scan_eq_found_iff.2 ⟨text, name, type, h, hcs.symm, rfl⟩
  have hfound' := scan_eq_found_iff.2 ⟨text', name', type', h', hcs.symm.trans hsame, rfl⟩
  rw [hfound] at hfound'
  obtain ⟨htoken, rfl⟩ := Outcome.found.inj hfound'
  obtain ⟨hname, htype⟩ := Token.prop.inj htoken
  exact ⟨List.append_cancel_right hsame, hname, htype⟩

end Placeholder

namespace Shorthand

variable {token : Token} {cs rest : List Char}

/-- The scan of a shorthand goes over the longest word ahead and not further, and finds one there if
a blank, a slash or the end of the tag follows. -/
theorem scan_cases (cs : List Char) :
    ((∃ c ∈ (cs.dropWhile isIdent).head?, isBlank c = true ∨ c = '>' ∨ c = '/') ∧
        scan cs = .found (.attribute (String.ofList (cs.takeWhile isIdent)))
          (cs.dropWhile isIdent)) ∨
      (¬ (∃ c ∈ (cs.dropWhile isIdent).head?, isBlank c = true ∨ c = '>' ∨ c = '/') ∧
        ∃ reason, scan cs = .stalled reason (cs.dropWhile isIdent)) := by
  have hpass : ∀ read c cs, isIdent c = true →
      machine.step ⟨read⟩ c cs = .pass 0 ⟨read.push c⟩ := fun read c cs hc => if_pos hc
  rw [scan, Machine.run_takeWhile hpass, String.empty_append]
  cases hrest : cs.dropWhile isIdent with
  | nil =>
      right
      rw [Machine.run]
      exact ⟨by simp, _, rfl⟩
  | cons c ds =>
      have hident : isIdent c = false := by
        have hhead := List.head_dropWhile_not isIdent (by rw [hrest]; exact List.cons_ne_nil c ds)
        simpa [hrest] using hhead
      by_cases hend : isBlank c = true ∨ c = '>' ∨ c = '/'
      · left
        have hstep : machine.step ⟨String.ofList (cs.takeWhile isIdent)⟩ c ds =
            .accept (.attribute (String.ofList (cs.takeWhile isIdent))) 0 := by
          simp [machine, step, hident, hend, or_assoc]
        exact ⟨⟨c, rfl, hend⟩, machine.run_accept hstep⟩
      · right
        have hstep : machine.step ⟨String.ofList (cs.takeWhile isIdent)⟩ c ds =
            .stall .shorthandCharacter := by
          simp [machine, step, hident, hend, or_assoc]
        refine ⟨?_, _, machine.run_stall hstep⟩
        rintro ⟨d, hd, hfollows⟩
        cases hd
        exact hend hfollows

theorem scan_eq_found_iff :
    scan cs = .found token rest ↔
      rest = cs.dropWhile isIdent ∧
        (∃ c ∈ rest.head?, isBlank c = true ∨ c = '>' ∨ c = '/') ∧
        token = .attribute (String.ofList (cs.takeWhile isIdent)) := by
  obtain ⟨hend, hscan⟩ | ⟨hend, reason, hscan⟩ := scan_cases cs
  · rw [hscan]
    constructor
    · rintro ⟨⟩
      exact ⟨rfl, hend, rfl⟩
    · rintro ⟨rfl, _, rfl⟩
      rfl
  · rw [hscan]
    simp only [reduceCtorEq, false_iff]
    rintro ⟨rfl, hfollows, _⟩
    exact hend hfollows

theorem scan_rest (cs : List Char) : (scan cs).rest = cs.dropWhile isIdent := by
  obtain ⟨_, hscan⟩ | ⟨_, reason, hscan⟩ := scan_cases cs
  · rw [hscan]
    rfl
  · rw [hscan]
    rfl

end Shorthand

/-- The scan of a placeholder finds exactly what is written in one of its forms, at most one of which
is ahead. The scan of a shorthand finds exactly the longest word ahead, which is not empty where an
identifier character stands, if a blank, a slash or the end of the tag follows it; it is started at
such a character directly inside of a tag behind a blank, and nowhere else. Where a scan finds
nothing no token comes of it. -/
theorem placeholder_and_shorthand_recognised (context : TagContext) (before : Option Char) :
    (∀ cs, ∃ outcome, Segment.opening? context before ('$' :: '\x7b' :: cs) = some (.prop, outcome) ∧
      ∀ token rest, outcome = .found token rest ↔
        ∃ text name type, Placeholder.Written text name type ∧
          '$' :: '\x7b' :: cs = text ++ rest ∧ token = .prop name type) ∧
    (∀ text text' rest rest' name name' type type', Placeholder.Written text name type →
      Placeholder.Written text' name' type' → text ++ rest = text' ++ rest' →
      text = text' ∧ name = name' ∧ type = type') ∧
    (∀ c cs, c ∈ identCharacters → (c :: cs).takeWhile (· ∈ identCharacters) ≠ [] ∧
      ∀ token rest, Shorthand.scan (c :: cs) = .found token rest ↔
        rest = (c :: cs).dropWhile (· ∈ identCharacters) ∧
          (∃ d ∈ rest.head?, d ∈ blankCharacters ∨ d = '>' ∨ d = '/') ∧
          token = .attribute (String.ofList ((c :: cs).takeWhile (· ∈ identCharacters)))) ∧
    (∀ text outcome, Segment.opening? context before text = some (.attribute, outcome) ↔
      context = .inside ∧ (∃ d ∈ before, d ∈ blankCharacters) ∧
        ∃ c cs, text = '$' :: c :: cs ∧ c ∈ identCharacters ∧
          outcome = Shorthand.scan (c :: cs)) ∧
    (∀ c cs kind outcome, Segment.opening? context before (c :: cs) = some (kind, outcome) →
      (∀ token rest, outcome ≠ .found token rest) →
      ∃ reason text, Segment.first context before c cs = .recovered kind reason text) := by
  refine ⟨?_, ?_, ?_, ?_, ?_⟩
  · intro cs
    exact ⟨Placeholder.scan cs, rfl, fun token rest => Placeholder.scan_eq_found_iff⟩
  · intro text text' rest rest' name name' type type' h h' hsame
    exact h.unique h' hsame
  · intro c cs hc
    refine ⟨?_, ?_⟩
    · rw [← isIdent_eq_decide, List.takeWhile_cons_of_pos (isIdent_iff.2 hc)]
      exact List.cons_ne_nil _ _
    · intro token rest
      simp only [← isIdent_eq_decide, ← isBlank_iff]
      exact Shorthand.scan_eq_found_iff
  · intro text outcome
    rw [Segment.opening?_shorthand_iff, Option.any_eq_true]
    simp only [isIdent_iff, isBlank_iff, Option.mem_def]
  · intro c cs kind outcome h hnone
    rw [Segment.first_of_opening h]
    cases outcome with
    | found token rest => exact absurd rfl (hnone token rest)
    | stalled reason rest => exact ⟨reason, _, rfl⟩

/-- A typed placeholder whose name is not ASCII, a shorthand at the end of its tag, and a placeholder
that is given up behind its name. -/
theorem placeholder_and_shorthand_recognised_typed :
    Segment.opening? .outside none "$\x7b größe : number \x7d!".toList =
        some (.prop, .found (.prop "größe" .number) ['!']) ∧
      Segment.opening? .inside (some ' ') "$data-id/>".toList =
        some (.attribute, .found (.attribute "data-id") ['/', '>']) ∧
      ∃ reason text, Segment.first .outside none '$' "\x7ba b\x7d".toList =
        .recovered .prop reason text := by
  have hblank : Blanks [' '] := by decide
  have hname : Avoids propNameStops "größe" := by decide
  refine ⟨?_, ?_, ?_⟩
  · obtain ⟨outcome, hopen, hfound⟩ :=
      (placeholder_and_shorthand_recognised .outside none).1 " größe : number \x7d!".toList
    rw [(hfound (.prop "größe" .number) ['!']).2 ⟨_, _, _,
      .form hblank hname (.typed hblank hblank hblank), rfl, rfl⟩] at hopen
    exact hopen
  · obtain ⟨_, _, scans, opens, _⟩ :=
      placeholder_and_shorthand_recognised .inside (some ' ')
    have hscan := ((scans 'd' "ata-id/>".toList (by decide)).2 (.attribute "data-id")
      ['/', '>']).2 ⟨by decide, ⟨'/', rfl, .inr (.inr rfl)⟩, by decide⟩
    have hbefore : ∃ d ∈ some ' ', d ∈ blankCharacters := ⟨' ', rfl, by decide⟩
    exact (opens _ _).2 ⟨rfl, hbefore, 'd', "ata-id/>".toList, rfl, by decide, hscan.symm⟩
  · have hscan : Placeholder.scan "a b\x7d".toList =
        .stalled .colonOrEndMissing ['b', '\x7d'] := by cbv
    apply (placeholder_and_shorthand_recognised .outside none).2.2.2.2 '$' "\x7ba b\x7d".toList
      .prop (Placeholder.scan "a b\x7d".toList) rfl
    intro token rest
    rw [hscan]
    intro hfound
    cases hfound

end Stencil
