import Stencil.Proofs.Placeholders

/-!
# How the arguments of an inclusion are written

An argument is a wildcard, a relayed prop, or a key with a value in quotes, and each stands behind a
blank. What a scan reads of them is what is written there: nothing of one argument is left in the
next, and the text of a value joins until a reference or the closing quote ends it.
-/

namespace Stencil

/-- A word of the characters that keys are made of. -/
def Identifier (word : String) : Prop := word ≠ "" ∧ ∀ c ∈ word.toList, c ∈ identCharacters

/-- The fragments of a value with some text before them, which joins the text they begin with. -/
def Fragment.withText (text : String) : List Fragment → List Fragment
  | .literal next :: fragments => .literal (text ++ next) :: fragments
  | fragments => if text = "" then fragments else .literal text :: fragments

namespace InclusionTag

/-- What may stand between the quotes of a value, with its fragments. A backslash keeps a dollar sign
and a brace as text; without it they open a reference. -/
inductive WrittenValue : List Char → List Fragment → Prop
  | nil : WrittenValue [] []
  | escape {text fragments} (tail : WrittenValue text fragments) :
      WrittenValue ('\\' :: '$' :: '\x7b' :: text) (Fragment.withText "$\x7b" fragments)
  | reference {name text fragments} (hname : Avoids propNameStops name)
      (tail : WrittenValue text fragments) :
      WrittenValue ('$' :: '\x7b' :: (name.toList ++ '\x7d' :: text)) (.prop name :: fragments)
  | character {c text fragments} (noQuote : c ≠ '"') (noEscape : ¬ ['\\', '$', '\x7b'] <+: c :: text)
      (noReference : ¬ ['$', '\x7b'] <+: c :: text) (tail : WrittenValue text fragments) :
      WrittenValue (c :: text) (Fragment.withText (.singleton c) fragments)

inductive WrittenArgument : List Char → Argument → Prop
  | wildcard : WrittenArgument ['$', '*'] .wildcard
  | relay {name} (h : Identifier name) : WrittenArgument ('$' :: name.toList) (.relay name)
  | named {key value fragments} (hkey : Identifier key) (hvalue : WrittenValue value fragments) :
      WrittenArgument (key.toList ++ '=' :: '"' :: (value ++ ['"'])) (.named key fragments)

/-- Arguments, each with the blanks before it. -/
inductive WrittenArguments : List Char → List Argument → Prop
  | nil : WrittenArguments [] []
  | cons {blanks text more argument arguments} (hblanks : Blanks blanks) (hne : blanks ≠ [])
      (hargument : WrittenArgument text argument) (tail : WrittenArguments more arguments) :
      WrittenArguments (blanks ++ (text ++ more)) (argument :: arguments)

end InclusionTag

section Fragments

open Fragment

@[simp]
theorem Fragment.withText_empty (fragments : List Fragment) : withText "" fragments = fragments := by
  unfold withText
  split <;> simp

theorem Fragment.withText_append (front back : String) (fragments : List Fragment) :
    withText (front ++ back) fragments = withText front (withText back fragments) := by
  cases fragments with
  | nil => by_cases hback : back = "" <;> simp [withText, hback]
  | cons fragment fragments =>
      cases fragment with
      | literal next => simp [withText, String.append_assoc]
      | prop name => by_cases hback : back = "" <;> simp [withText, hback]

theorem Fragment.withText_push (read : String) (c : Char) (fragments : List Fragment) :
    withText (read.push c) fragments = withText read (withText (.singleton c) fragments) := by
  rw [← withText_append, String.append_singleton]

end Fragments

namespace InclusionTag

section Values

@[simp]
theorem Value.close_inclusion (v : Value) (text : String) :
    (v.close text).inclusion = v.inclusion := by
  unfold Value.close
  split <;> rfl

@[simp]
theorem Value.close_key (v : Value) (text : String) : (v.close text).key = v.key := by
  unfold Value.close
  split <;> rfl

/-- The text that was read becomes the first of the fragments that follow, unless it is empty. -/
theorem Value.close_fragments (v : Value) (text : String) :
    (v.close text).fragments = v.fragments ++ Fragment.withText text [] := by
  by_cases htext : text = "" <;> simp [Value.close, Fragment.withText, htext]

theorem Value.refer_fragments (v : Value) (text name : String) (fragments : List Fragment) :
    ((v.close text).refer name).fragments ++ fragments =
      v.fragments ++ Fragment.withText text (.prop name :: fragments) := by
  by_cases htext : text = "" <;> simp [Value.refer, Value.close, Fragment.withText, htext]

variable (wrap : Inclusion → Token) {v : Value} {read : String} {token : Token} {c : Char}
  {cs rest : List Char}

theorem step_quote (v : Value) (read : String) (cs : List Char) :
    (machine wrap).step (.value v read) '"' cs = .pass 0 (.afterArgument (v.finish read)) := by
  simp [machine, step]

theorem step_escape (v : Value) (read : String) (cs : List Char) :
    (machine wrap).step (.value v read) '\\' ('$' :: '\x7b' :: cs) =
      .pass 2 (.value v (read ++ "$\x7b")) := by
  simp [machine, step]

theorem step_dollar (v : Value) (read : String) (cs : List Char) :
    (machine wrap).step (.value v read) '$' ('\x7b' :: cs) =
      .pass 1 (.reference (v.close read) "") := by
  simp [machine, step]

theorem step_character (v : Value) (read : String) (noQuote : c ≠ '"')
    (noEscape : ¬ ['\\', '$', '\x7b'] <+: c :: cs) (noReference : ¬ ['$', '\x7b'] <+: c :: cs) :
    (machine wrap).step (.value v read) c cs = .pass 0 (.value v (read.push c)) := by
  have hescape : ¬ (c == '\\' && ['$', '\x7b'].isPrefixOf cs) = true := by
    rw [Bool.and_eq_true, beq_iff_eq, List.isPrefixOf_iff_prefix]
    rintro ⟨rfl, hprefix⟩
    exact noEscape (List.cons_prefix_cons.2 ⟨rfl, hprefix⟩)
  have hreference : ¬ (c == '$' && cs.head? == some '\x7b') = true := by
    rw [Bool.and_eq_true, beq_iff_eq, beq_iff_eq, List.head?_eq_some_iff]
    rintro ⟨rfl, ds, rfl⟩
    exact noReference ⟨ds, rfl⟩
  simp only [machine, step, beq_iff_eq, if_neg noQuote, if_neg hescape, if_neg hreference]

/-- A reference is read as a name up to its brace. -/
theorem readsReference (v : Value) :
    (machine wrap).ReadsName propNameStops '\x7d' (.reference v)
      (fun name => .value (v.refer name) "") where
  step_pass read c hc cs := by
    simp_all [machine, step, propNameStops, isBlank, isPropStop]
  step_close name cs hname := by simp [machine, step, hname]
  step_stall name c hc cs hclose := by
    by_cases hbrace : c = '\x7d'
    · exact ⟨.referenceEmpty, by simp [machine, step, hbrace, hclose hbrace]⟩
    · refine ⟨.referenceCharacter, ?_⟩
      obtain hblank | hcolon | hend | ⟨hstop, _⟩ := Placeholder.stop_cases hc
      · simp [machine, step, hbrace, hblank]
      · simp [machine, step, hcolon]
      · exact absurd hend hbrace
      · simp [machine, step, hbrace, hstop]

/-- A quote behind a text shifts no word without a quote. -/
theorem prefix_append_quote_iff {word text : List Char} (hword : '"' ∉ word) (rest : List Char) :
    word <+: text ++ '"' :: rest ↔ word <+: text := by
  constructor
  · intro h
    obtain hlt | hle := Nat.lt_or_ge text.length word.length
    · have hquote : text ++ ['"'] <+: word := by
        have hfront : text ++ ['"'] <+: text ++ '"' :: rest := ⟨rest, by simp⟩
        exact List.prefix_of_prefix_length_le hfront h (by simpa using Nat.succ_le_of_lt hlt)
      exact absurd (hquote.subset (by simp)) hword
    · exact List.prefix_of_prefix_length_le h (List.prefix_append _ _) hle
  · intro h
    exact h.trans (List.prefix_append _ _)

/-- A written value is read to its closing quote, behind what was read of it before. -/
theorem run_value {text : List Char} {fragments : List Fragment} (h : WrittenValue text fragments)
    (v : Value) (read : String) (rest : List Char) :
    (machine wrap).run (.value v read) (text ++ '"' :: rest) =
      (machine wrap).run (.afterArgument (addArgument v.inclusion
        (.named v.key (v.fragments ++ Fragment.withText read fragments)))) rest := by
  induction h generalizing v read with
  | nil =>
      rw [List.nil_append, (machine wrap).run_pass (step_quote wrap v read rest), List.drop_zero,
        Value.finish, Value.close_fragments]
  | @escape text fragments tail ih =>
      have hescape := step_escape wrap v read (text ++ '"' :: rest)
      simp only [List.cons_append]
      rw [(machine wrap).run_pass hescape, ← Fragment.withText_append, ← ih v (read ++ "$\x7b")]
      rfl
  | @reference name text fragments hname tail ih =>
      have hopen := step_dollar wrap v read
        (name.toList ++ '\x7d' :: (text ++ '"' :: rest))
      have hname := (readsReference wrap (v.close read)).run hname (text ++ '"' :: rest)
      simp only [List.cons_append, List.append_assoc]
      rw [(machine wrap).run_pass hopen, List.drop_one, List.tail_cons, hname, ih,
        Fragment.withText_empty, Value.refer_fragments]
      simp [Value.refer]
  | @character c text fragments noQuote noEscape noReference tail ih =>
      have hescape : ¬ ['\\', '$', '\x7b'] <+: c :: (text ++ '"' :: rest) := by
        rwa [← List.cons_append, prefix_append_quote_iff (by decide)]
      have hreference : ¬ ['$', '\x7b'] <+: c :: (text ++ '"' :: rest) := by
        rwa [← List.cons_append, prefix_append_quote_iff (by decide)]
      have hstep := step_character wrap v read noQuote hescape hreference
      rw [List.cons_append, (machine wrap).run_pass hstep, List.drop_zero, ih,
        Fragment.withText_push]

/-- A scan that goes on behind a value has read a written value up to the first quote. -/
theorem value_found (h : (machine wrap).run (.value v read) cs = .found token rest) :
    ∃ text fragments after, WrittenValue text fragments ∧ cs = text ++ '"' :: after ∧
      (machine wrap).run (.afterArgument (addArgument v.inclusion
        (.named v.key (v.fragments ++ Fragment.withText read fragments)))) after =
          .found token rest := by
  -- on the length of what is ahead: an escape and a reference are passed as a whole
  induction hn : cs.length using Nat.strongRecOn generalizing cs v read with
  | ind n ih =>
      subst hn
      cases cs with
      | nil =>
          rw [Machine.run] at h
          cases h
      | cons c cs =>
          by_cases noQuote : c = '"'
          · subst noQuote
            rw [(machine wrap).run_pass (step_quote wrap v read cs), List.drop_zero, Value.finish,
              Value.close_fragments] at h
            exact ⟨[], [], cs, .nil, rfl, h⟩
          by_cases noEscape : ['\\', '$', '\x7b'] <+: c :: cs
          · obtain ⟨ds, hds⟩ := noEscape
            simp only [List.cons_append, List.nil_append, List.cons.injEq] at hds
            obtain ⟨rfl, rfl⟩ := hds
            rw [(machine wrap).run_pass (step_escape wrap v read ds)] at h
            simp only [List.drop_succ_cons, List.drop_zero] at h
            obtain ⟨text, fragments, after, hvalue, rfl, hrun⟩ :=
              ih ds.length (by simp only [List.length_cons]; omega) h rfl
            rw [Fragment.withText_append] at hrun
            exact ⟨_, _, after, .escape hvalue, rfl, hrun⟩
          by_cases noReference : ['$', '\x7b'] <+: c :: cs
          · obtain ⟨ds, hds⟩ := noReference
            simp only [List.cons_append, List.nil_append, List.cons.injEq] at hds
            obtain ⟨rfl, rfl⟩ := hds
            rw [(machine wrap).run_pass (step_dollar wrap v read ds), List.drop_one,
              List.tail_cons] at h
            obtain ⟨name, es, hname, rfl, hrun⟩ := (readsReference wrap (v.close read)).found h
            obtain ⟨text, fragments, after, hvalue, htext, hrun⟩ :=
              ih es.length (by simp; omega) hrun rfl
            rw [Fragment.withText_empty, Value.refer_fragments] at hrun
            refine ⟨_, _, after, .reference hname hvalue, by simp [htext], ?_⟩
            simpa [Value.refer] using hrun
          · have hstep := step_character wrap v read noQuote noEscape noReference
            rw [(machine wrap).run_pass hstep, List.drop_zero] at h
            obtain ⟨text, fragments, after, hvalue, rfl, hrun⟩ := ih cs.length (by simp) h rfl
            rw [← List.cons_append, prefix_append_quote_iff (by decide)] at noEscape noReference
            rw [Fragment.withText_push] at hrun
            exact ⟨_, _, after, .character noQuote noEscape noReference hvalue, rfl, hrun⟩

end Values

section Arguments

variable (wrap : Inclusion → Token) {inclusion : Inclusion} {argument : Argument}
  {arguments : List Argument} {token : Token} {c : Char} {text cs rest : List Char}

theorem not_ident_of_blank_or_slash (h : isBlank c = true ∨ c = '/') : isIdent c = false := by
  simp only [isBlank, Bool.or_eq_true, beq_iff_eq] at h
  obtain (((rfl | rfl) | rfl) | rfl) | rfl := h <;> rfl

theorem skip_argumentOrEnd (c : Char) (cs : List Char) (h : isBlank c = true) :
    (machine wrap).step (.argumentOrEnd inclusion) c cs = .pass 0 (.argumentOrEnd inclusion) :=
  if_pos h

theorem pass_relay (read : String) (c : Char) (cs : List Char) (h : isIdent c = true) :
    (machine wrap).step (.relay inclusion read) c cs = .pass 0 (.relay inclusion (read.push c)) :=
  if_pos h

theorem pass_key (read : String) (c : Char) (cs : List Char) (h : isIdent c = true) :
    (machine wrap).step (.key inclusion read) c cs = .pass 0 (.key inclusion (read.push c)) :=
  if_pos h

theorem step_wildcard (cs : List Char) :
    (machine wrap).step (.argumentOrEnd inclusion) '$' ('*' :: cs) =
      .pass 1 (.afterArgument (addArgument inclusion .wildcard)) := by
  simp [machine, step, isBlank]

theorem ne_star_of_ident (h : isIdent c = true) : c ≠ '*' := by
  rintro rfl
  cases h

theorem step_relay (hc : isIdent c = true) (cs : List Char) :
    (machine wrap).step (.argumentOrEnd inclusion) '$' (c :: cs) =
      .pass 0 (.relay inclusion "") := by
  simp [machine, step, isBlank, hc, ne_star_of_ident hc]

theorem step_key (hc : isIdent c = true) (cs : List Char) :
    (machine wrap).step (.argumentOrEnd inclusion) c cs = .stay (.key inclusion "") := by
  have hne : ∀ d, isIdent d = false → c ≠ d := by
    rintro d hd rfl
    rw [hc] at hd
    cases hd
  have hblank : isBlank c = false := by
    simp [isBlank, hne ' ' rfl, hne '\t' rfl, hne '\r' rfl, hne '\n' rfl]
  simp [machine, step, hblank, hc, hne '/' rfl, hne '$' rfl]

theorem step_relay_end (hc : isIdent c = false) (read : String) (cs : List Char) :
    (machine wrap).step (.relay inclusion read) c cs =
      .stay (.afterArgument (addArgument inclusion (.relay read))) := by
  simp [machine, step, hc]

theorem step_equals (read : String) (cs : List Char) :
    (machine wrap).step (.key inclusion read) '=' ('"' :: cs) =
      .pass 1 (.value ⟨inclusion, read, []⟩ "") := by
  simp [machine, step, isIdent, isLetter, isDigit]

theorem step_end (cs : List Char) :
    (machine wrap).step (.argumentOrEnd inclusion) '/' ('>' :: cs) = .accept (wrap inclusion) 2 := by
  simp [machine, step, isBlank]

/-- A written argument is read if no character behind it could belong to a name. -/
theorem run_argument (h : WrittenArgument text argument) (inclusion : Inclusion)
    (hc : isIdent c = false) (cs : List Char) :
    (machine wrap).run (.argumentOrEnd inclusion) (text ++ c :: cs) =
      (machine wrap).run (.afterArgument (addArgument inclusion argument)) (c :: cs) := by
  cases h with
  | wildcard => exact (machine wrap).run_pass (step_wildcard wrap (c :: cs))
  | @relay name h =>
      obtain ⟨d, ds, hname⟩ := List.exists_cons_of_ne_nil (by simpa using h.1 : name.toList ≠ [])
      have hd : isIdent d = true := isIdent_iff.2 (h.2 d (by simp [hname]))
      have hword := (machine wrap).run_word (.relay inclusion)
        (fun read d hd cs => pass_relay wrap read d cs (isIdent_iff.2 (h.2 d hd))) (c :: cs)
      rw [hname] at hword
      rw [hname, List.cons_append, List.cons_append,
        (machine wrap).run_pass (step_relay wrap hd (ds ++ c :: cs)), List.drop_zero,
        ← List.cons_append, hword, (machine wrap).run_stay (step_relay_end wrap hc name cs)]
  | @named key value fragments hkey hvalue =>
      obtain ⟨d, ds, hname⟩ := List.exists_cons_of_ne_nil (by simpa using hkey.1 : key.toList ≠ [])
      have hd : isIdent d = true := isIdent_iff.2 (hkey.2 d (by simp [hname]))
      have hword := (machine wrap).run_word (.key inclusion)
        (fun read d hd cs => pass_key wrap read d cs (isIdent_iff.2 (hkey.2 d hd)))
        ('=' :: '"' :: (value ++ '"' :: c :: cs))
      have hstart : ∀ after, (machine wrap).run (.argumentOrEnd inclusion) (key.toList ++ after) =
          (machine wrap).run (.key inclusion "") (key.toList ++ after) := by
        intro after
        rw [hname, List.cons_append, (machine wrap).run_stay (step_key wrap hd _)]
      simp only [List.append_assoc, List.cons_append, List.nil_append]
      rw [hstart, hword, (machine wrap).run_pass (step_equals wrap key _), List.drop_one,
        List.tail_cons, run_value wrap hvalue, Fragment.withText_empty, List.nil_append]

/-- Behind an argument a blank or the slash of the end is ahead. -/
theorem WrittenArguments.exists_head (h : WrittenArguments text arguments) {closing : List Char}
    (hclosing : Blanks closing) (rest : List Char) :
    ∃ c cs, text ++ (closing ++ '/' :: '>' :: rest) = c :: cs ∧
      (isBlank c = true ∨ c = '/') := by
  cases h with
  | nil => exact hclosing.exists_head '/' ('>' :: rest)
  | @cons blanks text more argument arguments hblanks hne hargument tail =>
      obtain ⟨c, cs, rfl⟩ := List.exists_cons_of_ne_nil hne
      exact ⟨c, _, rfl, .inl (isBlank_iff.2 (hblanks c List.mem_cons_self))⟩

theorem run_afterArgument (hc : isBlank c = true ∨ c = '/') (cs : List Char) :
    (machine wrap).run (.afterArgument inclusion) (c :: cs) =
      (machine wrap).run (.argumentOrEnd inclusion) (c :: cs) :=
  (machine wrap).run_stay (by simp [machine, step, hc])

/-- Written arguments are read to the end of the tag, behind those that were read before. -/
theorem run_arguments (h : WrittenArguments text arguments) {closing : List Char}
    (hclosing : Blanks closing) (inclusion : Inclusion) (rest : List Char) :
    (machine wrap).run (.afterArgument inclusion) (text ++ (closing ++ '/' :: '>' :: rest)) =
      .found (wrap { inclusion with arguments := inclusion.arguments ++ arguments }) rest := by
  induction h generalizing inclusion with
  | nil =>
      obtain ⟨c, cs, hhead, hc⟩ := hclosing.exists_head '/' ('>' :: rest)
      rw [List.nil_append, hhead, run_afterArgument wrap hc, ← hhead,
        (machine wrap).run_blanks (skip_argumentOrEnd wrap) hclosing,
        (machine wrap).run_accept (step_end wrap rest), List.append_nil]
      rfl
  | @cons blanks text more argument arguments hblanks hne hargument tail ih =>
      obtain ⟨c, cs, hhead, hc⟩ := tail.exists_head hclosing rest
      obtain ⟨d, ds, hcons⟩ := List.exists_cons_of_ne_nil hne
      have hd : isBlank d = true := isBlank_iff.2 (hblanks d (by simp [hcons]))
      have hstart : ∀ after, (machine wrap).run (.afterArgument inclusion) (blanks ++ after) =
          (machine wrap).run (.argumentOrEnd inclusion) after := by
        intro after
        rw [hcons, List.cons_append, run_afterArgument wrap (.inl hd), ← List.cons_append, ← hcons,
          (machine wrap).run_blanks (skip_argumentOrEnd wrap) hblanks]
      simp only [List.append_assoc]
      rw [hstart, hhead, run_argument wrap hargument inclusion (not_ident_of_blank_or_slash hc),
        ← hhead, ih]
      simp [addArgument]

/-- Behind a dollar sign stands the asterisk of a wildcard or the name of a relayed prop. -/
theorem dollar_found
    (h : (machine wrap).run (.argumentOrEnd inclusion) ('$' :: cs) = .found token rest) :
    ∃ text argument after, WrittenArgument text argument ∧ '$' :: cs = text ++ after ∧
      (machine wrap).run (.afterArgument (addArgument inclusion argument)) after =
        .found token rest := by
  cases cs with
  | nil =>
      have hstall : (machine wrap).step (.argumentOrEnd inclusion) '$' [] =
          .stall .wildcardOrRelayMissing := by
        simp [machine, step, isBlank]
      rw [(machine wrap).run_stall hstall] at h
      cases h
  | cons d ds =>
      by_cases hstar : d = '*'
      · subst hstar
        rw [(machine wrap).run_pass (step_wildcard wrap ds), List.drop_one, List.tail_cons] at h
        exact ⟨_, _, ds, .wildcard, rfl, h⟩
      cases hd : isIdent d with
      | true =>
          rw [(machine wrap).run_pass (step_relay wrap hd ds), List.drop_zero] at h
          obtain ⟨name, e, es, htext, hname, he, hrun⟩ :=
            Machine.run_loop_found (pass_relay wrap) h
          have hne : name ≠ "" := Machine.word_ne_empty hd he htext
          rw [(machine wrap).run_stay (step_relay_end wrap he name es)] at hrun
          have hident : Identifier name := ⟨hne, fun c hc => isIdent_iff.1 (hname c hc)⟩
          exact ⟨_, _, e :: es, .relay hident, by rw [htext, List.cons_append], hrun⟩
      | false =>
          have hstall : (machine wrap).step (.argumentOrEnd inclusion) '$' (d :: ds) =
              .stall .wildcardOrRelayMissing := by
            simp [machine, step, isBlank, hstar, hd]
          rw [(machine wrap).run_stall hstall] at h
          cases h

/-- A key stands before an equals sign and a value in quotes. -/
theorem key_found (hc : isIdent c = true)
    (h : (machine wrap).run (.argumentOrEnd inclusion) (c :: cs) = .found token rest) :
    ∃ text argument after, WrittenArgument text argument ∧ c :: cs = text ++ after ∧
      (machine wrap).run (.afterArgument (addArgument inclusion argument)) after =
        .found token rest := by
  rw [(machine wrap).run_stay (step_key wrap hc cs)] at h
  obtain ⟨key, d, ds, htext, hkey, hd, hrun⟩ := Machine.run_loop_found (pass_key wrap) h
  have hne : key ≠ "" := Machine.word_ne_empty hc hd htext
  by_cases hequals : ['=', '"'] <+: d :: ds
  · obtain ⟨es, hes⟩ := hequals
    simp only [List.cons_append, List.nil_append, List.cons.injEq] at hes
    obtain ⟨rfl, rfl⟩ := hes
    rw [(machine wrap).run_pass (step_equals wrap key es), List.drop_one, List.tail_cons] at hrun
    obtain ⟨value, fragments, after, hvalue, rfl, hend⟩ := value_found wrap hrun
    rw [Fragment.withText_empty, List.nil_append] at hend
    have hident : Identifier key := ⟨hne, fun c hc => isIdent_iff.1 (hkey c hc)⟩
    exact ⟨_, _, after, .named hident hvalue, by simp [htext], hend⟩
  · have hnot : ¬ (d == '=' && ds.head? == some '"') = true := by
      rw [Bool.and_eq_true, beq_iff_eq, beq_iff_eq, List.head?_eq_some_iff]
      rintro ⟨rfl, es, rfl⟩
      exact hequals ⟨es, rfl⟩
    have hstall : (machine wrap).step (.key inclusion key) d ds = .stall .argumentValueMissing := by
      simp only [machine, step, hd, if_neg hnot, Bool.false_eq_true, if_false]
    rw [(machine wrap).run_stall hstall] at hrun
    cases hrun

theorem argument_found (hblank : isBlank c = false) (hslash : c ≠ '/')
    (h : (machine wrap).run (.argumentOrEnd inclusion) (c :: cs) = .found token rest) :
    ∃ text argument after, WrittenArgument text argument ∧ c :: cs = text ++ after ∧
      (machine wrap).run (.afterArgument (addArgument inclusion argument)) after =
        .found token rest := by
  by_cases hdollar : c = '$'
  · subst hdollar
    exact dollar_found wrap h
  cases hc : isIdent c with
  | true => exact key_found wrap hc h
  | false =>
      have hstall : (machine wrap).step (.argumentOrEnd inclusion) c cs =
          .stall .argumentOrCloseMissing := by
        simp [machine, step, hblank, hslash, hdollar, hc]
      rw [(machine wrap).run_stall hstall] at h
      cases h

theorem slash_found
    (h : (machine wrap).run (.argumentOrEnd inclusion) ('/' :: cs) = .found token rest) :
    cs = '>' :: rest ∧ token = wrap inclusion := by
  by_cases hclose : cs.head? = some '>'
  · obtain ⟨ds, rfl⟩ := List.head?_eq_some_iff.1 hclose
    rw [(machine wrap).run_accept (step_end wrap ds)] at h
    cases h
    exact ⟨rfl, rfl⟩
  · have hstall : (machine wrap).step (.argumentOrEnd inclusion) '/' cs = .stall .closeMissing := by
      simp [machine, step, isBlank, hclose]
    rw [(machine wrap).run_stall hstall] at h
    cases h

/-- A scan that goes on behind an argument reads written arguments and the end of the tag. -/
theorem afterArgument_found
    (h : (machine wrap).run (.afterArgument inclusion) cs = .found token rest) :
    ∃ text arguments closing, WrittenArguments text arguments ∧ Blanks closing ∧
      cs = text ++ (closing ++ '/' :: '>' :: rest) ∧
      token = wrap { inclusion with arguments := inclusion.arguments ++ arguments } := by
  -- on the length of what is ahead: blanks and an argument are passed as a whole
  induction hn : cs.length using Nat.strongRecOn generalizing cs inclusion with
  | ind n ih =>
      subst hn
      cases cs with
      | nil =>
          rw [Machine.run] at h
          cases h
      | cons c cs =>
          by_cases hc : isBlank c = true ∨ c = '/'
          · rw [run_afterArgument wrap hc] at h
            obtain ⟨blanks, d, ds, htext, hblanks, hd, hrun⟩ :=
              Machine.run_blanks_found (skip_argumentOrEnd wrap) h
            by_cases hslash : d = '/'
            · subst hslash
              obtain ⟨rfl, rfl⟩ := slash_found wrap hrun
              exact ⟨[], [], blanks, .nil, hblanks, htext, by rw [List.append_nil]⟩
            · have hne : blanks ≠ [] := by
                rintro rfl
                obtain ⟨rfl, rfl⟩ := List.cons.inj htext
                obtain hblank | rfl := hc
                · rw [hd] at hblank
                  cases hblank
                · exact hslash rfl
              obtain ⟨text, argument, after, hargument, hafter, hrun⟩ :=
                argument_found wrap hd hslash hrun
              have hlength : after.length < (c :: cs).length := by
                have hpos := List.length_pos_of_ne_nil hne
                rw [htext, hafter]
                simp only [List.length_append]
                omega
              obtain ⟨more, arguments, closing, harguments, hclosing, rfl, rfl⟩ :=
                ih after.length hlength hrun rfl
              refine ⟨_, _, closing, .cons hblanks hne hargument harguments, hclosing, ?_, ?_⟩
              · simp [htext, hafter]
              · simp [addArgument]
          · have hstall : (machine wrap).step (.afterArgument inclusion) c cs =
                .stall .blankOrCloseMissing := by
              simp [machine, step, hc]
            rw [(machine wrap).run_stall hstall] at h
            cases h

end Arguments

end InclusionTag

end Stencil
