import Stencil.Proofs.InclusionTags
import Stencil.Proofs.LosslessLexing
import Stencil.Proofs.ScanSteps

/-!
# Where an escaped placeholder is scanned all the same

A backslash before a dollar sign and a brace keeps them as text wherever the lexer or the scan of an
argument's value comes to the backslash. A scan that takes the backslash into a name, an id or a
reference stalls at the dollar sign, and lexing goes on there. Behind such a stall, and nowhere
else, an escaped placeholder is scanned.
-/

namespace Stencil

/-- A stall at a character that the name, id or reference being read may not hold. -/
def Stall.AtNameCharacter (reason : Stall) : Prop :=
  reason = .propNameCharacter ∨ reason = .nameOrIdCharacter ∨ reason = .referenceCharacter

/-- A machine that passes a backslash before a placeholder only while it reads a name, and that
gives the name up at the dollar sign. -/
structure Machine.BackslashInNames {σ : Type} (m : Machine σ) (naming : σ → Prop) : Prop where
  pass : ∀ {s t c cs n}, m.step s c cs = .pass n t → (c :: cs.take n).getLast? = some '\\' →
    ['$', '\x7b'] <+: cs.drop n → naming t
  stall : ∀ {s}, naming s → ∀ cs, ∃ reason, m.step s '$' cs = .stall reason ∧
    reason.AtNameCharacter
  accept : ∀ {s c cs token n}, m.step s c cs = .accept token n →
    ['$', '\x7b'] <+: (c :: cs).drop n → ∃ d ≠ '\\', ((c :: cs).take n).getLast? = some d

namespace Machine.BackslashInNames

variable {σ : Type} {m : Machine σ} {naming : σ → Prop} {s t : σ}
variable {cs passed ds used rest : List Char}

theorem naming_of_reaches (h : m.BackslashInNames naming) (hreach : m.Reaches s cs passed t ds)
    (behind : passed.getLast? = some '\\') (ahead : ['$', '\x7b'] <+: ds) : naming t := by
  induction hreach with
  | start => cases behind
  | stay earlier hstep ih =>
      obtain rfl := (List.cons_prefix_cons.1 ahead).1
      obtain ⟨reason, hstall, _⟩ := h.stall (ih behind ahead) _
      rw [hstep] at hstall
      cases hstall
  | pass earlier hstep ih =>
      rw [List.getLast?_append_of_ne_nil _ (List.cons_ne_nil _ _)] at behind
      exact h.pass hstep behind ahead

/-- A scan that ends behind a backslash and before a placeholder has stalled in a name. -/
theorem run (h : m.BackslashInNames naming) {outcome : Outcome}
    (hrun : m.run s (used ++ rest) = outcome) (hrest : outcome.rest = rest)
    (behind : used.getLast? = some '\\') (ahead : ['$', '\x7b'] <+: rest) :
    ∃ reason, outcome = .stalled reason rest ∧ reason.AtNameCharacter := by
  cases outcome with
  | found token left =>
      obtain rfl : left = rest := hrest
      exfalso
      obtain ⟨passed, t, c, ds, n, hreach, hstep, hleft⟩ := Reaches.start.found hrun
      have htext : used ++ left = passed ++ (c :: ds).take n ++ left := by
        calc
          used ++ left = passed ++ (c :: ds) := hreach.append.symm
          _ = passed ++ ((c :: ds).take n ++ (c :: ds).drop n) := by rw [List.take_append_drop]
          _ = passed ++ (c :: ds).take n ++ left := by rw [← hleft, List.append_assoc]
      obtain ⟨d, hd, hlast⟩ := h.accept hstep (hleft ▸ ahead)
      rw [List.append_cancel_right htext, List.getLast?_append, hlast] at behind
      exact hd (Option.some.inj behind)
  | stalled reason left =>
      obtain rfl : left = rest := hrest
      obtain rfl | ⟨passed, t, c, ds, hreach, hstep, rfl⟩ := Reaches.start.stalled hrun
      · cases List.prefix_nil.1 ahead
      · have hused : passed = used := List.append_cancel_right hreach.append
        rw [← hused] at behind
        obtain rfl := (List.cons_prefix_cons.1 ahead).1
        obtain ⟨other, hother, hname⟩ := h.stall (h.naming_of_reaches hreach behind ahead) ds
        rw [hstep] at hother
        cases hother
        exact ⟨reason, rfl, hname⟩

/-- The same for a text whose scan starts behind an opening word. -/
theorem run_behind (h : m.BackslashInNames naming) (word : List Char)
    (hword : word.getLast? ≠ some '\\') {text : List Char} {outcome : Outcome}
    (htext : text ++ rest = word ++ cs) (hrun : outcome = m.run s cs) (hrest : outcome.rest = rest)
    (behind : text.getLast? = some '\\') (ahead : ['$', '\x7b'] <+: rest) :
    ∃ reason, outcome = .stalled reason rest ∧ reason.AtNameCharacter := by
  obtain ⟨used, rfl⟩ : rest <:+ cs := by
    rw [← hrest, hrun]
    exact m.run_rest_suffix s cs
  rw [← List.append_assoc] at htext
  rw [List.append_cancel_right htext, List.getLast?_append] at behind
  obtain hused | ⟨_, hlast⟩ := Option.or_eq_some_iff.1 behind
  · exact h.run hrun.symm hrest hused ahead
  · exact absurd hlast hword

end Machine.BackslashInNames

namespace Placeholder

theorem scan_found {cs rest : List Char} {token : Token} (h : scan cs = .found token rest) :
    ∃ name type, token = .prop name type := by
  refine Machine.run_found (m := machine) (P := fun t => ∃ name type, t = .prop name type) ?_ h
  intro s c cs token n hstep
  cases s <;> simp only [machine, step] at hstep <;> (repeat' split at hstep) <;> cases hstep
  all_goals exact ⟨_, _, rfl⟩

def Naming : State → Prop
  | .name _ => True
  | _ => False

theorem pass_zero {s t : State} {c : Char} {cs : List Char} {n : Nat}
    (h : step s c cs = .pass n t) : n = 0 := by
  cases s <;> simp only [step] at h <;> (repeat' split at h) <;> cases h
  all_goals rfl

theorem step_backslash {s t : State} {cs : List Char} {n : Nat}
    (h : step s '\\' cs = .pass n t) : Naming t := by
  cases s with
  | name read =>
      simp [step, isBlank, isPropStop] at h
      obtain ⟨_, rfl⟩ := h
      trivial
  | type name read =>
      simp only [step] at h
      split at h
      case isTrue hletter => cases hletter
      case isFalse => split at h <;> cases h
  | _ => simp [step, isBlank] at h

theorem accept_brace {s : State} {c : Char} {cs : List Char} {token : Token} {n : Nat}
    (h : step s c cs = .accept token n) : n = 1 ∧ c = '\x7d' := by
  cases s <;> simp only [step] at h <;> (repeat' split at h) <;> cases h
  all_goals exact ⟨rfl, beq_iff_eq.1 ‹_›⟩

theorem backslashInNames : machine.BackslashInNames Naming where
  pass hstep behind _ := by
    obtain rfl := pass_zero hstep
    cases behind
    exact step_backslash hstep
  stall {s} hnaming cs := by
    cases s <;> cases hnaming
    exact ⟨.propNameCharacter, rfl, .inl rfl⟩
  accept hstep _ := by
    obtain ⟨rfl, rfl⟩ := accept_brace hstep
    exact ⟨'\x7d', by decide, rfl⟩

end Placeholder

namespace Shorthand

theorem backslashInNames : machine.BackslashInNames fun _ => False where
  pass {s t c cs n} hstep behind _ := by
    simp only [machine, step] at hstep
    (repeat' split at hstep) <;> cases hstep
    cases behind
    contradiction
  stall hnaming := hnaming.elim
  accept {s c cs token n} hstep ahead := by
    simp only [machine, step] at hstep
    (repeat' split at hstep) <;> cases hstep
    obtain rfl := (List.cons_prefix_cons.1 ahead).1
    contradiction

end Shorthand

namespace InclusionTag

variable {wrap : Inclusion → Token} {s t : State} {c : Char} {cs : List Char} {n : Nat}

def Naming : State → Prop
  | .name _ _ => True
  | .id _ _ => True
  | .reference _ _ => True
  | _ => False

/-- The words that are passed at once. -/
def words : List (List Char) :=
  [nameOpening, idOpening, ['$', '*'], ['=', '"'], ['\\', '$', '\x7b'], ['$', '\x7b']]

theorem pair_prefix {d e : Char} (hc : c = d) (hcs : cs.head? = some e) : [d, e] <+: c :: cs := by
  obtain ⟨tail, rfl⟩ := List.head?_eq_some_iff.1 hcs
  exact ⟨tail, by rw [hc]; rfl⟩

/-- A single character is passed, or one of the words. -/
theorem pass_cases (h : step wrap s c cs = .pass n t) :
    n = 0 ∨ ∃ word ∈ words, word.length = n + 1 ∧ word <+: c :: cs := by
  cases s <;> simp only [step] at h <;> (repeat' split at h) <;> cases h
  all_goals try exact .inl rfl
  · exact .inr ⟨nameOpening, by simp [words], rfl, List.isPrefixOf_iff_prefix.1 ‹_›⟩
  · exact .inr ⟨idOpening, by simp [words], rfl, List.isPrefixOf_iff_prefix.1 ‹_›⟩
  · rename_i hdollar _ d hhead hstar
    rw [beq_iff_eq.1 hstar] at hhead
    exact .inr ⟨['$', '*'], by simp [words], rfl, pair_prefix (beq_iff_eq.1 hdollar) hhead⟩
  · rename_i hequals
    obtain ⟨hc, hhead⟩ := Bool.and_eq_true_iff.1 hequals
    exact .inr ⟨['=', '"'], by simp [words], rfl,
      pair_prefix (beq_iff_eq.1 hc) (beq_iff_eq.1 hhead)⟩
  · rename_i hescape
    obtain ⟨hc, hprefix⟩ := Bool.and_eq_true_iff.1 hescape
    refine .inr ⟨['\\', '$', '\x7b'], by simp [words], rfl, ?_⟩
    exact List.cons_prefix_cons.2
      ⟨(beq_iff_eq.1 hc).symm, List.isPrefixOf_iff_prefix.1 hprefix⟩
  · rename_i hreference
    obtain ⟨hc, hhead⟩ := Bool.and_eq_true_iff.1 hreference
    exact .inr ⟨['$', '\x7b'], by simp [words], rfl,
      pair_prefix (beq_iff_eq.1 hc) (beq_iff_eq.1 hhead)⟩

/-- No word ends in a backslash, so what ends in one is a single character. -/
theorem pass_zero_of_backslash (h : step wrap s c cs = .pass n t)
    (behind : (c :: cs.take n).getLast? = some '\\') : n = 0 := by
  obtain hzero | ⟨word, hword, hlength, hprefix⟩ := pass_cases h
  · exact hzero
  · have htake : word = c :: cs.take n := by
      rw [List.prefix_iff_eq_take.1 hprefix, hlength, List.take_succ_cons]
    have hlast : ∀ word ∈ words, word.getLast? ≠ some '\\' := by decide
    rw [← htake] at behind
    exact absurd behind (hlast word hword)

theorem step_backslash (h : step wrap s '\\' cs = .pass 0 t) (ahead : ['$', '\x7b'] <+: cs) :
    Naming t := by
  cases s with
  | name head read =>
      simp [step, isBlank, isValueStop] at h
      subst h
      trivial
  | id head read =>
      simp [step, isBlank, isValueStop] at h
      subst h
      trivial
  | reference v read =>
      simp [step, isBlank, isPropStop] at h
      subst h
      trivial
  | value v text => simp [step, List.isPrefixOf_iff_prefix.2 ahead] at h
  | «attribute» head => simp [step, nameOpening, idOpening] at h
  | _ => simp [step, isBlank, isIdent, isLetter, isDigit] at h

theorem accept_close {token : Token} (h : step wrap s c cs = .accept token n) :
    n = 2 ∧ ∃ tail, cs = '>' :: tail := by
  cases s <;> simp only [step] at h <;> (repeat' split at h) <;> cases h
  exact ⟨rfl, List.head?_eq_some_iff.1 (beq_iff_eq.1 ‹_›)⟩

theorem backslashInNames (wrap : Inclusion → Token) :
    (machine wrap).BackslashInNames Naming where
  pass hstep behind ahead := by
    obtain rfl := pass_zero_of_backslash hstep behind
    cases behind
    exact step_backslash hstep ahead
  stall {s} hnaming cs := by
    cases s <;> cases hnaming
    · exact ⟨.nameOrIdCharacter, rfl, .inr (.inl rfl)⟩
    · exact ⟨.nameOrIdCharacter, rfl, .inr (.inl rfl)⟩
    · exact ⟨.referenceCharacter, rfl, .inr (.inr rfl)⟩
  accept hstep _ := by
    obtain ⟨rfl, tail, rfl⟩ := accept_close hstep
    exact ⟨'>', by decide, rfl⟩

end InclusionTag

namespace Segment

/-- A construct that ends behind a backslash and before a placeholder is given up in a name. -/
theorem stalled_behind_backslash {context : TagContext} {before : Option Char}
    {text rest : List Char} {kind : Construct} {outcome : Outcome}
    (h : opening? context before (text ++ rest) = some (kind, outcome))
    (hrest : outcome.rest = rest) (behind : text.getLast? = some '\\')
    (ahead : ['$', '\x7b'] <+: rest) :
    ∃ reason, outcome = .stalled reason rest ∧ reason.AtNameCharacter := by
  obtain ⟨cs, htext, _, hscan⟩ | ⟨c, cs, htext, _, _, _, _, hscan⟩ | ⟨c, cs, htext, hc, _, hscan⟩ |
    ⟨c, cs, htext, hc, _, hscan⟩ := opening?_cases h
  · exact Placeholder.backslashInNames.run_behind ['$', '\x7b'] (by decide) htext hscan hrest
      behind ahead
  · exact Shorthand.backslashInNames.run_behind ['$'] (by decide) htext hscan hrest behind ahead
  · have hblank : c ≠ '\\' := by
      rintro rfl
      cases hc
    exact (InclusionTag.backslashInNames _).run_behind ['<', 'e', 'z', '-', 'f', 'o', 'r', c]
      (by simpa using hblank) htext hscan hrest behind ahead
  · have hblank : c ≠ '\\' := by
      rintro rfl
      cases hc
    exact (InclusionTag.backslashInNames _).run_behind ['<', 'e', 'z', c]
      (by simpa using hblank) htext hscan hrest behind ahead

/-- A segment that begins where a placeholder opens, whether it was scanned to its end or not. -/
def IsPlaceholder : Segment → Prop
  | .construct (.prop _ _) _ => True
  | .recovered .prop _ _ => True
  | _ => False

end Segment

namespace Division

variable {context : TagContext} {before : Option Char} {cs : List Char}
variable {segment : Segment} {passed more : List Segment}

/-- Behind some of its segments a division goes on with the others. -/
theorem drop (h : Division context before cs (passed ++ more)) :
    ∃ context' before', Division context' before' (more.flatMap Segment.source) more := by
  induction passed generalizing context before cs with
  | nil =>
      rw [List.nil_append] at h
      rw [h.source]
      exact ⟨context, before, h⟩
  | cons first passed ih =>
      rw [List.cons_append] at h
      cases h with
      | plain _ _ _ tail => exact ih tail
      | escape tail => exact ih tail
      | forwarded tail => exact ih tail
      | construct _ _ tail => exact ih tail
      | recovered _ _ tail => exact ih tail

/-- Only a construct that was given up in a name ends behind a backslash and before a
placeholder. -/
theorem recovered_of_backslash (h : Division context before cs (segment :: more))
    (behind : segment.source.getLast? = some '\\')
    (ahead : ['$', '\x7b'] <+: more.flatMap Segment.source) :
    ∃ kind reason text, segment = .recovered kind reason text ∧ reason.AtNameCharacter := by
  cases h with
  | @plain _ _ c cs _ noEscape noForward noOpening tail =>
      cases behind
      rw [tail.source] at ahead
      exact absurd (List.cons_prefix_cons.2 ⟨rfl, ahead⟩) noEscape
  | escape tail => cases behind
  | forwarded tail => cases behind
  | construct nonempty scan tail =>
      rw [tail.source] at ahead
      obtain ⟨reason, hstalled, _⟩ := Segment.stalled_behind_backslash scan rfl behind ahead
      cases hstalled
  | @recovered _ _ kind reason text rest _ nonempty scan tail =>
      rw [tail.source] at ahead
      obtain ⟨other, hstalled, hname⟩ := Segment.stalled_behind_backslash scan rfl behind ahead
      cases hstalled
      exact ⟨kind, reason, text, rfl, hname⟩

theorem source_ne_nil (h : Division context before cs (segment :: more)) :
    segment.source ≠ [] := by
  cases h with
  | construct nonempty scan tail => exact nonempty
  | recovered nonempty scan tail => exact nonempty
  | _ => exact List.cons_ne_nil _ _

/-- Where a placeholder is ahead, it is scanned. -/
theorem isPlaceholder_of_ahead (h : Division context before cs (segment :: more))
    (ahead : ['$', '\x7b'] <+: cs) : segment.IsPlaceholder := by
  obtain ⟨ds, hds⟩ := ahead
  cases h with
  | plain _ _ noOpening tail =>
      rw [← hds] at noOpening
      cases noOpening
  | escape tail => cases hds
  | forwarded tail => cases hds
  | construct nonempty scan tail =>
      rw [← hds] at scan
      have hscan : Placeholder.scan ds = .found _ _ := congrArg Prod.snd (Option.some.inj scan)
      obtain ⟨name, type, rfl⟩ := Placeholder.scan_found hscan
      trivial
  | recovered nonempty scan tail =>
      rw [← hds] at scan
      obtain rfl : Construct.prop = _ := congrArg Prod.fst (Option.some.inj scan)
      trivial

end Division

/-- A placeholder is scanned right behind the beginning `front` of a source. -/
def ScansPlaceholder (source : String) (front : List Char) : Prop :=
  ∃ passed segment more, segments source = passed ++ segment :: more ∧
    passed.flatMap Segment.source = front ∧ segment.IsPlaceholder

/-- The scan of an inclusion tag, which may be given up later, comes to a placeholder in the value
of an argument right behind the beginning `front` of a source. -/
def ScansReference (source : String) (front : List Char) : Prop :=
  ∃ passed more wrap body read value text rest, segments source = passed ++ more ∧
    OpensTag (more.flatMap Segment.source) wrap body ∧
    (InclusionTag.machine wrap).Reaches (.beforeAttribute .nothing) body read (.value value text)
      ('$' :: '\x7b' :: rest) ∧
    source.toList = front ++ '$' :: '\x7b' :: rest

/-- The scan of a value has no backslash right behind it where it comes to a placeholder. -/
theorem not_scansReference_behind_backslash (source : String) (front : List Char) :
    ¬ ScansReference source (front ++ ['\\']) := by
  rintro ⟨passed, more, wrap, body, read, value, text, rest, hsegments, htag, hreach, hsource⟩
  obtain ⟨word, blank, htext, hblank⟩ := htag.exists_blank
  have hwhole := (segmentation_segments source).whole
  have hfront : passed.flatMap Segment.source ++ word ++ [blank] ++ read = front ++ ['\\'] := by
    apply List.append_cancel_right
    calc
      passed.flatMap Segment.source ++ word ++ [blank] ++ read ++ '$' :: '\x7b' :: rest
          = passed.flatMap Segment.source ++ more.flatMap Segment.source := by
        rw [htext, ← hreach.append]
        simp
      _ = source.toList := by rw [← hwhole, hsegments, List.flatMap_append]
      _ = front ++ ['\\'] ++ '$' :: '\x7b' :: rest := hsource
  have hlast := congrArg List.getLast? hfront
  rw [List.getLast?_append, List.getLast?_concat, List.getLast?_concat] at hlast
  obtain behind | ⟨_, heq⟩ := Option.or_eq_some_iff.1 hlast
  · have hnaming := (InclusionTag.backslashInNames wrap).naming_of_reaches hreach behind ⟨rest, rfl⟩
    exact hnaming
  · cases heq
    exact absurd hblank (by decide)

/-- An escaped placeholder is kept as text in the source: nothing is scanned as a placeholder behind
its backslash. -/
def KeepsEscapes (source : String) : Prop :=
  ∀ front rest, source.toList = front ++ '\\' :: '$' :: '\x7b' :: rest →
    ¬ ScansPlaceholder source (front ++ ['\\']) ∧ ¬ ScansReference source (front ++ ['\\'])

/-- Behind segments that cover a beginning of the source, the others cover what is left of it. -/
theorem segments_source_ahead {source : String} {passed more : List Segment}
    {front ahead : List Char} (hsegments : segments source = passed ++ more)
    (hpassed : passed.flatMap Segment.source = front) (hsource : source.toList = front ++ ahead) :
    more.flatMap Segment.source = ahead := by
  have hwhole := (segmentation_segments source).whole
  rw [hsegments, List.flatMap_append, hpassed, hsource] at hwhole
  exact List.append_cancel_left hwhole

/-- An escaped placeholder is scanned where a construct is given up in a name that ends in the
backslash, and nowhere else; in the value of an argument it is never scanned. -/
theorem scansPlaceholder_behind_backslash {source : String} {front rest : List Char}
    (h : source.toList = front ++ '\\' :: '$' :: '\x7b' :: rest) :
    ¬ ScansReference source (front ++ ['\\']) ∧
    (ScansPlaceholder source (front ++ ['\\']) ↔
      ∃ passed kind reason text more,
        segments source = passed ++ .recovered kind reason text :: more ∧
        passed.flatMap Segment.source ++ text = front ++ ['\\'] ∧ reason.AtNameCharacter) := by
  have hsource : source.toList = (front ++ ['\\']) ++ '$' :: '\x7b' :: rest := by
    rw [h, List.append_assoc, List.singleton_append]
  have hdivision := (segmentation_segments source).division
  refine ⟨not_scansReference_behind_backslash source front, ?_, ?_⟩
  · rintro ⟨passed, segment, more, hsegments, hpassed, _⟩
    have hahead := segments_source_ahead hsegments hpassed hsource
    -- the segment that ends in the backslash is the last of those before the placeholder
    obtain rfl | ⟨earlier, last, rfl⟩ := List.eq_nil_or_concat' passed
    · simp at hpassed
    · have hlast : segments source = earlier ++ last :: segment :: more := by
        rw [hsegments, List.append_assoc, List.singleton_append]
      rw [hlast] at hdivision
      obtain ⟨_, _, hrest⟩ := hdivision.drop
      rw [List.flatMap_append, List.flatMap_singleton] at hpassed
      have behind : last.source.getLast? = some '\\' := by
        rw [← List.getLast?_append_of_ne_nil _ hrest.source_ne_nil, hpassed, List.getLast?_concat]
      obtain ⟨kind, reason, text, rfl, hname⟩ :=
        hrest.recovered_of_backslash behind ⟨rest, hahead.symm⟩
      exact ⟨earlier, kind, reason, text, segment :: more, hlast, hpassed, hname⟩
  · rintro ⟨passed, kind, reason, text, more, hsegments, hcovered, _⟩
    have hthrough : segments source = (passed ++ [Segment.recovered kind reason text]) ++ more := by
      rw [hsegments, List.append_assoc, List.singleton_append]
    have hcover : (passed ++ [Segment.recovered kind reason text]).flatMap Segment.source =
        front ++ ['\\'] := by
      rw [List.flatMap_append, List.flatMap_singleton]
      exact hcovered
    have hahead := segments_source_ahead hthrough hcover hsource
    cases more with
    | nil => cases hahead
    | cons segment more =>
        rw [hthrough] at hdivision
        obtain ⟨_, _, hrest⟩ := hdivision.drop
        have hplaceholder := hrest.isPlaceholder_of_ahead ⟨rest, hahead.symm⟩
        exact ⟨_, segment, more, hthrough, hcover, hplaceholder⟩

/-- Lexing goes on at the dollar sign that the name of the first placeholder may not hold, and so
scans the escaped one. -/
theorem segments_abandoned_name : segments "$\x7ba\\$\x7bb\x7d" =
    [.recovered .prop .propNameCharacter ['$', '\x7b', 'a', '\\'],
      .construct (.prop "b" .any) ['$', '\x7b', 'b', '\x7d']] := by
  cbv

theorem scansPlaceholder_behind_abandoned_name :
    ¬ ScansReference "$\x7ba\\$\x7bb\x7d" ['$', '\x7b', 'a', '\\'] ∧
      ScansPlaceholder "$\x7ba\\$\x7bb\x7d" ['$', '\x7b', 'a', '\\'] := by
  have hscans := @scansPlaceholder_behind_backslash "$\x7ba\\$\x7bb\x7d" ['$', '\x7b', 'a']
    ['b', '\x7d'] (by decide)
  refine ⟨hscans.1, hscans.2.2 ?_⟩
  exact ⟨[], _, _, _, _, segments_abandoned_name, rfl, .inl rfl⟩

theorem not_keepsEscapes_abandoned_name : ¬ KeepsEscapes "$\x7ba\\$\x7bb\x7d" := by
  intro hkeeps
  have hnone := (hkeeps ['$', '\x7b', 'a'] ['b', '\x7d'] (by decide)).1
  apply hnone
  exact ⟨[_], _, [], segments_abandoned_name, rfl, trivial⟩

end Stencil
