import Stencil.Proofs.ClosedScans
import Stencil.Proofs.Positions

/-!
# Lexing across a closed boundary

Where a text ends in `>` outside of every tag and with no construct given up for want of more input,
lexing starts anew behind it. What follows is lexed as it is on its own, but for two literals that
meet at the boundary and for the places in the source.
-/

namespace Stencil

namespace Segment

variable {context : TagContext} {before : Option Char} {word rest text more : List Char}
variable {kind : Construct} {scan : List Char → Outcome} {outcome : Outcome}

/-- The words that open a construct, with the scan of what stands behind them. -/
inductive OpeningWord (context : TagContext) (before : Option Char) :
    List Char → Construct → (List Char → Outcome) → Prop
  | placeholder : OpeningWord context before ['$', '\x7b'] .prop Placeholder.scan
  | shorthand {c} (ident : isIdent c = true) (inside : context = .inside)
      (behind : before.any isBlank = true) :
      OpeningWord context before ['$', c] .attribute fun cs => Shorthand.scan (c :: cs)
  | repeated {c} (blank : isBlank c = true) :
      OpeningWord context before ['<', 'e', 'z', '-', 'f', 'o', 'r', c] .repeated
        (InclusionTag.scan .repeated)
  | single {c} (blank : isBlank c = true) :
      OpeningWord context before ['<', 'e', 'z', c] .single (InclusionTag.scan .single)

theorem OpeningWord.opening? (h : OpeningWord context before word kind scan) (rest : List Char) :
    Segment.opening? context before (word ++ rest) = some (kind, scan rest) := by
  cases h with
  | placeholder => rfl
  | @shorthand c ident inside behind =>
      exact opening?_shorthand_iff.2 ⟨inside, behind, c, rest, rfl, ident, rfl⟩
  | repeated blank => simp [Segment.opening?, blank]
  | @single c blank =>
      have hdash : c ≠ '-' := ne_of_apply_ne isBlank (by rw [blank]; decide)
      simp [Segment.opening?, hdash, blank]

/-- A construct opens where one of the words stands. -/
theorem opening?_eq_some_iff : opening? context before text = some (kind, outcome) ↔
    ∃ word scan rest, OpeningWord context before word kind scan ∧ text = word ++ rest ∧
      outcome = scan rest := by
  constructor
  · intro h
    obtain ⟨cs, rfl, rfl, rfl⟩ | ⟨c, cs, rfl, ident, inside, behind, rfl, rfl⟩ |
      ⟨c, cs, rfl, blank, rfl, rfl⟩ | ⟨c, cs, rfl, blank, rfl, rfl⟩ := opening?_cases h
    · exact ⟨_, _, cs, .placeholder, rfl, rfl⟩
    · exact ⟨_, _, cs, .shorthand ident inside behind, rfl, rfl⟩
    · exact ⟨_, _, cs, .repeated blank, rfl, rfl⟩
    · exact ⟨_, _, cs, .single blank, rfl, rfl⟩
  · rintro ⟨word, scan, rest, hword, rfl, rfl⟩
    exact hword.opening? rest

theorem OpeningWord.close_not_mem (h : OpeningWord context before word kind scan) :
    '>' ∉ word := by
  cases h with
  | placeholder => decide
  | @shorthand c ident _ _ =>
      have hc : '>' ≠ c := ne_of_apply_ne isIdent (by rw [ident]; decide)
      simp [hc]
  | @repeated c blank =>
      have hc : '>' ≠ c := ne_of_apply_ne isBlank (by rw [blank]; decide)
      simp [hc]
  | @single c blank =>
      have hc : '>' ≠ c := ne_of_apply_ne isBlank (by rw [blank]; decide)
      simp [hc]

theorem OpeningWord.scan_append (h : OpeningWord context before word kind scan)
    (closed : Closed (word ++ rest)) (finished : scan rest ≠ .stalled .endOfInput []) :
    scan (rest ++ more) = (scan rest).append more := by
  have hrest : Closed rest := closed.suffix (List.suffix_append word rest)
  cases h with
  | placeholder => exact Machine.run_append Placeholder.staysInside hrest finished
  | @shorthand c _ _ _ =>
      have hname : Closed (c :: rest) := closed.tail
      exact Machine.run_append Shorthand.staysInside hname finished
  | repeated _ => exact Machine.run_append (InclusionTag.staysInside _) hrest finished
  | single _ => exact Machine.run_append (InclusionTag.staysInside _) hrest finished

/-- A construct that is scanned to its end or given up within the text is the same where more
follows. -/
theorem opening?_append (closed : Closed text)
    (h : opening? context before text = some (kind, outcome))
    (finished : outcome ≠ .stalled .endOfInput []) (more : List Char) :
    opening? context before (text ++ more) = some (kind, outcome.append more) := by
  obtain ⟨word, scan, rest, hword, rfl, rfl⟩ := opening?_eq_some_iff.1 h
  rw [List.append_assoc, hword.opening?, hword.scan_append closed finished]

/-- Where no construct opens in the text, none does where more follows. -/
theorem opening?_append_eq_none (closed : Closed text) (nonempty : text ≠ [])
    (h : opening? context before text = none) : opening? context before (text ++ more) = none := by
  cases hopen : opening? context before (text ++ more) with
  | none => rfl
  | some opened =>
      obtain ⟨word, scan, rest, hword, htext, _⟩ := opening?_eq_some_iff.1 hopen
      obtain ⟨tail, rfl⟩ := closed.prefix_of_prefix nonempty hword.close_not_mem ⟨rest, htext.symm⟩
      rw [hword.opening?] at h
      cases h

/-- Outside of tags nothing depends on the character before. -/
theorem opening?_outside (before other : Option Char) (text : List Char) :
    opening? .outside before text = opening? .outside other text := by
  unfold opening?
  split <;> simp

/-- The context behind segments that reach to the end of a source. -/
def contextBehind (context : TagContext) : List Segment → TagContext
  | [] => context
  | segment :: rest =>
      contextBehind (segment.contextAfter context (rest.flatMap source)) rest

/-- The last segment is no construct that was given up. -/
def EndsComplete (segments : List Segment) : Prop :=
  ∀ passed kind reason text, segments ≠ passed ++ [.recovered kind reason text]

theorem EndsComplete.tail {segment : Segment} {segments : List Segment}
    (h : EndsComplete (segment :: segments)) : EndsComplete segments := by
  rintro passed kind reason text rfl
  exact h (segment :: passed) kind reason text rfl

end Segment

/-- What stands behind a text does not change the context behind its characters. -/
theorem TagContext.step_append {context : TagContext} {c : Char} {cs : List Char}
    (closed : Closed (c :: cs)) (more : List Char) :
    context.step c (cs ++ more).head? = context.step c cs.head? := by
  by_cases hc : c = '>'
  · subst hc
    cases context <;> simp [step]
  · rw [closed.head?_append hc]

namespace Division

variable {context : TagContext} {before : Option Char} {cs more : List Char}
variable {segments others : List Segment}

theorem nil_of_nil (h : Division context before [] segments) : segments = [] := by
  generalize htext : ([] : List Char) = text at h
  cases h with
  | done => rfl
  | construct nonempty _ _ => exact absurd (List.append_eq_nil_iff.1 htext.symm).1 nonempty
  | recovered nonempty _ _ => exact absurd (List.append_eq_nil_iff.1 htext.symm).1 nonempty
  | _ => cases htext

/-- Outside of tags a text is divided alike behind any character. -/
theorem outside (h : Division .outside before cs segments) (other : Option Char) :
    Division .outside other cs segments := by
  cases h with
  | done => exact .done
  | plain noEscape noForward noOpening tail =>
      rw [Segment.opening?_outside before other] at noOpening
      exact .plain noEscape noForward noOpening tail
  | escape tail => exact .escape tail
  | forwarded tail => exact .forwarded tail
  | construct nonempty scan tail =>
      rw [Segment.opening?_outside before other] at scan
      exact .construct nonempty scan tail
  | recovered nonempty scan tail =>
      rw [Segment.opening?_outside before other] at scan
      exact .recovered nonempty scan tail

/-- Divisions of two texts make one of both, if the first text is closed. -/
theorem append (h : Division context before cs segments) (closed : Closed cs)
    (complete : Segment.EndsComplete segments)
    (outside : Segment.contextBehind context segments = .outside)
    (next : ∀ before, Division .outside before more others) :
    Division context before (cs ++ more) (segments ++ others) := by
  induction h with
  | @done context before =>
      obtain rfl : context = .outside := outside
      exact next before
  | @plain context before c cs segments noEscape noForward noOpening tail ih =>
      have nonempty : c :: cs ≠ [] := List.cons_ne_nil c cs
      have htail :
          Division (context.step c cs.head?) (some c) (cs ++ more) (segments ++ others) := by
        apply ih closed.tail complete.tail
        rw [← outside, Segment.contextBehind, tail.source]
        rfl
      rw [List.cons_append, List.cons_append]
      apply Division.plain
      · intro h
        exact noEscape (closed.prefix_of_prefix nonempty (by decide) h)
      · intro h
        exact noForward (closed.prefix_of_prefix nonempty (by decide) h)
      · exact Segment.opening?_append_eq_none closed nonempty noOpening
      · rw [TagContext.step_append closed more]
        exact htail
  | @escape context before cs segments tail ih =>
      apply Division.escape
      exact ih (closed.suffix (List.suffix_append ['\\', '$', '\x7b'] cs)) complete.tail outside
  | @forwarded context before cs segments tail ih =>
      apply Division.forwarded
      exact ih (closed.suffix (List.suffix_append ['$', '*'] cs)) complete.tail outside
  | @construct context before kind token text rest segments nonempty scan tail ih =>
      have hscan := Segment.opening?_append closed scan (by simp) more
      rw [List.append_assoc] at hscan ⊢
      apply Division.construct nonempty hscan
      exact ih (closed.suffix (List.suffix_append text rest)) complete.tail outside
  | @recovered context before kind reason text rest segments nonempty scan tail ih =>
      -- what was given up at the very end, the text that follows could complete
      have hrest : rest ≠ [] := by
        rintro rfl
        rw [tail.nil_of_nil] at complete
        exact complete [] kind reason text rfl
      have hscan := Segment.opening?_append closed scan (by simp [hrest]) more
      rw [List.append_assoc] at hscan ⊢
      apply Division.recovered nonempty hscan
      exact ih (closed.suffix (List.suffix_append text rest)) complete.tail outside

end Division

namespace Lexed

/-- The tokens of two lists one behind the other, where two literals that meet are one. -/
def joinTokens : List Token → List Token → List Token
  | [], others => others
  | [.literal text], .literal more :: others => .literal (text ++ more) :: others
  | token :: tokens, others => token :: joinTokens tokens others

theorem flush_of_ne {text : String} (h : text ≠ "") : flush text = [.literal text] := by
  rw [flush, if_neg]
  rwa [String.isEmpty_iff]

variable {token : Token} {tokens others : List Token}

theorem joinTokens_flush_construct (text : String) (h : token.isLiteral = false) :
    joinTokens (flush text ++ token :: tokens) others =
      flush text ++ token :: joinTokens tokens others := by
  have hcons : joinTokens (token :: tokens) others = token :: joinTokens tokens others := by
    cases token with
    | literal _ => cases h
    | _ => cases tokens <;> rfl
  by_cases htext : text = ""
  · subst htext
    exact hcons
  · rw [flush_of_ne htext, ← hcons]
    rfl

/-- Before a construct or the end, two texts make one literal. -/
theorem joinTokens_flush (text more : String)
    (h : ∀ token ∈ others.head?, token.isLiteral = false) :
    joinTokens (flush text) (flush more ++ others) = flush (text ++ more) ++ others := by
  by_cases htext : text = ""
  · subst htext
    rw [String.empty_append]
    rfl
  · have happend : text ++ more ≠ "" := by
      rw [ne_eq, String.append_eq_empty_iff]
      exact fun hboth => htext hboth.1
    rw [flush_of_ne htext, flush_of_ne happend]
    by_cases hmore : more = ""
    · subst hmore
      rw [String.append_empty]
      cases others with
      | nil => rfl
      | cons token rest =>
          have hliteral := h token rfl
          cases token with
          | literal _ => cases hliteral
          | _ => rfl
    · rw [flush_of_ne hmore]
      rfl

variable {xs ys : List Segment}

/-- Text that waits from before is joined to what follows. -/
theorem tokensOf_append_text (text more : String)
    (constructs : ∀ token source, .construct token source ∈ ys → token.isLiteral = false) :
    tokensOf (text ++ more) ys = joinTokens (flush text) (tokensOf more ys) := by
  induction ys generalizing more with
  | nil =>
      have hjoin : joinTokens (flush text) (flush more ++ []) = flush (text ++ more) ++ [] :=
        joinTokens_flush text more (by simp)
      rw [List.append_nil, List.append_nil] at hjoin
      exact hjoin.symm
  | cons segment rest ih =>
      have hrest : ∀ token source, .construct token source ∈ rest → token.isLiteral = false :=
        fun token source h => constructs token source (List.mem_cons_of_mem _ h)
      cases htoken : segment.token? with
      | some token =>
          obtain ⟨source, rfl⟩ := Segment.token?_eq_some htoken
          have hliteral := constructs token source List.mem_cons_self
          simp only [tokensOf, htoken]
          rw [joinTokens_flush text more]
          intro first hfirst
          cases hfirst
          exact hliteral
      | none =>
          simp only [tokensOf, htoken]
          rw [String.append_assoc, ih _ hrest]

/-- The tokens of segments one behind the other are those of both parts. -/
theorem tokensOf_append (pending : String)
    (constructs : ∀ token source, .construct token source ∈ xs ++ ys → token.isLiteral = false) :
    tokensOf pending (xs ++ ys) = joinTokens (tokensOf pending xs) (tokensOf "" ys) := by
  induction xs generalizing pending with
  | nil =>
      have htext := tokensOf_append_text pending "" constructs
      rwa [String.append_empty] at htext
  | cons segment rest ih =>
      have hrest : ∀ token source, .construct token source ∈ rest ++ ys →
          token.isLiteral = false :=
        fun token source h => constructs token source (List.mem_cons_of_mem _ h)
      cases htoken : segment.token? with
      | some token =>
          obtain ⟨source, rfl⟩ := Segment.token?_eq_some htoken
          have hliteral := constructs token source List.mem_cons_self
          simp only [List.cons_append, tokensOf, htoken]
          rw [joinTokens_flush_construct pending hliteral, ih _ hrest]
      | none =>
          simp only [List.cons_append, tokensOf, htoken]
          exact ih _ hrest

theorem recoveriesOf_append (p : Position) (xs ys : List Segment) :
    recoveriesOf p (xs ++ ys) =
      recoveriesOf p xs ++ recoveriesOf (p.advance (xs.flatMap Segment.source)) ys := by
  induction xs generalizing p with
  | nil => rfl
  | cons segment rest ih =>
      rw [List.flatMap_cons, Position.advance_append]
      cases segment <;> simp only [List.cons_append, recoveriesOf, ih]

end Lexed

/-- The recovery of a source that stands behind another one. Its bounds move by the bytes of the
other, and it has the line and the column of its new start. -/
def Recovery.behind (front source : String) (r : Recovery) : Recovery where
  construct := r.construct
  start := front.utf8ByteSize + r.start
  stop := front.utf8ByteSize + r.stop
  line := (Position.ofOffset (front ++ source) (front.utf8ByteSize + r.start)).line
  column := (Position.ofOffset (front ++ source) (front.utf8ByteSize + r.start)).column
  reason := r.reason

/-- Behind `passed` the recoveries of a source are those that it has on its own, moved. -/
theorem Lexed.recoveriesOf_behind (front source : String) (passed : List Char)
    (segments : List Segment)
    (h : source.toList = passed ++ segments.flatMap Segment.source) :
    recoveriesOf (Position.start.advance (front.toList ++ passed)) segments =
      (recoveriesOf (Position.start.advance passed) segments).map
        (Recovery.behind front source) := by
  have hoffset (text : List Char) : (Position.start.advance (front.toList ++ text)).offset =
      front.utf8ByteSize + (Position.start.advance text).offset := by
    rw [Position.start_advance_offset, Position.start_advance_offset, String.ofList_append,
      String.utf8ByteSize_append, String.ofList_toList]
  induction segments generalizing passed with
  | nil => rfl
  | cons segment rest ih =>
      have hsource : source.toList =
          (passed ++ segment.source) ++ rest.flatMap Segment.source := by
        rw [h, List.flatMap_cons, List.append_assoc]
      have hrest := ih _ hsource
      have hstop := hoffset (passed ++ segment.source)
      rw [← List.append_assoc, Position.advance_append, Position.advance_append _ passed]
        at hrest hstop
      cases segment with
      | recovered kind reason text =>
          have hplace : Position.ofOffset (front ++ source)
              (front.utf8ByteSize + (Position.start.advance passed).offset) =
                Position.start.advance (front.toList ++ passed) := by
            rw [← hoffset]
            apply Position.ofOffset_start_advance
            rw [String.toList_append, h, List.append_assoc]
          simp only [recoveriesOf, List.map_cons, hrest, Recovery.behind, hplace, hoffset passed,
            hstop]
      | _ => exact hrest

/-- The context in which lexing a source ends. -/
def finalContext (source : String) : TagContext :=
  Segment.contextBehind .outside (segments source)

/-- Without a recovery at the end of the source the last segment is complete. -/
theorem endsComplete_segments {source : String}
    (h : ∀ r ∈ (lex source).recovered, r.stop ≠ source.utf8ByteSize) :
    Segment.EndsComplete (segments source) := by
  rintro passed kind reason text hsegments
  have hwhole := (segmentation_segments source).whole
  rw [hsegments, List.flatMap_append, List.flatMap_singleton] at hwhole
  have hsource : String.ofList (passed.flatMap Segment.source ++ text) = source :=
    (congrArg String.ofList hwhole).trans String.ofList_toList
  let p := Position.start.advance (passed.flatMap Segment.source)
  have hstop : (p.advance text).offset = source.utf8ByteSize := by
    rw [← Position.advance_append, Position.start_advance_offset, hsource]
  have hmem : Recovery.mk kind p.offset (p.advance text).offset p.line p.column reason ∈
      (lex source).recovered := by
    change _ ∈ Lexed.recoveriesOf .start (segments source)
    rw [hsegments, Lexed.recoveriesOf_append]
    exact List.mem_append_right _ List.mem_cons_self
  exact h _ hmem hstop

/-- Lexing looks neither back nor ahead over a closed boundary. Behind a text that ends in `>`
outside of tags, and without a recovery at its end, the tokens and recoveries of another text follow
that it has on its own. Literals that meet are joined, and the places of recoveries are moved. -/
theorem lex_append_of_closed {a b : String} (closed : a.toList.getLast? = some '>')
    (outside : finalContext a = .outside)
    (complete : ∀ r ∈ (lex a).recovered, r.stop ≠ a.utf8ByteSize) :
    (lex (a ++ b)).tokens = Lexed.joinTokens (lex a).tokens (lex b).tokens ∧
      (lex (a ++ b)).recovered =
        (lex a).recovered ++ (lex b).recovered.map (Recovery.behind a b) := by
  have hsegments : segments (a ++ b) = segments a ++ segments b := by
    apply Segment.all_eq_iff.2
    rw [String.toList_append]
    apply (segmentation_segments a).division.append _ (endsComplete_segments complete) outside
    · intro before
      exact (segmentation_segments b).division.outside before
    · intro c hc
      rw [closed] at hc
      exact (Option.some.inj hc).symm
  have hconstructs := (segmentation_segments (a ++ b)).constructs
  rw [hsegments] at hconstructs
  constructor
  · change Lexed.tokensOf "" (segments (a ++ b)) = _
    rw [hsegments, Lexed.tokensOf_append "" hconstructs]
    rfl
  · have hbehind := Lexed.recoveriesOf_behind a b [] (segments b)
      (segmentation_segments b).whole.symm
    change Lexed.recoveriesOf .start (segments (a ++ b)) = _
    rw [hsegments, Lexed.recoveriesOf_append, (segmentation_segments a).whole]
    rw [List.append_nil] at hbehind
    rw [hbehind]
    rfl

/-- A text with a `>` in quotes that closes nothing, and with a placeholder that is given up. -/
def quotedTag : String := "<a b='>'>$\x7bx y\x7d<i>"

theorem lex_quotedTag : lex quotedTag =
    ⟨[.literal quotedTag], [⟨.prop, 9, 13, 1, 10, .colonOrEndMissing⟩]⟩ := by
  have hsegments : segments quotedTag = "<a b='>'>".toList.map .plain ++
      .recovered .prop .colonOrEndMissing ['$', '\x7b', 'x', ' '] ::
        "y\x7d<i>".toList.map .plain := by
    cbv
  rw [lex, hsegments]
  rfl

/-- A text that starts with a literal, in which another placeholder is given up. -/
def accented : String := "é$\x7bx y\x7d$\x7bz\x7d"

theorem lex_accented : lex accented = ⟨[.literal "é$\x7bx y\x7d", .prop "z" .any],
    [⟨.prop, 2, 6, 1, 2, .colonOrEndMissing⟩]⟩ := by
  have hsegments : segments accented = [.plain 'é',
      .recovered .prop .colonOrEndMissing ['$', '\x7b', 'x', ' '], .plain 'y', .plain '\x7d',
      .construct (.prop "z" .any) ['$', '\x7b', 'z', '\x7d']] := by
    cbv
  rw [lex, hsegments]
  rfl

/-- The literals that meet at the boundary are one, and the recovery behind it has moved. -/
theorem lex_append_of_closed_quotedTag :
    (lex (quotedTag ++ accented)).tokens =
        [.literal "<a b='>'>$\x7bx y\x7d<i>é$\x7bx y\x7d", .prop "z" .any] ∧
      (lex (quotedTag ++ accented)).recovered =
        [⟨.prop, 9, 13, 1, 10, .colonOrEndMissing⟩,
          ⟨.prop, 20, 24, 1, 20, .colonOrEndMissing⟩] := by
  have closed : quotedTag.toList.getLast? = some '>' := by decide
  have outside : finalContext quotedTag = .outside := by cbv
  have complete : ∀ r ∈ (lex quotedTag).recovered, r.stop ≠ quotedTag.utf8ByteSize := by
    rw [lex_quotedTag]
    decide
  have happend := @lex_append_of_closed quotedTag accented closed outside complete
  rw [lex_quotedTag, lex_accented] at happend
  exact happend

end Stencil
