import Stencil.Proofs.PrintedScans
import Stencil.Proofs.Segmentation

/-!
# Lexing what was printed

A printed list of tokens is lexed as that list, and no construct in it is given up. The text of a
literal waits while it is read and becomes a token where the next construct begins, so the proof
follows the list with the text that waits (`lexFrom_flatMap_print`).
-/

namespace Stencil

section Openings

variable {rest text : List Char} {c : Char} {context : TagContext} {before : Option Char}

theorem PlainText.tail (h : PlainText (c :: text)) : PlainText text where
  noSingle b hb hpart := h.noSingle b hb (hpart.trans (List.suffix_cons c text).isInfix)
  noRepeated b hb hpart := h.noRepeated b hb (hpart.trans (List.suffix_cons c text).isInfix)
  noDollar := h.noDollar.tail

theorem not_stop_of_isBlank (h : isBlank c = true) : c ∉ ['\\', '$', '<', '"'] := by
  intro hstop
  simp only [List.mem_cons, List.not_mem_nil, or_false] at hstop
  obtain rfl | rfl | rfl | rfl := hstop <;> cases h

/-- A dollar sign of a printed text has no star and no name behind it. -/
theorem PlainText.not_dollar (hplain : PlainText (c :: text)) (hrest : MayFollow rest (c :: text))
    {d : Char} (hd : d = '*' ∨ isIdent d = true) : ¬ ['$', d] <+: c :: (escaped text ++ rest) := by
  intro h
  obtain ⟨rfl, htail⟩ := List.cons_prefix_cons.1 h
  have hword : ∀ e ∈ [d], e ∉ ['\\', '$', '<', '"'] := by
    intro e he hstop
    rw [List.mem_singleton.1 he] at hstop
    simp only [List.mem_cons, List.not_mem_nil, or_false] at hstop
    obtain rfl | rfl | rfl | rfl := hstop <;> simp [isIdent, isLetter, isDigit] at hd
  obtain ⟨ds, rfl⟩ := hrest.tail.prefix_of_prefix hword htail
  obtain ⟨hstar, hident⟩ := (List.isChain_cons_cons.1 hplain.noDollar).1 rfl
  obtain hd | hd := hd
  · exact hstar hd
  · exact hident (isIdent_iff.1 hd)

theorem PlainText.not_word (hrest : MayFollow rest (c :: text)) {word : List Char}
    (hword : ∀ d ∈ word, d ∉ ['\\', '$', '<', '"']) (h : ¬ '<' :: word <:+: c :: text) :
    ¬ '<' :: word <+: c :: (escaped text ++ rest) := by
  intro hprefix
  obtain ⟨rfl, htail⟩ := List.cons_prefix_cons.1 hprefix
  have htext := hrest.tail.prefix_of_prefix hword htail
  exact h (List.cons_prefix_cons.2 ⟨rfl, htext⟩).isInfix

/-- No construct opens at a character of a printed text. -/
theorem PlainText.opening?_eq_none (hplain : PlainText (c :: text))
    (hrest : MayFollow rest (c :: text)) (hdollar : ¬ ['$', '\x7b'] <+: c :: text) :
    Segment.opening? context before (c :: (escaped text ++ rest)) = none := by
  cases hopening : Segment.opening? context before (c :: (escaped text ++ rest)) with
  | none => rfl
  | some opened =>
      exfalso
      obtain ⟨ds, hds, _⟩ | ⟨d, ds, hds, hident, _⟩ | ⟨d, ds, hds, hblank, _⟩ |
        ⟨d, ds, hds, hblank, _⟩ := Segment.opening?_cases hopening
      · exact hrest.not_reference hdollar ⟨ds, hds.symm⟩
      · exact hplain.not_dollar hrest (.inr hident) ⟨ds, hds.symm⟩
      · have hmem := isBlank_iff.1 hblank
        have hstop := not_stop_of_isBlank hblank
        refine PlainText.not_word hrest ?_ (hplain.noRepeated d hmem) ⟨ds, hds.symm⟩
        simpa using hstop
      · have hmem := isBlank_iff.1 hblank
        have hstop := not_stop_of_isBlank hblank
        refine PlainText.not_word hrest ?_ (hplain.noSingle d hmem) ⟨ds, hds.symm⟩
        simpa using hstop

end Openings

/-- The tokens and recoveries of the end of a source, behind text that waits to become a literal. -/
def lexFrom (context : TagContext) (before : Option Char) (pending : String) (p : Position)
    (cs : List Char) : Lexed :=
  ⟨Lexed.tokensOf pending (Segment.all context before cs),
    Lexed.recoveriesOf p (Segment.all context before cs)⟩

/-- A printed text waits behind the text that already waited. -/
theorem lexFrom_escaped {text rest : List Char} (hplain : PlainText text)
    (hrest : MayFollow rest text) (context : TagContext) (before : Option Char) (pending : String)
    (p : Position) :
    ∃ context' before' q, lexFrom context before pending p (escaped text ++ rest) =
      lexFrom context' before' (pending ++ String.ofList text) q rest := by
  induction text using escaped_induction generalizing context before pending p with
  | nil => exact ⟨context, before, p, by simp [escaped]⟩
  | reference cs ih =>
      obtain ⟨context', before', q, htail⟩ := ih hplain.tail.tail hrest.tail.tail context
        (some '\x7b') (pending ++ String.ofList ['$', '\x7b']) (p.advance ['\\', '$', '\x7b'])
      refine ⟨context', before', q, ?_⟩
      have hpending : pending ++ String.ofList ['$', '\x7b'] ++ String.ofList cs =
          pending ++ String.ofList ('$' :: '\x7b' :: cs) := by
        rw [String.append_assoc, ← String.ofList_append]
        rfl
      rw [← hpending, ← htail, escaped, List.cons_append, List.cons_append, List.cons_append]
      simp only [lexFrom, Segment.all_escape]
      rfl
  | plain c cs hdollar ih =>
      have hopening : Segment.opening? context before (c :: (escaped cs ++ rest)) = none :=
        hplain.opening?_eq_none hrest hdollar
      have hsegments := Segment.all_plain hrest.not_escape
        (hplain.not_dollar hrest (.inl rfl)) hopening
      obtain ⟨context', before', q, htail⟩ := ih hplain.tail hrest.tail
        (context.step c (escaped cs ++ rest).head?) (some c) (pending ++ String.ofList [c])
        (p.advance [c])
      refine ⟨context', before', q, ?_⟩
      have hpending : pending ++ String.ofList [c] ++ String.ofList cs =
          pending ++ String.ofList (c :: cs) := by
        rw [String.append_assoc, ← String.ofList_append]
        rfl
      rw [← hpending, ← htail, escaped_cons hdollar, List.cons_append]
      simp only [lexFrom, hsegments]
      rfl

/-- A printed construct is one segment, wherever it stands. -/
theorem Segment.all_print {token : Token} (h : token.Printable) (hliteral : token.isLiteral = false)
    (context : TagContext) (before : Option Char) (rest : List Char) :
    all context before (token.print ++ rest) =
      .construct token token.print :: all context token.print.getLast? rest := by
  cases token with
  | literal text => cases hliteral
  | prop name type =>
      have hname : Avoids propNameStops name := h
      have hany := Placeholder.scan_any hname rest
      have htyped := fun type => Placeholder.scan_typed hname type rest
      have hopening : opening? context before ((Token.prop name type).print ++ rest) =
          some (.prop, .found (.prop name type) rest) := by
        cases type with
        | any => simp [Token.print, opening?, hany]
        | _ => simp [Token.print, opening?, htyped]
      refine all_construct ?_ hopening
      cases type <;> simp [Token.print]
  | «attribute» name => exact h.elim
  | forwarded => exact all_forwarded context before rest
  | single inclusion =>
      have hscan := InclusionTag.scan_print .single h rest
      have hopening : opening? context before ((Token.single inclusion).print ++ rest) =
          some (.single, .found (.single inclusion) rest) := by
        simp [Token.print, opening?, isBlank, hscan]
      exact all_construct (by simp [Token.print]) hopening
  | repeated inclusion =>
      have hscan := InclusionTag.scan_print .repeated h rest
      have hopening : opening? context before ((Token.repeated inclusion).print ++ rest) =
          some (.repeated, .found (.repeated inclusion) rest) := by
        simp [Token.print, opening?, isBlank, hscan]
      exact all_construct (by simp [Token.print]) hopening

/-- A printed construct ends the text that waits, and is the token behind it. -/
theorem lexFrom_print {token : Token} (h : token.Printable) (hliteral : token.isLiteral = false)
    (context : TagContext) (before : Option Char) (pending : String) (p : Position)
    (rest : List Char) :
    ∃ before' q, lexFrom context before pending p (token.print ++ rest) =
      ⟨Lexed.flush pending ++ token :: (lexFrom context before' "" q rest).tokens,
        (lexFrom context before' "" q rest).recovered⟩ := by
  refine ⟨token.print.getLast?, p.advance token.print, ?_⟩
  simp only [lexFrom, Segment.all_print h hliteral]
  rfl

/-- A literal is followed by the end or by a construct, and no reference follows a backslash. -/
theorem Printable.mayFollow {text : String} {tokens : List Token}
    (h : Printable (.literal text :: tokens)) :
    MayFollow (tokens.flatMap Token.print) text.toList := by
  cases tokens with
  | nil => exact ⟨by simp, by simp⟩
  | cons token tokens =>
      have hnext := (List.isChain_cons_cons.1 h.chain).1
      have htoken := h.each token (by simp)
      cases token with
      | literal next => exact hnext.elim
      | prop name type =>
          refine ⟨?_, fun hlast => absurd hlast hnext⟩
          cases type <;> simp [Token.print]
      | «attribute» name => exact htoken.elim
      | forwarded => exact ⟨by simp [Token.print], by simp [Token.print]⟩
      | single inclusion => exact ⟨by simp [Token.print], by simp [Token.print]⟩
      | repeated inclusion => exact ⟨by simp [Token.print], by simp [Token.print]⟩

theorem Printable.tail {token : Token} {tokens : List Token} (h : Printable (token :: tokens)) :
    Printable tokens where
  each next hnext := h.each next (List.mem_cons_of_mem token hnext)
  chain := h.chain.tail

/-- What is printed is lexed as it was, behind the text that waits; text may wait only where no
literal comes next. -/
theorem lexFrom_flatMap_print {tokens : List Token} (h : Printable tokens) (context : TagContext)
    (before : Option Char) (pending : String) (p : Position)
    (hpending : pending ≠ "" → ∀ text, tokens.head? ≠ some (.literal text)) :
    lexFrom context before pending p (tokens.flatMap Token.print) =
      ⟨Lexed.flush pending ++ tokens, []⟩ := by
  induction tokens generalizing context before pending p with
  | nil => simp [lexFrom, Segment.all, Lexed.tokensOf, Lexed.recoveriesOf]
  | cons token tokens ih =>
      have htoken := h.each token List.mem_cons_self
      rw [List.flatMap_cons]
      cases hliteral : token.isLiteral with
      | false =>
          obtain ⟨before', q, hlex⟩ := lexFrom_print htoken hliteral context before pending p
            (tokens.flatMap Token.print)
          rw [hlex, ih h.tail context before' "" q (fun hne => absurd rfl hne)]
          rfl
      | true =>
          obtain ⟨text, rfl⟩ : ∃ text, token = .literal text := by
            cases token <;> cases hliteral
            exact ⟨_, rfl⟩
          have hempty : pending = "" := by
            by_contra hne
            exact hpending hne text rfl
          obtain ⟨hne, hplain⟩ := htoken
          obtain ⟨context', before', q, hlex⟩ := lexFrom_escaped hplain h.mayFollow
            context before pending p
          have hnext : text ≠ "" → ∀ next, tokens.head? ≠ some (.literal next) := by
            intro _ next hhead
            obtain ⟨tail, rfl⟩ := List.head?_eq_some_iff.1 hhead
            exact (List.isChain_cons_cons.1 h.chain).1
          rw [Token.print, hlex, hempty, String.empty_append, String.ofList_toList,
            ih h.tail context' before' text q hnext]
          simp [Lexed.flush, hne]

/-- Lexing undoes printing, and gives up no construct. -/
theorem lex_printTokens {tokens : List Token} (h : Printable tokens) :
    lex (printTokens tokens) = ⟨tokens, []⟩ := by
  have hlex := lexFrom_flatMap_print h .outside none "" .start (fun hne => absurd rfl hne)
  rw [printTokens, lex, segments, String.toList_ofList]
  exact hlex

theorem lex_printTokens_page :
    lex (printTokens [.literal "<ul>$\x7b \\", .forwarded, .prop "title" .string,
        .single ⟨"card", "main", [.named "class" [.literal "a $", .prop "tone"], .wildcard]⟩,
        .literal "<ez", .repeated ⟨"row", "rows", []⟩]) =
      ⟨[.literal "<ul>$\x7b \\", .forwarded, .prop "title" .string,
        .single ⟨"card", "main", [.named "class" [.literal "a $", .prop "tone"], .wildcard]⟩,
        .literal "<ez", .repeated ⟨"row", "rows", []⟩], []⟩ :=
  lex_printTokens (by decide)

end Stencil
