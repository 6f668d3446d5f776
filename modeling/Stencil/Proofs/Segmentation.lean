import Stencil.Proofs.Scanning
import Stencil.Template.Lexed

/-!
# Dividing a source into segments

A division of a text puts a segment at each place where one may stand, and leaves no gap. The
segments that lexing takes are the one division of the source (`Segment.all_eq_iff`), so what is proved
along a division holds of every lexed source.
-/

namespace Stencil

/-- A division of a text, read in a context and behind a character, into segments. A construct and
a recovered stretch reach from the opening character to the end that the scan reports. -/
inductive Division : TagContext → Option Char → List Char → List Segment → Prop
  | done {context before} : Division context before [] []
  | plain {context before c cs segments}
      (noEscape : ¬ ['\\', '$', '\x7b'] <+: c :: cs) (noForward : ¬ ['$', '*'] <+: c :: cs)
      (noOpening : Segment.opening? context before (c :: cs) = none)
      (tail : Division (context.step c cs.head?) (some c) cs segments) :
      Division context before (c :: cs) (.plain c :: segments)
  | escape {context before cs segments} (tail : Division context (some '\x7b') cs segments) :
      Division context before ('\\' :: '$' :: '\x7b' :: cs) (.escape :: segments)
  | forwarded {context before cs segments} (tail : Division context (some '*') cs segments) :
      Division context before ('$' :: '*' :: cs) (.construct .forwarded ['$', '*'] :: segments)
  | construct {context before kind token text rest segments} (nonempty : text ≠ [])
      (scan : Segment.opening? context before (text ++ rest) = some (kind, .found token rest))
      (tail : Division context text.getLast? rest segments) :
      Division context before (text ++ rest) (.construct token text :: segments)
  | recovered {context before kind reason text rest segments} (nonempty : text ≠ [])
      (scan : Segment.opening? context before (text ++ rest) = some (kind, .stalled reason rest))
      (tail : Division context text.getLast? rest segments) :
      Division context before (text ++ rest) (.recovered kind reason text :: segments)

namespace Segment

/-- The first segment is an escape, the place of forwarded attributes, what the scan of an opening
construct has covered, or else a plain character. -/
theorem first_cases (context : TagContext) (before : Option Char) (c : Char) (cs : List Char) :
    (∃ rest, c :: cs = '\\' :: '$' :: '\x7b' :: rest ∧ first context before c cs = .escape) ∨
    (∃ rest, c :: cs = '$' :: '*' :: rest ∧
      first context before c cs = .construct .forwarded ['$', '*']) ∨
    (∃ kind outcome, opening? context before (c :: cs) = some (kind, outcome) ∧
      first context before c cs = ofOutcome (c :: cs) kind outcome) ∨
    (¬ ['\\', '$', '\x7b'] <+: c :: cs ∧ ¬ ['$', '*'] <+: c :: cs ∧
      opening? context before (c :: cs) = none ∧ first context before c cs = .plain c) := by
  unfold first
  split
  case h_1 rest => exact .inl ⟨rest, rfl, rfl⟩
  case h_2 rest => exact .inr (.inl ⟨rest, rfl, rfl⟩)
  case h_3 noEscape noForward =>
    cases hopen : opening? context before (c :: cs) with
    | some opened => exact .inr (.inr (.inl ⟨opened.1, opened.2, rfl, rfl⟩))
    | none =>
        refine .inr (.inr (.inr ⟨?_, ?_, rfl, rfl⟩))
        · rintro ⟨rest, h⟩
          cases h
          exact noEscape rest rfl rfl
        · rintro ⟨rest, h⟩
          cases h
          exact noForward rest rfl rfl

/-- Where a construct opens, the first segment is what its scan has covered. -/
theorem first_of_opening {context : TagContext} {before : Option Char} {c : Char} {cs : List Char}
    {kind : Construct} {outcome : Outcome}
    (h : opening? context before (c :: cs) = some (kind, outcome)) :
    first context before c cs = ofOutcome (c :: cs) kind outcome := by
  obtain ⟨rest, htext, _⟩ | ⟨rest, htext, _⟩ | ⟨_, _, hopen, hfirst⟩ | ⟨_, _, hopen, _⟩ :=
    first_cases context before c cs
  · rw [htext] at h; simp [opening?] at h
  · rw [htext] at h; simp [opening?, isIdent, isLetter, isDigit] at h
  · rw [h] at hopen; cases hopen; exact hfirst
  · rw [h] at hopen; cases hopen

/-- Behind a first segment that covers `c :: text`, the segments of the rest follow. -/
theorem all_of_first {context : TagContext} {before : Option Char} {c : Char}
    (text rest : List Char) (hsource : (first context before c (text ++ rest)).source = c :: text) :
    all context before (c :: (text ++ rest)) = first context before c (text ++ rest) ::
      all ((first context before c (text ++ rest)).contextAfter context (text ++ rest))
        (c :: text).getLast? rest := by
  rw [all]
  simp only [hsource, List.length_cons, Nat.add_sub_cancel, List.drop_left]

/-- The segment of a scan covers the text up to what the scan leaves. -/
theorem ofOutcome_found (kind : Construct) (token : Token) (text rest : List Char) :
    ofOutcome (text ++ rest) kind (.found token rest) = .construct token text := by
  simp [ofOutcome, Outcome.rest]

theorem ofOutcome_stalled (kind : Construct) (reason : Stall) (text rest : List Char) :
    ofOutcome (text ++ rest) kind (.stalled reason rest) = .recovered kind reason text := by
  simp [ofOutcome, Outcome.rest]

theorem all_escape (context : TagContext) (before : Option Char) (cs : List Char) :
    all context before ('\\' :: '$' :: '\x7b' :: cs) =
      .escape :: all context (some '\x7b') cs :=
  all_of_first ['$', '\x7b'] cs rfl

theorem all_forwarded (context : TagContext) (before : Option Char) (cs : List Char) :
    all context before ('$' :: '*' :: cs) =
      .construct .forwarded ['$', '*'] :: all context (some '*') cs :=
  all_of_first ['*'] cs rfl

theorem all_construct {context : TagContext} {before : Option Char} {kind : Construct}
    {token : Token} {text rest : List Char} (nonempty : text ≠ [])
    (h : opening? context before (text ++ rest) = some (kind, .found token rest)) :
    all context before (text ++ rest) =
      .construct token text :: all context text.getLast? rest := by
  obtain ⟨c, cs, rfl⟩ := List.exists_cons_of_ne_nil nonempty
  have hfirst : first context before c (cs ++ rest) = .construct token (c :: cs) :=
    (first_of_opening h).trans (ofOutcome_found kind token (c :: cs) rest)
  rw [List.cons_append, all_of_first cs rest (by rw [hfirst]; rfl), hfirst]
  rfl

theorem all_recovered {context : TagContext} {before : Option Char} {kind : Construct}
    {reason : Stall} {text rest : List Char} (nonempty : text ≠ [])
    (h : opening? context before (text ++ rest) = some (kind, .stalled reason rest)) :
    all context before (text ++ rest) =
      .recovered kind reason text :: all context text.getLast? rest := by
  obtain ⟨c, cs, rfl⟩ := List.exists_cons_of_ne_nil nonempty
  have hfirst : first context before c (cs ++ rest) = .recovered kind reason (c :: cs) :=
    (first_of_opening h).trans (ofOutcome_stalled kind reason (c :: cs) rest)
  rw [List.cons_append, all_of_first cs rest (by rw [hfirst]; rfl), hfirst]
  rfl

theorem all_plain {context : TagContext} {before : Option Char} {c : Char} {cs : List Char}
    (noEscape : ¬ ['\\', '$', '\x7b'] <+: c :: cs) (noForward : ¬ ['$', '*'] <+: c :: cs)
    (noOpening : opening? context before (c :: cs) = none) :
    all context before (c :: cs) = .plain c :: all (context.step c cs.head?) (some c) cs := by
  have hfirst : first context before c cs = .plain c := by
    obtain ⟨rest, htext, _⟩ | ⟨rest, htext, _⟩ | ⟨_, _, hopen, _⟩ | ⟨_, _, _, hfirst⟩ :=
      first_cases context before c cs
    · exact absurd ⟨rest, htext.symm⟩ noEscape
    · exact absurd ⟨rest, htext.symm⟩ noForward
    · rw [noOpening] at hopen; cases hopen
    · exact hfirst
  have hsource : (first context before c ([] ++ cs)).source = [c] := by
    rw [List.nil_append, hfirst]
    rfl
  have hall := all_of_first [] cs hsource
  rw [List.nil_append, hfirst] at hall
  exact hall

/-- The segments that lexing takes divide the text. -/
theorem division_all (context : TagContext) (before : Option Char) (cs : List Char) :
    Division context before cs (all context before cs) := by
  -- on the length of the text: a segment of any kind leaves a shorter one
  induction hn : cs.length using Nat.strongRecOn generalizing context before cs with
  | ind n ih =>
      subst hn
      cases cs with
      | nil => rw [all]; exact .done
      | cons c cs =>
          obtain ⟨rest, htext, _⟩ | ⟨rest, htext, _⟩ | ⟨kind, outcome, hopen, _⟩ |
            ⟨noEscape, noForward, noOpening, _⟩ := first_cases context before c cs
          · have hlength : rest.length < (c :: cs).length := by
              rw [htext]
              simp only [List.length_cons]
              omega
            rw [htext, all_escape]
            apply Division.escape
            exact ih rest.length hlength _ _ _ rfl
          · have hlength : rest.length < (c :: cs).length := by
              rw [htext]
              simp only [List.length_cons]
              omega
            rw [htext, all_forwarded]
            apply Division.forwarded
            exact ih rest.length hlength _ _ _ rfl
          · obtain ⟨covered, hcovered⟩ := opening?_rest_suffix hopen
            have htext : c :: cs = (c :: covered) ++ outcome.rest := by
              rw [← hcovered, List.cons_append]
            have hlength : outcome.rest.length < (c :: cs).length := by
              rw [htext, List.length_append, List.length_cons]
              omega
            rw [htext] at hopen ⊢
            cases outcome with
            | found token rest =>
                rw [Outcome.rest] at hopen ⊢
                rw [all_construct (by simp) hopen]
                apply Division.construct (by simp) hopen
                exact ih _ hlength _ _ _ rfl
            | stalled reason rest =>
                rw [Outcome.rest] at hopen ⊢
                rw [all_recovered (by simp) hopen]
                apply Division.recovered (by simp) hopen
                exact ih _ hlength _ _ _ rfl
          · rw [all_plain noEscape noForward noOpening]
            apply Division.plain noEscape noForward noOpening
            exact ih cs.length (by simp) _ _ _ rfl

/-- The segments of a text are the one division of it. -/
theorem all_eq_iff {context : TagContext} {before : Option Char} {cs : List Char}
    {segments : List Segment} :
    all context before cs = segments ↔ Division context before cs segments := by
  constructor
  · rintro rfl
    exact division_all context before cs
  · intro h
    induction h with
    | done => rw [all]
    | plain noEscape noForward noOpening tail ih => rw [all_plain noEscape noForward noOpening, ih]
    | escape tail ih => rw [all_escape, ih]
    | forwarded tail ih => rw [all_forwarded, ih]
    | construct nonempty scan tail ih => rw [all_construct nonempty scan, ih]
    | recovered nonempty scan tail ih => rw [all_recovered nonempty scan, ih]

end Segment

end Stencil
