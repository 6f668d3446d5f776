import Stencil.Proofs.EscapedPlaceholders
import Stencil.Proofs.OpenTags

/-!
# Which shorthands are scanned

In a source without other constructs every dollar sign before a name is scanned as a shorthand, or
else stays text. It is scanned exactly behind a blank directly inside of an open tag, where the text
before the dollar sign alone says whether a tag is open.
-/

namespace Stencil

/-- A text in which no construct but a shorthand opens. -/
structure OnlyShorthands (text : List Char) : Prop where
  noPlaceholder : ¬ ['$', '\x7b'] <:+: text
  noForwarded : ¬ ['$', '*'] <:+: text
  noSingle : ∀ c ∈ blankCharacters, ¬ ['<', 'e', 'z', c] <:+: text
  noRepeated : ∀ c ∈ blankCharacters, ¬ ['<', 'e', 'z', '-', 'f', 'o', 'r', c] <:+: text

namespace Segment

/-- A segment that begins where a shorthand opens, whether it was scanned to its end or not. -/
def IsShorthand : Segment → Prop
  | .construct (.attribute _) _ => True
  | .recovered .attribute _ _ => True
  | _ => False

/-- Behind segments that cover the text `front` stands a shorthand. -/
def ShorthandAt (segments : List Segment) (front : List Char) : Prop :=
  ∃ passed segment more, segments = passed ++ segment :: more ∧
    passed.flatMap source = front ∧ segment.IsShorthand

variable {segment : Segment} {segments : List Segment}

theorem plain_source_ne_nil (c : Char) : (plain c).source ≠ [] := List.cons_ne_nil c []

theorem shorthandAt_nil_iff (nonempty : segment.source ≠ []) :
    ShorthandAt (segment :: segments) [] ↔ segment.IsShorthand := by
  constructor
  · rintro ⟨passed, found, more, hsegments, hpassed, hfound⟩
    cases passed with
    | nil =>
        cases hsegments
        exact hfound
    | cons first passed =>
        cases hsegments
        exact absurd (List.append_eq_nil_iff.1 hpassed).1 nonempty
  · intro h
    exact ⟨[], segment, segments, rfl, rfl, h⟩

theorem shorthandAt_append_iff (nonempty : segment.source ≠ []) (front : List Char) :
    ShorthandAt (segment :: segments) (segment.source ++ front) ↔ ShorthandAt segments front := by
  constructor
  · rintro ⟨passed, found, more, hsegments, hpassed, hfound⟩
    cases passed with
    | nil => exact absurd (List.append_eq_nil_iff.1 hpassed.symm).1 nonempty
    | cons first passed =>
        cases hsegments
        exact ⟨passed, found, more, rfl, List.append_cancel_left hpassed, hfound⟩
  · rintro ⟨passed, found, more, rfl, rfl, hfound⟩
    exact ⟨segment :: passed, found, more, rfl, rfl, hfound⟩

end Segment

theorem isIdent_dollar : isIdent '$' = false := by decide

/-- A name is text of a tag. -/
theorem TagText.of_ident {word : List Char} (h : ∀ c ∈ word, isIdent c = true) : TagText word := by
  induction word with
  | nil => exact .nil
  | cons c word ih =>
      refine .char ?_ (ih fun d hd => h d (List.mem_cons_of_mem c hd))
      intro hc
      have hident := h c List.mem_cons_self
      simp only [List.mem_cons, List.not_mem_nil, or_false] at hc
      obtain rfl | rfl | rfl | rfl := hc <;> cases hident

namespace OnlyShorthands

variable {text front rest : List Char} {context : TagContext} {before : Option Char}
variable {kind : Construct} {outcome : Outcome}

theorem suffix (h : OnlyShorthands text) (hsuffix : rest <:+ text) : OnlyShorthands rest where
  noPlaceholder hin := h.noPlaceholder (hin.trans hsuffix.isInfix)
  noForwarded hin := h.noForwarded (hin.trans hsuffix.isInfix)
  noSingle c hc hin := h.noSingle c hc (hin.trans hsuffix.isInfix)
  noRepeated c hc hin := h.noRepeated c hc (hin.trans hsuffix.isInfix)

/-- What opens is a shorthand, and its scan covers the dollar sign with the longest word behind. -/
theorem opening (h : OnlyShorthands (text ++ rest))
    (scan : Segment.opening? context before (text ++ rest) = some (kind, outcome))
    (hrest : outcome.rest = rest) :
    context = .inside ∧ before.any isBlank = true ∧ kind = .attribute ∧
      (∀ token rest, outcome = .found token rest → ∃ name, token = .attribute name) ∧
      ∃ word, text = '$' :: word ∧ ∀ c ∈ word, isIdent c = true := by
  obtain ⟨cs, htext, _, _⟩ | ⟨c, cs, htext, _, inside, behind, rfl, rfl⟩ |
    ⟨c, cs, htext, blank, _, _⟩ | ⟨c, cs, htext, blank, _, _⟩ := Segment.opening?_cases scan
  · exact absurd ⟨[], cs, htext.symm⟩ h.noPlaceholder
  · refine ⟨inside, behind, rfl, ?_, (c :: cs).takeWhile isIdent, ?_, ?_⟩
    · intro token rest hfound
      exact ⟨_, (Shorthand.scan_eq_found_iff.1 hfound).2.2⟩
    · apply List.append_cancel_right
      rw [htext, ← hrest, Shorthand.scan_rest, List.cons_append, List.takeWhile_append_dropWhile]
    · intro d hd
      exact List.mem_takeWhile_imp hd
  · exact absurd ⟨[], cs, htext.symm⟩ (h.noRepeated c (isBlank_iff.1 blank))
  · exact absurd ⟨[], cs, htext.symm⟩ (h.noSingle c (isBlank_iff.1 blank))

end OnlyShorthands

namespace Division

open Segment

variable {context : TagContext} {before : Option Char} {text rest front ahead : List Char}
variable {segment : Segment} {segments : List Segment}

/-- A shorthand opens behind `front`: directly inside of a tag and behind a blank. -/
def OpensBehind (context : TagContext) (before : Option Char) (front ahead : List Char) : Prop :=
  context.behind front ahead = .inside ∧ (front.getLast?.or before).any isBlank = true

/-- A shorthand that was scanned is passed as text of its tag, and covers no other. -/
theorem shorthandAt_iff_behind {word : List Char} (isShorthand : segment.IsShorthand)
    (covers : segment.source = '$' :: word) (ident : ∀ c ∈ word, isIdent c = true)
    (inside : context = .inside) (blank : before.any isBlank = true)
    (htext : '$' :: word ++ rest = front ++ '$' :: ahead)
    (behind : ∀ front', rest = front' ++ '$' :: ahead →
      (ShorthandAt segments front' ↔
        OpensBehind context ('$' :: word).getLast? front' ('$' :: ahead))) :
    ShorthandAt (segment :: segments) front ↔
      OpensBehind context before front ('$' :: ahead) := by
  have nonempty : segment.source ≠ [] := by
    rw [covers]
    exact List.cons_ne_nil _ _
  cases front with
  | nil =>
      rw [shorthandAt_nil_iff nonempty]
      exact ⟨fun _ => ⟨inside, blank⟩, fun _ => isShorthand⟩
  | cons d front =>
      obtain ⟨rfl, htail⟩ := List.cons.inj htext
      obtain ⟨front', rfl, hrest⟩ : ∃ front', front = word ++ front' ∧
          rest = front' ++ '$' :: ahead := by
        obtain ⟨front', hfront, hrest⟩ | ⟨ds, rfl, hds⟩ := List.append_eq_append_iff.1 htail
        · exact ⟨front', hfront, hrest⟩
        · cases ds with
          | nil => exact ⟨[], by simp, by simpa using hds.symm⟩
          | cons d ds =>
              obtain ⟨rfl, _⟩ := List.cons.inj hds
              have hident := ident '$' (by simp)
              rw [isIdent_dollar] at hident
              cases hident
      have hword : TagText ('$' :: word) := .char (by decide) (TagText.of_ident ident)
      rw [← List.cons_append, ← covers, shorthandAt_append_iff nonempty, behind front' hrest,
        covers, OpensBehind, OpensBehind, inside, TagContext.behind_append,
        TagContext.behind_tagText hword, List.getLast?_append, Option.or_assoc,
        List.getLast?_cons, Option.some_or]

theorem shorthandAt_iff {c : Char} (h : Division context before text segments)
    (only : OnlyShorthands text) (htext : text = front ++ '$' :: c :: rest)
    (ident : isIdent c = true) :
    ShorthandAt segments front ↔ OpensBehind context before front ('$' :: c :: rest) := by
  induction h generalizing front with
  | done => cases front <;> cases htext
  | @plain context before d cs segments noEscape noForward noOpening tail ih =>
      cases front with
      | nil =>
          cases htext
          rw [shorthandAt_nil_iff (plain_source_ne_nil '$')]
          constructor
          · intro h
            exact h.elim
          · rintro ⟨inside, blank⟩
            have hopen := (OpeningWord.shorthand ident inside blank).opening? rest
            change opening? context before ('$' :: c :: rest) = _ at hopen
            rw [noOpening] at hopen
            cases hopen
      | cons e front =>
          cases htext
          have hbehind := ih (only.suffix (List.suffix_cons _ _)) rfl
          change ShorthandAt _ ((Segment.plain d).source ++ front) ↔ _
          rw [shorthandAt_append_iff (plain_source_ne_nil d), hbehind, OpensBehind, OpensBehind,
            TagContext.behind, List.getLast?_cons]
          cases front.getLast? <;> rfl
  | escape tail => exact absurd ⟨['\\'], _, rfl⟩ only.noPlaceholder
  | forwarded tail => exact absurd ⟨[], _, rfl⟩ only.noForwarded
  | construct nonempty scan tail ih =>
      obtain ⟨inside, blank, rfl, htoken, word, rfl, hword⟩ := only.opening scan rfl
      obtain ⟨name, rfl⟩ := htoken _ _ rfl
      have isShorthand : (Segment.construct (.attribute name) ('$' :: word)).IsShorthand := trivial
      apply shorthandAt_iff_behind isShorthand rfl hword inside blank htext
      intro front' hrest
      exact ih (only.suffix (List.suffix_append _ _)) hrest
  | @recovered _ _ _ reason _ _ _ nonempty scan tail ih =>
      obtain ⟨inside, blank, rfl, _, word, rfl, hword⟩ := only.opening scan rfl
      have isShorthand : (Segment.recovered .attribute reason ('$' :: word)).IsShorthand := trivial
      apply shorthandAt_iff_behind isShorthand rfl hword inside blank htext
      intro front' hrest
      exact ih (only.suffix (List.suffix_append _ _)) hrest

end Division

/-- A shorthand is scanned right behind the beginning `front` of a source. -/
def ScansShorthand (source : String) (front : List Char) : Prop :=
  Segment.ShorthandAt (segments source) front

/-- Without other constructs in the source, a dollar sign before a name is scanned as a shorthand
exactly behind a blank where the text before ends in a tag that is open. -/
theorem scansShorthand_iff {source : String} {front rest : List Char} {c : Char}
    (only : OnlyShorthands source.toList) (htext : source.toList = front ++ '$' :: c :: rest)
    (ident : c ∈ identCharacters) :
    ScansShorthand source front ↔
      (∃ d, front.getLast? = some d ∧ d ∈ blankCharacters) ∧
        ∃ cs tag, front = cs ++ tag ∧ Markup cs tag ∧ OpenTag tag := by
  have hdivision := (segmentation_segments source).division
  have hinside : TagContext.behind .outside front ('$' :: c :: rest) = .inside ↔
      ∃ cs tag, front = cs ++ tag ∧ Markup cs tag ∧ OpenTag tag :=
    TagContext.behind_eq_inside_iff rfl
  have hblank : (front.getLast?.or none).any isBlank = true ↔
      ∃ d, front.getLast? = some d ∧ d ∈ blankCharacters := by
    simp only [Option.or_none, Option.any_eq_true, isBlank_iff]
  calc
    ScansShorthand source front
        ↔ TagContext.behind .outside front ('$' :: c :: rest) = .inside ∧
          (front.getLast?.or none).any isBlank = true :=
          hdivision.shorthandAt_iff only htext (isIdent_iff.2 ident)
    _ ↔ _ := by rw [hinside, hblank, and_comm]

/-- The bracket in the quoted value ends no tag, so the shorthand behind it is inside of one. -/
theorem scansShorthand_behind_quoted_bracket :
    ScansShorthand "<b>$<a t=\"1>0\" $href>" "<b>$<a t=\"1>0\" ".toList := by
  have noTag : ¬ ['<', 'e'] <:+: "<b>$<a t=\"1>0\" $href>".toList := by decide
  have only : OnlyShorthands "<b>$<a t=\"1>0\" $href>".toList :=
    { noPlaceholder := by decide
      noForwarded := by decide
      noSingle := fun c _ hin => noTag (List.IsInfix.trans ⟨[], ['z', c], rfl⟩ hin)
      noRepeated := fun c _ hin =>
        noTag (List.IsInfix.trans ⟨[], ['z', '-', 'f', 'o', 'r', c], rfl⟩ hin) }
  have hvalue : TagText "\"1>0\" ".toList :=
    @TagText.quoted '"' ['1', '>', '0'] [' '] (.inl rfl) (by decide) (.char (by decide) .nil)
  have htag : OpenTag "<a t=\"1>0\" ".toList :=
    .opened (by decide) (.char (by decide) (.char (by decide) (.char (by decide) hvalue)))
  have hmarkup : Markup "<b>$".toList "<a t=\"1>0\" ".toList :=
    .closed (.opened (by decide) .nil) (.char (by decide) .done)
  have hiff := @scansShorthand_iff "<b>$<a t=\"1>0\" $href>" "<b>$<a t=\"1>0\" ".toList
    "ref>".toList 'h' only (by decide) (by decide)
  refine hiff.2 ⟨⟨' ', by decide, by decide⟩, "<b>$".toList, "<a t=\"1>0\" ".toList, ?_⟩
  exact ⟨by decide, hmarkup, htag⟩

end Stencil
