import Stencil.Proofs.InclusionTags
import Stencil.Proofs.LosslessLexing
import Stencil.Proofs.RenderSteps

/-!
# What the tokens of a source hold

Whatever is scanned could have been printed: names, ids and references are not empty and hold no
character that would end them, and the fragments of a value are the ones its print would be read back
to. So every token of a source is well formed, and what is read off the tokens need not care for
empty names.
-/

namespace Stencil

section Values

open Fragment

variable {text : String} {fragments : List Fragment}

theorem Fragment.MayPrecede.append {front back : String} {next : Fragment} (hback : back ≠ "")
    (h : (Fragment.literal back).MayPrecede next) :
    (Fragment.literal (front ++ back)).MayPrecede next := by
  cases next with
  | literal => exact h
  | prop name =>
      have hlast : (front ++ back).toList.getLast? = back.toList.getLast? := by
        rw [String.toList_append, List.getLast?_append_of_ne_nil _ (by simpa using hback)]
      exact fun hslash => h (hlast.symm.trans hslash)

/-- Text before fragments leaves them printable if it holds no quote and escapes no reference. -/
theorem Fragment.withText_printable (hne : text ≠ "") (hquote : '"' ∉ text.toList)
    (hslash : ∀ name, fragments.head? = some (.prop name) → text.toList.getLast? ≠ some '\\')
    (hprint : ∀ fragment ∈ fragments, fragment.Printable)
    (hchain : fragments.IsChain Fragment.MayPrecede) :
    (∀ fragment ∈ withText text fragments, fragment.Printable) ∧
      (withText text fragments).IsChain Fragment.MayPrecede := by
  cases fragments with
  | nil =>
      simp only [withText, hne, if_false]
      exact ⟨by simpa [Printable] using ⟨hne, hquote⟩, .singleton _⟩
  | cons fragment fragments =>
      have hrest := List.forall_mem_cons.1 hprint
      cases fragment with
      | literal next =>
          obtain ⟨hnext, hnoquote⟩ := hrest.1
          refine ⟨List.forall_mem_cons.2 ⟨⟨by simp [hnext], ?_⟩, hrest.2⟩, ?_⟩
          · simpa [hquote] using hnoquote
          · cases fragments with
            | nil => exact .singleton _
            | cons second fragments =>
                obtain ⟨hprecedes, htail⟩ := List.isChain_cons_cons.1 hchain
                exact List.isChain_cons_cons.2 ⟨hprecedes.append hnext, htail⟩
      | prop name =>
          simp only [withText, hne, if_false]
          exact ⟨List.forall_mem_cons.2 ⟨⟨hne, hquote⟩, hprint⟩,
            List.isChain_cons_cons.2 ⟨hslash name rfl, hchain⟩⟩

end Values

namespace InclusionTag

variable {text : List Char} {fragments : List Fragment} {name : String}

/-- A value whose first fragment is a reference begins with it. -/
theorem WrittenValue.opens_reference (h : WrittenValue text fragments)
    (hhead : fragments.head? = some (.prop name)) : ['$', '\x7b'] <+: text := by
  have hliteral : ∀ (front : String) (rest : List Fragment), front ≠ "" →
      (Fragment.withText front rest).head? ≠ some (.prop name) := by
    intro front rest hne
    cases rest with
    | nil => simp [Fragment.withText, hne]
    | cons fragment rest => cases fragment <;> simp [Fragment.withText, hne]
  cases h with
  | nil => cases hhead
  | escape => exact absurd hhead (hliteral _ _ (by decide))
  | @reference name text => exact ⟨_, rfl⟩
  | character => exact absurd hhead (hliteral _ _ (by simp))

/-- The fragments of a written value could have been printed. -/
theorem WrittenValue.printable (h : WrittenValue text fragments) :
    (∀ fragment ∈ fragments, fragment.Printable) ∧ fragments.IsChain Fragment.MayPrecede := by
  induction h with
  | nil => exact ⟨by simp, .nil⟩
  | escape tail ih =>
      exact Fragment.withText_printable (by decide) (by decide) (fun _ _ => by decide) ih.1 ih.2
  | reference hname tail ih =>
      refine ⟨List.forall_mem_cons.2 ⟨hname, ih.1⟩, ?_⟩
      exact List.isChain_cons.2 ⟨fun _ _ => trivial, ih.2⟩
  | @character c text fragments noQuote noEscape noReference tail ih =>
      have hquote : '"' ∉ (String.singleton c).toList := by simpa using Ne.symm noQuote
      refine Fragment.withText_printable (by simp) hquote ?_ ih.1 ih.2
      -- a backslash before a reference would have been the start of an escape
      intro name hhead hslash
      obtain rfl : c = '\\' := by simpa using hslash
      exact noEscape (List.cons_prefix_cons.2 ⟨rfl, tail.opens_reference hhead⟩)

theorem not_stop_of_mem_identCharacters {c : Char} (h : c ∈ identCharacters) :
    c ∉ propNameStops := by
  intro hc
  have hnone : ∀ d ∈ propNameStops, d ∉ identCharacters := by
    simp [propNameStops, identCharacters, letters]
  exact hnone c hc h

theorem WrittenArgument.printable {argument : Argument} (h : WrittenArgument text argument) :
    argument.Printable := by
  cases h with
  | wildcard => trivial
  | relay h =>
      have hname : Avoids propNameStops _ :=
        ⟨h.1, fun c hc => not_stop_of_mem_identCharacters (h.2 c hc)⟩
      exact ⟨h, by simpa [Fragment.Printable] using hname, .singleton _⟩
  | named hkey hvalue => exact ⟨hkey, hvalue.printable⟩

theorem WrittenArguments.printable {arguments : List Argument} (h : WrittenArguments text arguments) :
    ∀ argument ∈ arguments, argument.Printable := by
  induction h with
  | nil => simp
  | cons hblanks hne hargument tail ih => exact List.forall_mem_cons.2 ⟨hargument.printable, ih⟩

theorem WrittenBody.printable {inclusion : Inclusion} (h : WrittenBody text inclusion) :
    inclusion.Printable := by
  obtain ⟨hhead, harguments, hclosing⟩ := h
  cases hhead with
  | nameFirst hname hblanks hne hid => exact ⟨hname, hid, harguments.printable⟩
  | idFirst hname hblanks hne hid => exact ⟨hname, hid, harguments.printable⟩

theorem scan_printable {wrap : Inclusion → Token} {cs rest : List Char} {token : Token}
    (h : scan wrap cs = .found token rest) :
    ∃ inclusion : Inclusion, inclusion.Printable ∧ token = wrap inclusion := by
  obtain ⟨blanks, body, inclusion, hblanks, hbody, htext, htoken⟩ := (scan_eq_found_iff wrap).1 h
  exact ⟨inclusion, hbody.printable, htoken⟩

end InclusionTag

/-- A token as a source can hold it. -/
def Token.WellFormed : Token → Prop
  | .literal text => text ≠ ""
  | .prop name _ => Avoids propNameStops name
  | .attribute name => Identifier name
  | .forwarded => True
  | .single inclusion => inclusion.Printable
  | .repeated inclusion => inclusion.Printable

variable {context : TagContext} {before : Option Char} {text rest : List Char} {kind : Construct}
  {token : Token} {segments : List Segment} {tokens : List Token}

theorem Segment.opening?_wellFormed
    (h : opening? context before text = some (kind, .found token rest)) : token.WellFormed := by
  obtain ⟨cs, _, _, hscan⟩ | ⟨c, cs, _, hc, _, _, _, hscan⟩ | ⟨c, cs, _, _, _, hscan⟩ |
    ⟨c, cs, _, _, _, hscan⟩ := opening?_cases h
  · obtain ⟨_, _, _, ⟨_, hname, _⟩, _, rfl⟩ := Placeholder.scan_eq_found_iff.1 hscan.symm
    exact hname
  · obtain ⟨_, _, rfl⟩ := Shorthand.scan_eq_found_iff.1 hscan.symm
    refine ⟨?_, ?_⟩
    · rw [List.takeWhile_cons_of_pos hc]
      simp
    · intro d hd
      rw [String.toList_ofList] at hd
      exact isIdent_iff.1 (List.mem_takeWhile_imp hd)
  · obtain ⟨inclusion, hprintable, rfl⟩ := InclusionTag.scan_printable hscan.symm
    exact hprintable
  · obtain ⟨inclusion, hprintable, rfl⟩ := InclusionTag.scan_printable hscan.symm
    exact hprintable

theorem Division.wellFormed (h : Division context before text segments) :
    ∀ token covered, .construct token covered ∈ segments → token.WellFormed := by
  induction h with
  | done => simp
  | plain _ _ _ _ ih => simpa using ih
  | escape _ ih => simpa using ih
  | forwarded _ ih =>
      intro token covered hmem
      obtain heq | hmem := List.mem_cons.1 hmem
      · cases heq
        trivial
      · exact ih token covered hmem
  | construct _ scan _ ih =>
      intro token covered hmem
      obtain heq | hmem := List.mem_cons.1 hmem
      · cases heq
        exact Segment.opening?_wellFormed scan
      · exact ih token covered hmem
  | recovered _ _ _ ih => simpa using ih

theorem Lexed.flush_wellFormed (text : String) : ∀ token ∈ flush text, token.WellFormed := by
  unfold flush
  split
  case isTrue => simp
  case isFalse hne => simpa [Token.WellFormed] using hne

theorem Interleaved.wellFormed (h : Interleaved segments tokens)
    (constructs : ∀ token text, .construct token text ∈ segments → token.WellFormed) :
    ∀ token ∈ tokens, token.WellFormed := by
  induction h with
  | run other => exact Lexed.flush_wellFormed _
  | @construct run token text segments tokens other tail ih =>
      intro found hmem
      obtain hmem | hmem := List.mem_append.1 hmem
      · exact Lexed.flush_wellFormed _ found hmem
      · obtain rfl | hmem := List.mem_cons.1 hmem
        · exact constructs found text (by simp)
        · exact ih (fun token text h => constructs token text (by simp [h])) found hmem

/-- Every token of a component is well formed. -/
theorem Component.token_wellFormed {c : Component} (h : token ∈ c.tokens) : token.WellFormed := by
  have hsegments := segmentation_segments c.source
  rw [← c.lexed_eq] at hsegments
  exact hsegments.tokens.wellFormed hsegments.division.wellFormed token h

section References

variable {name : String}

theorem Argument.reference_avoids {argument : Argument} (h : argument.Printable)
    (hname : name ∈ argument.references) : Avoids propNameStops name := by
  cases argument with
  | wildcard => cases hname
  | named key fragments => exact h.2.1 _ (mem_references_named.1 hname)

theorem Inclusion.reference_avoids {inclusion : Inclusion} (h : inclusion.Printable)
    (hname : name ∈ inclusion.references) : Avoids propNameStops name := by
  obtain ⟨argument, hargument, hreference⟩ := List.mem_flatMap.1 hname
  exact Argument.reference_avoids (h.arguments argument hargument) hreference

/-- Every name that a token looks up in the props could stand in a placeholder. -/
theorem Token.reference_avoids (h : token.WellFormed) (hname : name ∈ token.references) :
    Avoids propNameStops name := by
  cases token with
  | prop => exact List.mem_singleton.1 hname ▸ h
  | «attribute» =>
      obtain rfl := List.mem_singleton.1 hname
      exact ⟨h.1, fun c hc => InclusionTag.not_stop_of_mem_identCharacters (h.2 c hc)⟩
  | single inclusion => exact Inclusion.reference_avoids h hname
  | repeated inclusion => exact Inclusion.reference_avoids h hname
  | _ => cases hname

end References

end Stencil
