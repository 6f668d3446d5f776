import Stencil.Proofs.InclusionTags

/-!
# Scanning what was printed

The printed form of a placeholder or an inclusion is one of its written forms, so its scan reads back
the token and leaves the text behind it as it is. What has to be shown is that printed text stays
text: it opens no reference, and no backslash of it escapes one.
-/

namespace Stencil

section Escaped

/-- What may stand behind a printed text: nothing, or what opens a construct or closes a value; and
behind a backslash no reference. -/
structure MayFollow (rest text : List Char) : Prop where
  opens : ∀ c ∈ rest.head?, c ∈ ['$', '<', '"']
  noEscape : text.getLast? = some '\\' → ¬ ['$', '\x7b'] <+: rest

variable {rest text word : List Char} {c : Char}

theorem MayFollow.tail (h : MayFollow rest (c :: text)) : MayFollow rest text where
  opens := h.opens
  noEscape hlast := h.noEscape (by rw [List.getLast?_cons, hlast]; rfl)

/-- Escaping shifts no character but an escaped dollar sign. -/
theorem MayFollow.prefix_of_prefix (hrest : MayFollow rest text)
    (hword : ∀ c ∈ word, c ∉ ['\\', '$', '<', '"']) (h : word <+: escaped text ++ rest) :
    word <+: text := by
  induction text using escaped_induction generalizing word with
  | reference cs ih =>
      cases word with
      | nil => exact List.nil_prefix
      | cons c word =>
          have hc := hword c List.mem_cons_self
          obtain ⟨rfl, _⟩ := List.cons_prefix_cons.1 h
          simp at hc
  | plain d cs hplain ih =>
      cases word with
      | nil => exact List.nil_prefix
      | cons c word =>
          rw [escaped_cons hplain] at h
          obtain ⟨rfl, htail⟩ := List.cons_prefix_cons.1 h
          have hcs := fun d hd => hword d (List.mem_cons_of_mem c hd)
          exact List.cons_prefix_cons.2 ⟨rfl, ih hrest.tail hcs htail⟩
  | nil =>
      cases word with
      | nil => exact List.nil_prefix
      | cons c word =>
          have hc := hword c List.mem_cons_self
          rw [escaped, List.nil_append] at h
          obtain ⟨tail, rfl⟩ := h
          have hopens := hrest.opens c rfl
          simp_all

/-- The text that is printed opens no reference. -/
theorem MayFollow.not_reference (hrest : MayFollow rest (c :: text))
    (hplain : ¬ ['$', '\x7b'] <+: c :: text) :
    ¬ ['$', '\x7b'] <+: c :: (escaped text ++ rest) := by
  intro h
  obtain ⟨rfl, htail⟩ := List.cons_prefix_cons.1 h
  exact hplain (List.cons_prefix_cons.2 ⟨rfl, hrest.tail.prefix_of_prefix (by simp) htail⟩)

/-- A backslash that is printed escapes no dollar sign but those that have to be. -/
theorem MayFollow.not_escape (hrest : MayFollow rest (c :: text)) :
    ¬ ['\\', '$', '\x7b'] <+: c :: (escaped text ++ rest) := by
  intro h
  obtain ⟨rfl, htail⟩ := List.cons_prefix_cons.1 h
  cases text with
  | nil => exact hrest.noEscape rfl htail
  | cons d ds =>
      by_cases hplain : ['$', '\x7b'] <+: d :: ds
      · obtain ⟨es, hes⟩ := hplain
        rw [← hes] at htail
        simp [escaped] at htail
      · rw [escaped_cons hplain] at htail
        exact hrest.tail.not_reference hplain htail

end Escaped

namespace Placeholder

variable {name : String}

theorem scan_any (h : Avoids propNameStops name) (rest : List Char) :
    scan (name.toList ++ '\x7d' :: rest) = .found (.prop name .any) rest := by
  have hblanks : Blanks [] := by decide
  exact scan_eq_found_iff.2 ⟨_, name, .any, .form hblanks h (.untyped hblanks), by simp, rfl⟩

theorem scan_typed (h : Avoids propNameStops name) (type : PropType) (rest : List Char) :
    scan (name.toList ++ ':' :: (type.word ++ '\x7d' :: rest)) =
      .found (.prop name type) rest := by
  have hblanks : Blanks [] := by decide
  exact scan_eq_found_iff.2
    ⟨_, name, type, .form hblanks h (.typed hblanks hblanks hblanks), by simp, rfl⟩

end Placeholder

/-- In a value a reference stops the text before it, unless that text would escape it. -/
theorem Fragment.mayFollow {text : String} {fragments : List Fragment}
    (h : (Fragment.literal text :: fragments).IsChain Fragment.MayPrecede) :
    MayFollow (fragments.flatMap Fragment.print) text.toList := by
  cases fragments with
  | nil => exact ⟨by simp, by simp⟩
  | cons fragment fragments =>
      have hnext := (List.isChain_cons_cons.1 h).1
      cases fragment with
      | literal next => exact hnext.elim
      | prop name => exact ⟨by simp [Fragment.print], fun hlast => absurd hlast hnext⟩

namespace InclusionTag

variable {inclusion : Inclusion} {fragments : List Fragment} {rest text : List Char}

/-- Escaped text is written as it was before it was escaped. -/
theorem WrittenValue.escaped (hquote : '"' ∉ text) (hrest : MayFollow rest text)
    (h : WrittenValue rest fragments) :
    WrittenValue (escaped text ++ rest) (Fragment.withText (String.ofList text) fragments) := by
  induction text using escaped_induction with
  | nil => simpa [Stencil.escaped] using h
  | reference cs ih =>
      have htail := ih (by simp_all) hrest.tail.tail
      have hread : String.ofList ('$' :: '\x7b' :: cs) = "$\x7b" ++ String.ofList cs := by
        rw [← String.toList_inj]
        simp
      rw [hread, Fragment.withText_append]
      exact .escape htail
  | plain c cs hplain ih =>
      have hnoquote : c ≠ '"' := by
        rintro rfl
        simp at hquote
      have htail := ih (by simp_all) hrest.tail
      have hread : String.ofList (c :: cs) = String.singleton c ++ String.ofList cs := by
        rw [← String.toList_inj]
        simp
      rw [escaped_cons hplain, List.cons_append, hread, Fragment.withText_append]
      exact .character hnoquote hrest.not_escape (hrest.not_reference hplain) htail

/-- Printed fragments are written with the same meaning, since no two texts touch. -/
theorem WrittenValue.print (hprint : ∀ fragment ∈ fragments, fragment.Printable)
    (hchain : fragments.IsChain Fragment.MayPrecede) :
    WrittenValue (fragments.flatMap Fragment.print) fragments := by
  induction fragments with
  | nil => exact .nil
  | cons fragment fragments ih =>
      have hfragments := fun next hnext => hprint next (List.mem_cons_of_mem fragment hnext)
      have htail := ih hfragments hchain.tail
      cases fragment with
      | literal text =>
          obtain ⟨hne, hquote⟩ := hprint _ List.mem_cons_self
          have hjoin : Fragment.withText text fragments = .literal text :: fragments := by
            cases fragments with
            | nil => simp [Fragment.withText, hne]
            | cons next fragments =>
                cases next with
                | literal next => exact (List.isChain_cons_cons.1 hchain).1.elim
                | prop name => simp [Fragment.withText, hne]
          have hvalue := htail.escaped hquote (Fragment.mayFollow hchain)
          rwa [String.ofList_toList, hjoin] at hvalue
      | prop name =>
          have hname : Avoids propNameStops name := hprint _ List.mem_cons_self
          have hvalue := WrittenValue.reference hname htail
          simpa [Fragment.print] using hvalue

theorem WrittenArgument.print {argument : Argument} (h : argument.Printable) :
    WrittenArgument argument.print argument := by
  cases argument with
  | wildcard => exact .wildcard
  | named key fragments =>
      obtain ⟨hkey, hprint, hchain⟩ := h
      simpa [Argument.print] using WrittenArgument.named hkey (WrittenValue.print hprint hchain)

theorem WrittenArguments.print {arguments : List Argument}
    (h : ∀ argument ∈ arguments, argument.Printable) :
    WrittenArguments (arguments.flatMap fun argument => ' ' :: argument.print) arguments := by
  have hblank : Blanks [' '] := by decide
  induction arguments with
  | nil => exact .nil
  | cons argument arguments ih =>
      have hargument := WrittenArgument.print (h argument List.mem_cons_self)
      have htail := ih fun next hnext => h next (List.mem_cons_of_mem argument hnext)
      exact .cons hblank (by decide) hargument htail

theorem WrittenBody.print (h : inclusion.Printable) :
    WrittenBody inclusion.print inclusion := by
  have hblank : Blanks [' '] := by decide
  have hbody := WrittenBody.form (.nameFirst h.name hblank (by decide) h.id)
    (WrittenArguments.print h.arguments) hblank
  simpa [Inclusion.print, nameOpening, idOpening] using hbody

/-- A printed tag is read back, and its scan ends where it ends. -/
theorem scan_print (wrap : Inclusion → Token) (h : inclusion.Printable) (rest : List Char) :
    scan wrap (inclusion.print ++ rest) = .found (wrap inclusion) rest := by
  have hblanks : Blanks [] := by decide
  exact (scan_eq_found_iff wrap).2 ⟨[], _, inclusion, hblanks, .print h, rfl, rfl⟩

end InclusionTag

end Stencil
