import Stencil.Proofs.ClosedBoundary

/-!
# Where shorthands stand

In a source whose only constructs are shorthands, a shorthand is scanned behind a blank directly
inside of an open tag. What a tag is, and that it is still open, is said here by the shape of the
text before the shorthand, and the context that lexing keeps is shown to follow it.
-/

namespace Stencil

/-- Text inside of a tag: quotes come in complete runs, and brackets only between them. -/
inductive TagText : List Char → Prop
  | nil : TagText []
  | char {c cs} (plain : c ∉ ['<', '>', '"', '\'']) (tail : TagText cs) : TagText (c :: cs)
  | quoted {mark run cs} (isMark : mark = '"' ∨ mark = '\'') (closed : mark ∉ run)
      (tail : TagText cs) : TagText (mark :: (run ++ mark :: cs))

/-- A tag that is open yet: a bracket with a letter right behind it, and text of the tag. -/
inductive OpenTag : List Char → Prop
  | opened {c cs} (letter : c ∈ letters) (text : TagText cs) : OpenTag ('<' :: c :: cs)

/-- A text that ends outside of tags, or before a bracket that ends a tag, with the text that
follows it. Outside of tags stand characters other than an opening bracket, and opening brackets
without a letter behind them. A tag reaches up to its closing bracket or to the next opening one. -/
inductive Markup : List Char → List Char → Prop
  | done {ahead} : Markup [] ahead
  | char {c cs ahead} (plain : c ≠ '<') (tail : Markup cs ahead) : Markup (c :: cs) ahead
  | bracket {cs ahead} (noLetter : ∀ c ∈ (cs ++ ahead).head?, c ∉ letters)
      (tail : Markup cs ahead) : Markup ('<' :: cs) ahead
  | closed {tag cs ahead} (isTag : OpenTag tag) (tail : Markup cs ahead) :
      Markup (tag ++ '>' :: cs) ahead
  | cut {tag cs ahead} (isTag : OpenTag tag) (next : (cs ++ ahead).head? = some '<')
      (tail : Markup cs ahead) : Markup (tag ++ cs) ahead

theorem TagText.append {cs ds : List Char} (h : TagText cs) (tail : TagText ds) :
    TagText (cs ++ ds) := by
  induction h with
  | nil => exact tail
  | char plain _ ih => exact .char plain ih
  | quoted isMark closed _ ih =>
      rw [List.cons_append, List.append_assoc, List.cons_append]
      exact .quoted isMark closed ih

theorem Markup.append {cs ds ahead : List Char} (h : Markup cs (ds ++ ahead))
    (tail : Markup ds ahead) : Markup (cs ++ ds) ahead := by
  generalize hmore : ds ++ ahead = more at h
  induction h with
  | done => exact tail
  | char plain _ ih => exact .char plain (ih hmore)
  | bracket noLetter _ ih =>
      subst hmore
      rw [← List.append_assoc] at noLetter
      exact .bracket noLetter (ih rfl)
  | closed isTag _ ih =>
      rw [List.append_assoc, List.cons_append]
      exact .closed isTag (ih hmore)
  | cut isTag next _ ih =>
      subst hmore
      rw [← List.append_assoc] at next
      rw [List.append_assoc]
      exact .cut isTag next (ih rfl)

/-- Of the text that follows only the first character matters. -/
theorem Markup.congr {cs ahead more : List Char} (h : Markup cs ahead)
    (same : ahead.head? = more.head?) : Markup cs more := by
  induction h with
  | done => exact .done
  | char plain _ ih => exact .char plain (ih same)
  | bracket noLetter _ ih =>
      rw [List.head?_append, same, ← List.head?_append] at noLetter
      exact .bracket noLetter (ih same)
  | closed isTag _ ih => exact .closed isTag (ih same)
  | cut isTag next _ ih =>
      rw [List.head?_append, same, ← List.head?_append] at next
      exact .cut isTag next (ih same)

namespace TagContext

/-- The context behind a text of plain characters, with the text that follows it. -/
def behind (context : TagContext) : List Char → List Char → TagContext
  | [], _ => context
  | c :: cs, ahead => (context.step c (cs ++ ahead).head?).behind cs ahead

theorem behind_append (context : TagContext) (cs ds ahead : List Char) :
    context.behind (cs ++ ds) ahead = (context.behind cs (ds ++ ahead)).behind ds ahead := by
  induction cs generalizing context with
  | nil => rfl
  | cons c cs ih => rw [List.cons_append, behind, behind, ih, List.append_assoc]

theorem behind_quoted {mark : Char} {run : List Char} (closed : mark ∉ run) (ahead : List Char) :
    (quoted mark).behind run ahead = quoted mark := by
  induction run with
  | nil => rfl
  | cons c run ih =>
      rw [List.mem_cons, not_or] at closed
      rw [behind, step, if_neg (Ne.symm closed.1), ih closed.2]

theorem behind_tagText {cs : List Char} (h : TagText cs) (ahead : List Char) :
    inside.behind cs ahead = inside := by
  induction h with
  | nil => rfl
  | char plain _ ih =>
      simp only [List.mem_cons, List.not_mem_nil, or_false, not_or] at plain
      simp [behind, step, plain, ih]
  | @quoted mark run cs isMark closed _ ih =>
      have hopen : ∀ next, inside.step mark next = quoted mark := fun next => if_pos isMark
      have hclose : ∀ next, (quoted mark).step mark next = inside := fun next => if_pos rfl
      rw [behind, hopen, behind_append, behind_quoted closed, behind, hclose, ih]

/-- A tag is opened in the same way outside of tags and in one that is open. -/
theorem behind_openTag {context : TagContext} (h : context = .outside ∨ context = .inside)
    {tag : List Char} (isTag : OpenTag tag) (ahead : List Char) :
    context.behind tag ahead = .inside := by
  cases isTag with
  | @opened c cs letter text =>
      have hletter : TagText (c :: cs) := by
        have hmarks : ∀ d ∈ ['<', '>', '"', '\''], d ∉ letters := by simp [letters]
        exact .char (fun hc => hmarks c hc letter) text
      have hopen : context.step '<' (some c) = .inside := by
        obtain rfl | rfl := h <;> simp [step, isLetter_iff.2 letter]
      change (context.step '<' (some c)).behind (c :: cs) ahead = .inside
      rw [hopen, behind_tagText hletter]

/-- No quote is open behind markup. -/
theorem behind_markup {context : TagContext} {cs ahead : List Char} (h : Markup cs ahead)
    (start : context = .outside ∨ context = .inside ∧ (cs ++ ahead).head? = some '<') :
    context.behind cs ahead = .outside ∨ context.behind cs ahead = .inside := by
  induction h generalizing context with
  | done =>
      obtain rfl | ⟨rfl, _⟩ := start
      · exact .inl rfl
      · exact .inr rfl
  | @char c cs ahead plain _ ih =>
      obtain rfl | ⟨rfl, hhead⟩ := start
      · apply ih
        simp [step, plain]
      · cases hhead
        exact absurd rfl plain
  | bracket noLetter _ ih =>
      apply ih
      left
      rw [step.eq_def]
      obtain rfl | ⟨rfl, _⟩ := start <;> simp only [any_isLetter_eq_false_iff.2 noLetter] <;> rfl
  | @closed tag cs ahead isTag _ ih =>
      have hcontext : context = .outside ∨ context = .inside := start.imp_right And.left
      rw [behind_append, behind_openTag hcontext isTag]
      exact ih (.inl rfl)
  | @cut tag cs ahead isTag next _ ih =>
      have hcontext : context = .outside ∨ context = .inside := start.imp_right And.left
      rw [behind_append, behind_openTag hcontext isTag]
      exact ih (.inr ⟨rfl, next⟩)

/-- The last characters of a text, behind a bracket that a letter follows. -/
def InTag (front tag ahead : List Char) : Prop :=
  ∃ cs, front = cs ++ '<' :: tag ∧ Markup cs ('<' :: (tag ++ ahead)) ∧
    (tag ++ ahead).head?.any isLetter = true

/-- The shape of a text behind which a context stands. -/
def Stands (front ahead : List Char) : TagContext → Prop
  | .outside => Markup front ahead
  | .inside => ∃ tag, InTag front tag ahead ∧ TagText tag
  | .quoted mark => ∃ tag run, InTag front (tag ++ mark :: run) ahead ∧ TagText tag ∧
      (mark = '"' ∨ mark = '\'') ∧ mark ∉ run

variable {front tag ahead : List Char} {c : Char}

theorem InTag.push (h : InTag front tag (c :: ahead)) :
    InTag (front ++ [c]) (tag ++ [c]) ahead := by
  obtain ⟨cs, rfl, hmarkup, hletter⟩ := h
  refine ⟨cs, by simp, ?_, ?_⟩
  · simpa using hmarkup
  · simpa using hletter

/-- Before anything but a letter the tag has its first letter. -/
theorem InTag.openTag (h : InTag front tag ahead) (text : TagText tag)
    (noLetter : ahead.head?.any isLetter = false) :
    ∃ cs, front = cs ++ '<' :: tag ∧ Markup cs ('<' :: (tag ++ ahead)) ∧ OpenTag ('<' :: tag) := by
  obtain ⟨cs, hfront, hmarkup, hletter⟩ := h
  refine ⟨cs, hfront, hmarkup, ?_⟩
  cases text with
  | nil =>
      rw [List.nil_append, noLetter] at hletter
      cases hletter
  | char plain tail => exact .opened (isLetter_iff.1 (by simpa using hletter)) tail
  | quoted isMark closed tail =>
      obtain rfl | rfl := isMark <;> cases hletter

/-- Before an opening bracket a tag may end. -/
theorem InTag.markup (h : InTag front tag ('<' :: ahead)) (text : TagText tag) :
    Markup front ('<' :: ahead) := by
  obtain ⟨cs, rfl, hmarkup, hopen⟩ := h.openTag text rfl
  have hcut : Markup ('<' :: tag ++ []) ('<' :: ahead) := .cut hopen rfl .done
  rw [List.append_nil] at hcut
  exact hmarkup.append hcut

theorem Markup.bracket_or_inTag (h : Markup front ('<' :: ahead)) :
    Stands (front ++ ['<']) ahead (outside.step '<' ahead.head?) := by
  by_cases hletter : ahead.head?.any isLetter = true
  · rw [step, if_pos ⟨rfl, hletter⟩]
    exact ⟨[], ⟨front, rfl, h, hletter⟩, .nil⟩
  · rw [step, if_neg fun hboth => hletter hboth.2]
    exact h.append (.bracket (any_isLetter_eq_false_iff.1 (by simpa using hletter)) .done)

/-- A character leads from the shape of one context to that of the next. -/
theorem Stands.step {context : TagContext} (h : Stands front (c :: ahead) context) :
    Stands (front ++ [c]) ahead (context.step c ahead.head?) := by
  cases context with
  | outside =>
      by_cases hc : c = '<'
      · subst hc
        exact Markup.bracket_or_inTag h
      · rw [TagContext.step, if_neg fun hboth => hc hboth.1]
        exact Markup.append h (.char hc .done)
  | inside =>
      obtain ⟨tag, hin, htext⟩ := h
      by_cases hquote : c = '"' ∨ c = '\''
      · rw [TagContext.step, if_pos hquote]
        exact ⟨tag, [], hin.push, htext, hquote, List.not_mem_nil⟩
      · by_cases hopen : c = '<'
        · subst hopen
          have hstep : inside.step '<' ahead.head? = outside.step '<' ahead.head? := by
            simp [TagContext.step]
          rw [hstep]
          exact Markup.bracket_or_inTag (hin.markup htext)
        · by_cases hclose : c = '>'
          · subst hclose
            obtain ⟨cs, rfl, hmarkup, hopen⟩ := hin.openTag htext rfl
            rw [List.append_assoc]
            exact Markup.append (by simpa using hmarkup) (.closed hopen .done)
          · rw [TagContext.step, if_neg hquote, if_neg hopen, if_neg hclose]
            refine ⟨tag ++ [c], hin.push, htext.append (.char ?_ .nil)⟩
            simp_all
  | quoted mark =>
      obtain ⟨tag, run, hin, htext, isMark, hrun⟩ := h
      have hpush := hin.push
      rw [List.append_assoc, List.cons_append] at hpush
      by_cases hc : c = mark
      · subst hc
        rw [TagContext.step, if_pos rfl]
        exact ⟨_, hpush, htext.append (.quoted isMark hrun .nil)⟩
      · rw [TagContext.step, if_neg hc]
        refine ⟨tag, run ++ [c], hpush, htext, isMark, ?_⟩
        simp [hrun, Ne.symm hc]

theorem Stands.behind {context : TagContext} {cs : List Char}
    (h : Stands front (cs ++ ahead) context) :
    Stands (front ++ cs) ahead (context.behind cs ahead) := by
  induction cs generalizing front context with
  | nil => simpa [TagContext.behind] using h
  | cons c cs ih =>
      have hnext := ih (Stands.step h)
      rw [List.append_assoc, List.singleton_append] at hnext
      exact hnext

/-- Lexing is inside of a tag where the text before ends in a tag that is open. -/
theorem behind_eq_inside_iff (noLetter : ahead.head?.any isLetter = false) :
    outside.behind front ahead = .inside ↔
      ∃ cs tag, front = cs ++ tag ∧ Markup cs tag ∧ OpenTag tag := by
  constructor
  · intro h
    have hstands : Stands ([] ++ front) ahead (outside.behind front ahead) := Stands.behind .done
    rw [h, List.nil_append] at hstands
    obtain ⟨tag, hin, htext⟩ := hstands
    obtain ⟨cs, hfront, hmarkup, hopen⟩ := hin.openTag htext noLetter
    exact ⟨cs, '<' :: tag, hfront, hmarkup.congr rfl, hopen⟩
  · rintro ⟨cs, tag, rfl, hmarkup, hopen⟩
    have hhead : tag.head? = (tag ++ ahead).head? := by
      cases hopen
      rfl
    rw [behind_append]
    exact behind_openTag (behind_markup (hmarkup.congr hhead) (.inl rfl)) hopen ahead

end TagContext

end Stencil
