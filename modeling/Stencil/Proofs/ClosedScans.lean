import Stencil.Proofs.EscapedPlaceholders

/-!
# Scans do not look beyond the end of a tag

Every word that a scan looks for holds no `>`, or has it at the end. In a text that ends in `>` a
scan therefore does not see what follows the text, unless it comes to its end without being
finished.
-/

namespace Stencil

/-- A text that is empty or ends in `>`. -/
def Closed (text : List Char) : Prop := ∀ c ∈ text.getLast?, c = '>'

namespace Closed

variable {text front rest more word : List Char} {c : Char}

theorem suffix (h : Closed text) (hsuffix : rest <:+ text) : Closed rest := by
  obtain ⟨front, rfl⟩ := hsuffix
  intro c hc
  apply h
  rw [List.getLast?_append, hc]
  rfl

theorem tail (h : Closed (c :: rest)) : Closed rest := h.suffix (List.suffix_cons c rest)

theorem eq_of_singleton (h : Closed [c]) : c = '>' := h c rfl

/-- A word without `>` that stands at the head of a text that goes on stands in the text itself. -/
theorem prefix_of_prefix (h : Closed text) (nonempty : text ≠ []) (hword : '>' ∉ word)
    (ahead : word <+: text ++ more) : word <+: text := by
  obtain hshort | hlong := List.prefix_or_prefix_of_prefix ahead (List.prefix_append text more)
  · exact hshort
  · exfalso
    apply hword
    apply hlong.subset
    have hlast := h _ (List.getLast?_eq_getLast_of_ne_nil nonempty)
    rw [← hlast]
    exact List.getLast_mem nonempty

theorem isPrefixOf_append (h : Closed text) (nonempty : text ≠ []) (hword : '>' ∉ word) :
    word.isPrefixOf (text ++ more) = word.isPrefixOf text := by
  apply Bool.eq_iff_iff.2
  rw [List.isPrefixOf_iff_prefix, List.isPrefixOf_iff_prefix]
  constructor
  · exact h.prefix_of_prefix nonempty hword
  · intro hprefix
    exact hprefix.trans (List.prefix_append text more)

/-- Behind any other character than `>` the text goes on. -/
theorem tail_ne_nil (h : Closed (c :: rest)) (hc : c ≠ '>') : rest ≠ [] := by
  rintro rfl
  exact hc h.eq_of_singleton

theorem head?_append (h : Closed (c :: rest)) (hc : c ≠ '>') :
    (rest ++ more).head? = rest.head? :=
  List.head?_append_of_ne_nil rest (h.tail_ne_nil hc)

end Closed

/-- The outcome of a scan with more text ahead. -/
def Outcome.append : Outcome → List Char → Outcome
  | found token rest, more => found token (rest ++ more)
  | stalled reason rest, more => stalled reason (rest ++ more)

/-- A machine that sees nothing beyond a text that ends in `>`. -/
structure Machine.StaysInside {σ : Type} (m : Machine σ) : Prop where
  step : ∀ {s c cs more}, Closed (c :: cs) → m.step s c (cs ++ more) = m.step s c cs
  pass : ∀ {s t c cs n}, m.step s c cs = .pass n t → n ≤ cs.length
  accept : ∀ {s c cs token n}, m.step s c cs = .accept token n → n ≤ cs.length + 1

/-- A run that is finished within a text is the same where more follows. -/
theorem Machine.run_append {σ : Type} {m : Machine σ} (h : m.StaysInside) {s : σ}
    {cs more : List Char} (closed : Closed cs)
    (finished : m.run s cs ≠ .stalled .endOfInput []) :
    m.run s (cs ++ more) = (m.run s cs).append more := by
  fun_induction run m s cs with
  | case1 s => exact absurd rfl finished
  | case2 s c cs t hstep ih =>
      rw [← ih closed finished]
      exact m.run_stay ((h.step closed).trans hstep)
  | case3 s c cs n t hstep ih =>
      rw [← ih (closed.tail.suffix (List.drop_suffix n cs)) finished]
      rw [List.cons_append, m.run_pass ((h.step closed).trans hstep),
        List.drop_append_of_le_length (h.pass hstep)]
  | case4 s c cs token n hstep =>
      rw [List.cons_append, m.run_accept ((h.step closed).trans hstep), Outcome.append,
        ← List.cons_append, List.drop_append_of_le_length (h.accept hstep)]
  | case5 s c cs reason hstep =>
      rw [List.cons_append, m.run_stall ((h.step closed).trans hstep)]
      rfl

theorem Placeholder.staysInside : machine.StaysInside where
  step {s c cs more} _ := by cases s <;> rfl
  pass hstep := by rw [pass_zero hstep]; exact Nat.zero_le _
  accept hstep := by rw [(accept_brace hstep).1]; exact Nat.le_add_left 1 _

theorem Shorthand.staysInside : machine.StaysInside where
  step _ := rfl
  pass hstep := by
    simp only [machine, Shorthand.step] at hstep
    (repeat' split at hstep) <;> cases hstep
    exact Nat.zero_le _
  accept hstep := by
    simp only [machine, Shorthand.step] at hstep
    (repeat' split at hstep) <;> cases hstep
    exact Nat.zero_le _

namespace InclusionTag

variable {wrap : Inclusion → Token} {s t : State} {c : Char} {cs more : List Char}

/-- The words that a step looks for are in the text, or none of them is ahead. -/
theorem step_append (closed : Closed (c :: cs)) :
    step wrap s c (cs ++ more) = step wrap s c cs := by
  have hname : nameOpening.isPrefixOf (c :: (cs ++ more)) = nameOpening.isPrefixOf (c :: cs) :=
    closed.isPrefixOf_append (List.cons_ne_nil c cs) (by decide)
  have hid : idOpening.isPrefixOf (c :: (cs ++ more)) = idOpening.isPrefixOf (c :: cs) :=
    closed.isPrefixOf_append (List.cons_ne_nil c cs) (by decide)
  by_cases hc : c = '>'
  · subst hc
    cases s <;> simp [step, nameOpening, idOpening, isIdent, isLetter, isDigit, isBlank]
  · have hescape : ['$', '\x7b'].isPrefixOf (cs ++ more) = ['$', '\x7b'].isPrefixOf cs :=
      closed.tail.isPrefixOf_append (closed.tail_ne_nil hc) (by decide)
    cases s <;> simp only [step, hname, hid, hescape, closed.head?_append hc]

theorem staysInside (wrap : Inclusion → Token) : (machine wrap).StaysInside where
  step closed := step_append closed
  pass hstep := by
    obtain hzero | ⟨word, _, hlength, hprefix⟩ := pass_cases hstep
    · rw [hzero]
      exact Nat.zero_le _
    · have hle := hprefix.length_le
      rw [hlength] at hle
      exact Nat.le_of_succ_le_succ hle
  accept hstep := by
    obtain ⟨rfl, tail, rfl⟩ := accept_close hstep
    exact Nat.le_add_left 2 _

end InclusionTag

end Stencil
