import Stencil.Template.Segment

/-!
# What a scan reports

A scan that ends reports a token and what is left of its input. The token is that of a construct and
never a literal, and what is left is the end of the text behind the first character of the opening.
-/

namespace Stencil

def Token.isLiteral : Token → Bool
  | .literal _ => true
  | _ => false

namespace Machine

variable {σ : Type}

/-- What holds of every token that a step accepts holds of the token that a run finds. -/
theorem run_found {m : Machine σ} {P : Token → Prop}
    (accepted : ∀ {s c cs token n}, m.step s c cs = .accept token n → P token)
    {s : σ} {cs rest : List Char} {token : Token} (h : m.run s cs = .found token rest) :
    P token := by
  fun_induction run m s cs with
  | case1 s => cases h
  | case2 s c cs t hstep ih => exact ih h
  | case3 s c cs n t hstep ih => exact ih h
  | case4 s c cs found n hstep =>
      cases h
      exact accepted hstep
  | case5 s c cs reason hstep => cases h

end Machine

theorem Placeholder.scan_not_literal {cs rest : List Char} {token : Token}
    (h : scan cs = .found token rest) : token.isLiteral = false := by
  refine Machine.run_found (m := machine) (P := fun t => t.isLiteral = false) ?_ h
  intro s c cs token n hstep
  cases s <;> simp only [machine, step] at hstep <;> (repeat' split at hstep) <;> cases hstep
  all_goals rfl

theorem Shorthand.scan_not_literal {cs rest : List Char} {token : Token}
    (h : scan cs = .found token rest) : token.isLiteral = false := by
  refine Machine.run_found (m := machine) (P := fun t => t.isLiteral = false) ?_ h
  intro s c cs token n hstep
  simp only [machine, step] at hstep
  (repeat' split at hstep) <;> cases hstep
  rfl

theorem InclusionTag.scan_not_literal {wrap : Inclusion → Token}
    (hwrap : ∀ inclusion, (wrap inclusion).isLiteral = false)
    {cs rest : List Char} {token : Token} (h : scan wrap cs = .found token rest) :
    token.isLiteral = false := by
  refine Machine.run_found (m := machine wrap) (P := fun t => t.isLiteral = false) ?_ h
  intro s c cs token n hstep
  cases s <;> simp only [machine, step] at hstep <;> (repeat' split at hstep) <;> cases hstep
  exact hwrap _

namespace Segment

/-- A construct opens at one of four words, and its scan starts right behind that word. -/
theorem opening?_cases {context : TagContext} {before : Option Char} {text : List Char}
    {kind : Construct} {outcome : Outcome}
    (h : opening? context before text = some (kind, outcome)) :
    (∃ cs, text = '$' :: '\x7b' :: cs ∧ kind = .prop ∧ outcome = Placeholder.scan cs) ∨
    (∃ c cs, text = '$' :: c :: cs ∧ isIdent c = true ∧ context = .inside ∧
      before.any isBlank = true ∧ kind = .attribute ∧ outcome = Shorthand.scan (c :: cs)) ∨
    (∃ c cs, text = '<' :: 'e' :: 'z' :: '-' :: 'f' :: 'o' :: 'r' :: c :: cs ∧ isBlank c = true ∧
      kind = .repeated ∧ outcome = InclusionTag.scan .repeated cs) ∨
    (∃ c cs, text = '<' :: 'e' :: 'z' :: c :: cs ∧ isBlank c = true ∧
      kind = .single ∧ outcome = InclusionTag.scan .single cs) := by
  unfold opening? at h
  split at h
  case h_1 cs => cases h; exact .inl ⟨cs, rfl, rfl, rfl⟩
  case h_2 c cs _ =>
    split at h <;> cases h
    case isTrue hc => exact .inr (.inl ⟨c, cs, rfl, hc.1, hc.2.1, hc.2.2, rfl, rfl⟩)
  case h_3 c cs =>
    split at h <;> cases h
    case isTrue hc => exact .inr (.inr (.inl ⟨c, cs, rfl, hc, rfl, rfl⟩))
  case h_4 c cs _ =>
    split at h <;> cases h
    case isTrue hc => exact .inr (.inr (.inr ⟨c, cs, rfl, hc, rfl, rfl⟩))
  case h_5 => cases h

/-- A shorthand opens at a dollar sign directly inside of a tag, behind a blank and before an
identifier, and nowhere else. -/
theorem opening?_shorthand_iff {context : TagContext} {before : Option Char} {text : List Char}
    {outcome : Outcome} : opening? context before text = some (.attribute, outcome) ↔
      context = .inside ∧ before.any isBlank = true ∧
        ∃ c cs, text = '$' :: c :: cs ∧ isIdent c = true ∧ outcome = Shorthand.scan (c :: cs) := by
  constructor
  · intro h
    obtain ⟨_, _, hkind, _⟩ | ⟨c, cs, htext, ident, inside, behind, _, hscan⟩ |
      ⟨_, _, _, _, hkind, _⟩ | ⟨_, _, _, _, hkind, _⟩ := opening?_cases h
    · cases hkind
    · exact ⟨inside, behind, c, cs, htext, ident, hscan⟩
    · cases hkind
    · cases hkind
  · rintro ⟨inside, behind, c, cs, rfl, ident, rfl⟩
    have hbrace : c ≠ '\x7b' := ne_of_apply_ne isIdent (by rw [ident]; decide)
    simp [opening?, ident, inside, behind]

/-- The scan of a construct uses up at least the first character of its opening. -/
theorem opening?_rest_suffix {context : TagContext} {before : Option Char} {c : Char}
    {cs : List Char} {kind : Construct} {outcome : Outcome}
    (h : opening? context before (c :: cs) = some (kind, outcome)) : outcome.rest <:+ cs := by
  obtain ⟨ds, htext, _, rfl⟩ | ⟨d, ds, htext, _, _, _, _, rfl⟩ | ⟨d, ds, htext, _, _, rfl⟩ |
    ⟨d, ds, htext, _, _, rfl⟩ := opening?_cases h <;> cases htext
  · exact (Machine.run_rest_suffix _ _ _).trans (List.suffix_cons _ _)
  · exact Machine.run_rest_suffix _ _ _
  · exact (Machine.run_rest_suffix _ _ _).trans
      (List.suffix_append ['e', 'z', '-', 'f', 'o', 'r', d] _)
  · exact (Machine.run_rest_suffix _ _ _).trans (List.suffix_append ['e', 'z', d] _)

theorem opening?_not_literal {context : TagContext} {before : Option Char} {text rest : List Char}
    {kind : Construct} {token : Token}
    (h : opening? context before text = some (kind, .found token rest)) :
    token.isLiteral = false := by
  obtain ⟨ds, _, _, hscan⟩ | ⟨d, ds, _, _, _, _, _, hscan⟩ | ⟨d, ds, _, _, _, hscan⟩ |
    ⟨d, ds, _, _, _, hscan⟩ := opening?_cases h
  · exact Placeholder.scan_not_literal hscan.symm
  · exact Shorthand.scan_not_literal hscan.symm
  · exact InclusionTag.scan_not_literal (fun _ => rfl) hscan.symm
  · exact InclusionTag.scan_not_literal (fun _ => rfl) hscan.symm

end Segment

end Stencil
