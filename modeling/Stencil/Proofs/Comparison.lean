import Stencil.Proofs.RenderSteps

/-!
# Two renderings side by side

Two renderings of the same tokens differ only where they find different components behind an
inclusion. Whatever relation holds between the components found carries over to the results: the
texts are equal and the errors are equal, up to errors of the first rendering with an excepted root
cause, to which the second rendering is not held.
-/

namespace Stencil

/-- Two results agree if they hold related values or the same error. Nothing is asked where the
first is an error with an excepted root cause. -/
inductive AgreeUnless (excepted : RenderError → Prop) {α β : Type} (R : α → β → Prop) :
    Except RenderError α → Except RenderError β → Prop
  | ok {a b} (related : R a b) : AgreeUnless excepted R (.ok a) (.ok b)
  | error (e) : AgreeUnless excepted R (.error e) (.error e)
  | excepted {e y} (cause : excepted e.rootCause) : AgreeUnless excepted R (.error e) y

namespace AgreeUnless

variable {excepted : RenderError → Prop} {α β γ δ : Type}
variable {R : α → β → Prop} {S : γ → δ → Prop}

theorem refl (x : Except RenderError α) : AgreeUnless excepted (· = ·) x x := by
  cases x with
  | ok a => exact .ok rfl
  | error e => exact .error e

theorem bind {x : Except RenderError α} {y : Except RenderError β} {f : α → Except RenderError γ}
    {g : β → Except RenderError δ} (h : AgreeUnless excepted R x y)
    (next : ∀ a b, R a b → AgreeUnless excepted S (f a) (g b)) :
    AgreeUnless excepted S (x >>= f) (y >>= g) := by
  cases h with
  | ok related => exact next _ _ related
  | error e => exact .error e
  | excepted cause => exact .excepted cause

/-- What follows the same first step in both may use its value. -/
theorem bind_same {x : Except RenderError α} {f : α → Except RenderError γ}
    {g : α → Except RenderError δ}
    (next : ∀ a, x = .ok a → AgreeUnless excepted S (f a) (g a)) :
    AgreeUnless excepted S (x >>= f) (x >>= g) := by
  cases x with
  | ok a => exact next a rfl
  | error e => exact .error e

/-- A frame around an error leaves its root cause. -/
theorem nested {x : Except RenderError α} {y : Except RenderError β}
    (h : AgreeUnless excepted R x y) (name id : String) :
    AgreeUnless excepted R (x.mapError (.nested name id)) (y.mapError (.nested name id)) := by
  cases h with
  | ok related => exact .ok related
  | error e => exact .error _
  | excepted cause => exact .excepted cause

theorem eq {x y : Except RenderError α} (h : AgreeUnless excepted (· = ·) x y)
    (regular : ∀ e, x = .error e → ¬ excepted e.rootCause) : x = y := by
  cases h with
  | ok related => rw [related]
  | error e => rfl
  | excepted cause => exact absurd cause (regular _ rfl)

theorem eq_or_excepted {x y : Except RenderError α} (h : AgreeUnless excepted (· = ·) x y) :
    y = x ∨ ∃ e, x = .error e ∧ excepted e.rootCause := by
  cases h with
  | ok related => exact .inl (congrArg _ related.symm)
  | error e => exact .inl rfl
  | excepted cause => exact .inr ⟨_, rfl, cause⟩

end AgreeUnless

/-- Two components behind an inclusion give results that agree for all props and attributes. -/
def Included.AgreeUnless (excepted : RenderError → Prop) (child other : Included) : Prop :=
  ∀ props attributes,
    Stencil.AgreeUnless excepted (· = ·) (child props attributes) (other props attributes)

namespace Render

variable {excepted : RenderError → Prop} {registry other : Registry}
variable {below otherBelow : Option Renderer}

theorem inclusionText_agree {inclusion : Inclusion} {child child' : Included}
    (h : child.AgreeUnless excepted child') (props : Json.Fields) (attributes : Attributes) :
    AgreeUnless excepted (· = ·) (inclusionText inclusion child props attributes)
      (inclusionText inclusion child' props attributes) := by
  apply AgreeUnless.nested
  exact h props attributes

theorem elementTexts_agree {inclusion : Inclusion} {child child' : Included}
    (h : child.AgreeUnless excepted child') (attributes : Attributes) (index : Nat)
    (objects : List Json.Fields) :
    AgreeUnless excepted (· = ·) (elementTexts inclusion child attributes index objects)
      (elementTexts inclusion child' attributes index objects) := by
  induction objects generalizing index with
  | nil => exact .refl _
  | cons fields rest ih =>
      apply AgreeUnless.bind (inclusionText_agree h _ _)
      rintro text _ rfl
      apply AgreeUnless.bind (ih (index + 1))
      rintro texts _ rfl
      exact .refl _

/-- Where both know a name alike, they agree behind it if they do for the component of the name, and
if at its limit the first stops for an excepted reason or the second stops as well. -/
theorem resolve_agree {name : String} (same : other.get? name = registry.get? name)
    (stopped : below = none → excepted (.depthExceeded name registry.maxDepth) ∨
      otherBelow = none ∧ other.maxDepth = registry.maxDepth)
    (entered : ∀ render, below = some render → ∃ render', otherBelow = some render' ∧
      ∀ component, registry.get? name = some component →
        (render component).AgreeUnless excepted (render' component)) :
    AgreeUnless excepted (Included.AgreeUnless excepted)
      (resolve registry below name) (resolve other otherBelow name) := by
  cases hget : registry.get? name with
  | none =>
      rw [resolve_of_unknown hget, resolve_of_unknown (same.trans hget)]
      exact .error _
  | some component =>
      cases hbelow : below with
      | none =>
          rw [resolve_of_none hget]
          obtain cause | ⟨rfl, hlimit⟩ := stopped hbelow
          · exact .excepted cause
          · rw [resolve_of_none (same.trans hget), hlimit]
            exact .error _
      | some render =>
          obtain ⟨render', rfl, hchild⟩ := entered render hbelow
          rw [resolve_of_some hget, resolve_of_some (same.trans hget)]
          exact .ok (hchild component hget)

/-- Renderings of a token agree if they do behind its inclusion. -/
theorem tokenText_agree {token : Token} (props : Json.Fields) (forwarded : Attributes)
    (h : ∀ inclusion, token.inclusion? = some inclusion →
      AgreeUnless excepted (Included.AgreeUnless excepted)
        (resolve registry below inclusion.name) (resolve other otherBelow inclusion.name)) :
    AgreeUnless excepted (· = ·) (tokenText registry below props forwarded token)
      (tokenText other otherBelow props forwarded token) := by
  cases token with
  | single inclusion =>
      apply AgreeUnless.bind (h inclusion rfl)
      intro child child' hchild
      apply AgreeUnless.bind_same
      intro attributes _
      exact inclusionText_agree hchild _ _
  | repeated inclusion =>
      apply AgreeUnless.bind (h inclusion rfl)
      intro child child' hchild
      apply AgreeUnless.bind_same
      intro objects _
      apply AgreeUnless.bind_same
      intro attributes _
      apply AgreeUnless.bind (elementTexts_agree hchild attributes 0 objects)
      rintro texts _ rfl
      exact .refl _
  | _ => exact .refl _

/-- Renderings of tokens are related if they are for each token, and related texts may be put one
behind the other. -/
theorem tokensText_agree_of_tokens {R : String → String → Prop} (empty : R "" "")
    (append : ∀ a b c d, R a b → R c d → R (a ++ c) (b ++ d)) {tokens : List Token}
    {props props' : Json.Fields} {forwarded forwarded' : Attributes}
    (h : ∀ token ∈ tokens, AgreeUnless excepted R (tokenText registry below props forwarded token)
      (tokenText other otherBelow props' forwarded' token)) :
    AgreeUnless excepted R (tokensText registry below props forwarded tokens)
      (tokensText other otherBelow props' forwarded' tokens) := by
  induction tokens with
  | nil => exact .ok empty
  | cons token rest ih =>
      obtain ⟨hfirst, hrest⟩ := List.forall_mem_cons.1 h
      apply AgreeUnless.bind hfirst
      intro text text' htext
      apply AgreeUnless.bind (ih hrest)
      intro more more' hmore
      exact .ok (append text text' more more' htext hmore)

/-- Renderings of tokens agree if they do behind every inclusion among them. -/
theorem tokensText_agree {tokens : List Token} (props : Json.Fields) (forwarded : Attributes)
    (h : ∀ token ∈ tokens, ∀ inclusion, token.inclusion? = some inclusion →
      AgreeUnless excepted (Included.AgreeUnless excepted)
        (resolve registry below inclusion.name) (resolve other otherBelow inclusion.name)) :
    AgreeUnless excepted (· = ·) (tokensText registry below props forwarded tokens)
      (tokensText other otherBelow props forwarded tokens) := by
  apply tokensText_agree_of_tokens rfl
  · rintro a _ c _ rfl rfl
    rfl
  · intro token mem
    exact tokenText_agree props forwarded (h token mem)

end Render

end Stencil
