import Stencil.Proofs.RenderSteps

/-!
# What a rendering sees of its props

Props are seen only through look-ups by key. The arguments of an inclusion look up the props that
they refer to and no others, so props that answer these alike are as good as each other.
-/

namespace Stencil

section Arguments

variable {props other : Json.Fields}

theorem lookupProp_congr {name : String} (same : props.lookup name = other.lookup name) :
    lookupProp props name = lookupProp other name := by
  rw [lookupProp, lookupProp, same]

theorem Fragment.evaluateAll_congr {fragments : List Fragment}
    (same : ∀ x, .prop x ∈ fragments → props.lookup x = other.lookup x) :
    evaluateAll props fragments = evaluateAll other fragments := by
  induction fragments with
  | nil => rfl
  | cons fragment rest ih =>
      have hfirst : fragment.evaluate props = fragment.evaluate other := by
        cases fragment with
        | literal text => rfl
        | prop name =>
            rw [evaluate, evaluate, lookupProp_congr (same name List.mem_cons_self)]
      have hrest := ih fun x hx => same x (List.mem_cons_of_mem _ hx)
      rw [evaluateAll, evaluateAll, hfirst, hrest]

theorem Argument.apply_congr {inherited a : Attributes} {argument : Argument}
    (same : ∀ x ∈ argument.references, props.lookup x = other.lookup x) :
    argument.apply props inherited a = argument.apply other inherited a := by
  cases argument with
  | wildcard => rfl
  | named name fragments =>
      have hfragments := Fragment.evaluateAll_congr fun x hx =>
        same x (mem_references_named.2 hx)
      rw [apply, apply, hfragments]

theorem Argument.applyAll_congr {inherited a : Attributes} {arguments : List Argument}
    (same : ∀ x ∈ arguments.flatMap references, props.lookup x = other.lookup x) :
    applyAll props inherited a arguments = applyAll other inherited a arguments := by
  induction arguments generalizing a with
  | nil => rfl
  | cons argument rest ih =>
      rw [List.flatMap_cons, List.forall_mem_append] at same
      obtain ⟨hargument, hrest⟩ := same
      rw [applyAll, applyAll, apply_congr hargument]
      exact congrArg _ (funext fun next => ih hrest)

/-- Arguments see nothing of the props but what they refer to. -/
theorem evaluateArguments_congr {inclusion : Inclusion} (inherited : Attributes)
    (same : ∀ x ∈ inclusion.references, props.lookup x = other.lookup x) :
    evaluateArguments inclusion.arguments props inherited =
      evaluateArguments inclusion.arguments other inherited :=
  Argument.applyAll_congr same

end Arguments

/-- The keys that a token looks up in the props: those that it reads by name, and the id of its
inclusion. -/
def Token.lookups : Token → List String
  | .single inclusion => inclusion.id :: inclusion.references
  | .repeated inclusion => inclusion.id :: inclusion.references
  | token => token.references

namespace Render

variable {registry : Registry} {below : Option Renderer} {props other : Json.Fields}
variable {forwarded : Attributes}

theorem tokenText_congr {token : Token}
    (same : ∀ key ∈ token.lookups, props.lookup key = other.lookup key) :
    tokenText registry below props forwarded token =
      tokenText registry below other forwarded token := by
  cases token with
  | literal text => rfl
  | prop name type =>
      have hname := same name List.mem_cons_self
      rw [tokenText, tokenText, lookupProp_congr hname]
  | «attribute» name =>
      have hname := same name List.mem_cons_self
      rw [tokenText, tokenText, lookupProp_congr hname]
  | forwarded => rfl
  | single inclusion =>
      obtain ⟨hid, hreferences⟩ := List.forall_mem_cons.1 same
      have hprops : singleProps props inclusion.id = singleProps other inclusion.id := by
        rw [singleProps, singleProps, hid]
      rw [tokenText, tokenText, hprops, evaluateArguments_congr forwarded hreferences]
  | repeated inclusion =>
      obtain ⟨hid, hreferences⟩ := List.forall_mem_cons.1 same
      have helements : elements props inclusion.id = elements other inclusion.id := by
        rw [elements, elements, hid]
      rw [tokenText, tokenText, helements, evaluateArguments_congr forwarded hreferences]

/-- What is the same for each token is the same for all tokens. -/
theorem tokensText_congr {forwarded' : Attributes} {tokens : List Token}
    (same : ∀ token ∈ tokens, tokenText registry below props forwarded token =
      tokenText registry below other forwarded' token) :
    tokensText registry below props forwarded tokens =
      tokensText registry below other forwarded' tokens := by
  induction tokens with
  | nil => rfl
  | cons token rest ih =>
      obtain ⟨htoken, hrest⟩ := List.forall_mem_cons.1 same
      rw [tokensText, tokensText, htoken, ih hrest]

/-- A rendering sees nothing of the props but what the tokens of the component look up. -/
theorem within_congr_of_lookups {levels : Nat} {component : Component}
    (same : ∀ token ∈ component.tokens, ∀ key ∈ token.lookups,
      props.lookup key = other.lookup key) :
    within registry levels component props forwarded =
      within registry levels component other forwarded := by
  rw [within_eq, within_eq]
  apply tokensText_congr
  intro token mem
  exact tokenText_congr (same token mem)

/-- Props with the same look-ups are rendered alike. -/
theorem within_congr {levels : Nat} {component : Component}
    (same : ∀ key, props.lookup key = other.lookup key) :
    within registry levels component props forwarded =
      within registry levels component other forwarded :=
  within_congr_of_lookups fun _ _ key _ => same key

end Render

end Stencil
