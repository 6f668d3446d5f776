import Stencil.Render.Basic

/-!
# What a rendering does at a token

Every piece of a rendering is read in two ways: what it found when it gives a result, and which
fault it met when it fails. A rendering stops at the first fault, so the reading of a whole goes
back to the reading of one of its parts.
-/

namespace Stencil

section Except

variable {ε α β : Type} {x : Except ε α} {f : α → Except ε β}

theorem bind_eq_ok {b : β} : x >>= f = .ok b ↔ ∃ a, x = .ok a ∧ f a = .ok b := by
  cases x with
  | error e =>
      constructor
      · intro h
        cases h
      · rintro ⟨_, h, _⟩
        cases h
  | ok a =>
      constructor
      · intro h
        exact ⟨a, rfl, h⟩
      · rintro ⟨_, h, hb⟩
        cases h
        exact hb

theorem bind_eq_error {e : ε} :
    x >>= f = .error e ↔ x = .error e ∨ ∃ a, x = .ok a ∧ f a = .error e := by
  cases x with
  | error d =>
      constructor
      · intro h
        cases h
        exact .inl rfl
      · rintro (h | ⟨_, h, _⟩) <;> cases h
        rfl
  | ok a =>
      constructor
      · intro h
        exact .inr ⟨a, rfl, h⟩
      · rintro (h | ⟨_, h, hf⟩) <;> cases h
        exact hf

theorem map_eq_ok {g : α → β} {b : β} : x.map g = .ok b ↔ ∃ a, x = .ok a ∧ g a = b := by
  cases x <;> simp [Except.map]

theorem map_eq_error {g : α → β} {e : ε} : x.map g = .error e ↔ x = .error e := by
  cases x <;> simp [Except.map]

end Except

theorem lookupProp_eq_ok {props : Json.Fields} {name : String} {v : Json} :
    lookupProp props name = .ok v ↔ props.lookup name = some v := by
  unfold lookupProp
  cases props.lookup name <;> simp

theorem lookupProp_eq_error {props : Json.Fields} {name : String} {e : RenderError} :
    lookupProp props name = .error e ↔ props.lookup name = none ∧ e = .missingProp name := by
  unfold lookupProp
  cases props.lookup name <;> simp [eq_comm]

/-- The props that a token reads by name: its own, or those in the arguments of its inclusion. -/
def Token.references : Token → List String
  | .prop name _ => [name]
  | .attribute name => [name]
  | .single inclusion => inclusion.references
  | .repeated inclusion => inclusion.references
  | _ => []

section Arguments

variable {props : Json.Fields} {inherited : Attributes}

theorem Argument.mem_references_named {name x : String} {fragments : List Fragment} :
    x ∈ (Argument.named name fragments).references ↔ .prop x ∈ fragments := by
  simp only [Argument.references, List.mem_filterMap]
  constructor
  · rintro ⟨fragment, hmem, heq⟩
    cases fragment <;> cases heq
    exact hmem
  · intro h
    exact ⟨.prop x, h, rfl⟩

theorem Fragment.evaluateAll_eq_ok {fragments : List Fragment} {text : String}
    (h : evaluateAll props fragments = .ok text) {x : String} (hx : .prop x ∈ fragments) :
    (props.lookup x).isSome := by
  induction fragments generalizing text with
  | nil => cases hx
  | cons fragment rest ih =>
      obtain ⟨first, hfirst, h⟩ := bind_eq_ok.1 h
      obtain ⟨more, hmore, _⟩ := bind_eq_ok.1 h
      obtain rfl | hx := List.mem_cons.1 hx
      · obtain ⟨v, hv, _⟩ := map_eq_ok.1 hfirst
        rw [lookupProp_eq_ok.1 hv]
        rfl
      · exact ih hmore hx

theorem Fragment.evaluateAll_eq_error {fragments : List Fragment} {e : RenderError}
    (h : evaluateAll props fragments = .error e) :
    ∃ x, .prop x ∈ fragments ∧ props.lookup x = none ∧ e = .missingProp x := by
  induction fragments with
  | nil => cases h
  | cons fragment rest ih =>
      obtain hfirst | ⟨first, _, h⟩ := bind_eq_error.1 h
      · cases fragment with
        | literal text => cases hfirst
        | prop x =>
            obtain ⟨hnone, he⟩ := lookupProp_eq_error.1 (map_eq_error.1 hfirst)
            exact ⟨x, by simp, hnone, he⟩
      · obtain hmore | ⟨_, _, h⟩ := bind_eq_error.1 h
        · obtain ⟨x, hx, hnone, he⟩ := ih hmore
          exact ⟨x, List.mem_cons_of_mem _ hx, hnone, he⟩
        · cases h

theorem Argument.apply_eq_ok {a b : Attributes} {argument : Argument}
    (h : argument.apply props inherited a = .ok b) {x : String} (hx : x ∈ argument.references) :
    (props.lookup x).isSome := by
  cases argument with
  | wildcard => cases hx
  | named name fragments =>
      obtain ⟨text, htext, _⟩ := bind_eq_ok.1 h
      exact Fragment.evaluateAll_eq_ok htext (mem_references_named.1 hx)

theorem Argument.apply_eq_error {a : Attributes} {argument : Argument} {e : RenderError}
    (h : argument.apply props inherited a = .error e) :
    ∃ x ∈ argument.references, props.lookup x = none ∧ e = .missingProp x := by
  cases argument with
  | wildcard => cases h
  | named name fragments =>
      obtain hfragments | ⟨_, _, h⟩ := bind_eq_error.1 h
      · obtain ⟨x, hx, hnone, he⟩ := Fragment.evaluateAll_eq_error hfragments
        exact ⟨x, mem_references_named.2 hx, hnone, he⟩
      · cases h

theorem Argument.applyAll_eq_ok {a b : Attributes} {arguments : List Argument}
    (h : applyAll props inherited a arguments = .ok b) {x : String}
    (hx : x ∈ arguments.flatMap references) : (props.lookup x).isSome := by
  induction arguments generalizing a with
  | nil => cases hx
  | cons argument rest ih =>
      obtain ⟨next, hnext, h⟩ := bind_eq_ok.1 h
      obtain hx | hx := List.mem_append.1 (List.flatMap_cons ▸ hx)
      · exact apply_eq_ok hnext hx
      · exact ih h hx

theorem Argument.applyAll_eq_error {a : Attributes} {arguments : List Argument} {e : RenderError}
    (h : applyAll props inherited a arguments = .error e) :
    ∃ x ∈ arguments.flatMap references, props.lookup x = none ∧ e = .missingProp x := by
  induction arguments generalizing a with
  | nil => cases h
  | cons argument rest ih =>
      obtain hfirst | ⟨next, _, h⟩ := bind_eq_error.1 h
      · obtain ⟨x, hx, hnone, he⟩ := apply_eq_error hfirst
        exact ⟨x, List.flatMap_cons ▸ List.mem_append_left _ hx, hnone, he⟩
      · obtain ⟨x, hx, hnone, he⟩ := ih h
        exact ⟨x, List.flatMap_cons ▸ List.mem_append_right _ hx, hnone, he⟩

end Arguments

namespace Render

variable {registry : Registry} {below : Option Renderer} {props : Json.Fields}
variable {forwarded : Attributes}

theorem resolve_eq_ok {name : String} {child : Included}
    (h : resolve registry below name = .ok child) :
    ∃ component render, registry.get? name = some component ∧ below = some render ∧
      child = render component := by
  unfold resolve at h
  split at h
  case h_1 => cases h
  case h_2 component hfound =>
    split at h <;> cases h
    exact ⟨component, _, hfound, rfl, rfl⟩

/-- An unknown name fails whatever levels are left; a known one only where none is left. -/
theorem resolve_eq_error {name : String} {e : RenderError}
    (h : resolve registry below name = .error e) :
    (registry.get? name = none ∧ e = .unknownComponent name) ∨
    ((registry.get? name).isSome ∧ below = none ∧
      e = .depthExceeded name registry.maxDepth) := by
  unfold resolve at h
  split at h
  case h_1 hnone => cases h; exact .inl ⟨hnone, rfl⟩
  case h_2 component hfound =>
    split at h <;> cases h
    exact .inr ⟨by simp [hfound], rfl, rfl⟩

theorem resolve_of_unknown {name : String} (h : registry.get? name = none) :
    resolve registry below name = .error (.unknownComponent name) := by
  rw [resolve, h]

theorem resolve_of_none {name : String} {component : Component}
    (h : registry.get? name = some component) :
    resolve registry none name = .error (.depthExceeded name registry.maxDepth) := by
  rw [resolve, h]

theorem resolve_of_some {name : String} {component : Component} {render : Renderer}
    (h : registry.get? name = some component) :
    resolve registry (some render) name = .ok (render component) := by
  rw [resolve, h]

theorem mapM_fields?_eq_some {items : List Json} {objects : List Json.Fields}
    (h : items.mapM Json.fields? = some objects) : items = objects.map .object := by
  induction items generalizing objects with
  | nil => cases h; rfl
  | cons v rest ih =>
      rw [List.mapM_cons] at h
      obtain ⟨fields, hv, h⟩ := Option.bind_eq_some_iff.1 h
      obtain ⟨others, hrest, h⟩ := Option.bind_eq_some_iff.1 h
      cases h
      rw [ih hrest, List.map_cons]
      cases v <;> cases hv
      rfl

theorem mapM_fields?_map (objects : List Json.Fields) :
    (objects.map Json.object).mapM Json.fields? = some objects := by
  induction objects with
  | nil => rfl
  | cons fields rest ih => simp [List.mapM_cons, ih, Json.fields?]

/-- The elements are there exactly if the id has an array of objects. -/
theorem elements_eq_ok {id : String} {objects : List Json.Fields} :
    elements props id = .ok objects ↔ props.lookup id = some (.array (objects.map .object)) := by
  unfold elements
  split
  case h_1 items hlookup =>
    rw [hlookup]
    constructor
    · intro h
      split at h <;> cases h
      rw [← mapM_fields?_eq_some ‹_›]
    · intro h
      cases h
      rw [mapM_fields?_map]
  case h_2 hlookup =>
    constructor
    · intro h
      cases h
    · intro h
      exact absurd h (hlookup _)

theorem exists_not_object {items : List Json} (h : items.mapM Json.fields? = none) :
    ∃ v ∈ items, ∀ fields, v ≠ .object fields := by
  induction items with
  | nil => cases h
  | cons v rest ih =>
      cases hv : v.fields? with
      | none =>
          refine ⟨v, List.mem_cons_self, ?_⟩
          rintro fields rfl
          cases hv
      | some fields =>
          rw [List.mapM_cons, hv] at h
          cases hrest : rest.mapM Json.fields? with
          | none =>
              obtain ⟨w, hw, hne⟩ := ih hrest
              exact ⟨w, List.mem_cons_of_mem _ hw, hne⟩
          | some others =>
              rw [hrest] at h
              cases h

/-- The elements fail where the id has no array, or one with a value that is not an object. -/
theorem elements_eq_error {id : String} {e : RenderError} (h : elements props id = .error e) :
    (∀ items, props.lookup id = some (.array items) → ∃ v ∈ items, ∀ fields, v ≠ .object fields) ∧
      e = .invalidArrayProp id := by
  unfold elements at h
  split at h
  case h_1 items hlookup =>
    split at h <;> cases h
    refine ⟨?_, rfl⟩
    intro others hothers
    rw [hlookup] at hothers
    cases hothers
    exact exists_not_object ‹_›
  case h_2 hlookup =>
    cases h
    refine ⟨?_, rfl⟩
    intro items hitems
    exact absurd hitems (hlookup items)

theorem inclusionText_eq_error {inclusion : Inclusion} {child : Included} {e : RenderError}
    (h : inclusionText inclusion child props forwarded = .error e) :
    ∃ cause, child props forwarded = .error cause ∧
      e = .nested inclusion.name inclusion.id cause := by
  unfold inclusionText at h
  cases hchild : child props forwarded with
  | ok text => rw [hchild] at h; cases h
  | error cause => rw [hchild] at h; cases h; exact ⟨cause, rfl, rfl⟩

theorem elementTexts_eq_error {inclusion : Inclusion} {child : Included} {index : Nat}
    {objects : List Json.Fields} {e : RenderError}
    (h : elementTexts inclusion child forwarded index objects = .error e) :
    ∃ m fields cause, objects[m]? = some fields ∧
      child (indexed fields (index + m)) forwarded = .error cause ∧
      e = .nested inclusion.name inclusion.id cause := by
  induction objects generalizing index with
  | nil => cases h
  | cons fields rest ih =>
      obtain hfirst | ⟨_, _, h⟩ := bind_eq_error.1 h
      · obtain ⟨cause, hcause, he⟩ := inclusionText_eq_error hfirst
        exact ⟨0, fields, cause, rfl, hcause, he⟩
      · obtain hrest | ⟨_, _, h⟩ := bind_eq_error.1 h
        · obtain ⟨m, found, cause, hm, hcause, he⟩ := ih hrest
          refine ⟨m + 1, found, cause, by simpa using hm, ?_, he⟩
          rwa [Nat.add_assoc, Nat.add_comm 1 m] at hcause
        · cases h

theorem tokensText_eq_ok {tokens : List Token} {text : String}
    (h : tokensText registry below props forwarded tokens = .ok text) :
    ∀ token ∈ tokens, ∃ part, tokenText registry below props forwarded token = .ok part := by
  induction tokens generalizing text with
  | nil => nofun
  | cons token rest ih =>
      obtain ⟨part, hpart, h⟩ := bind_eq_ok.1 h
      obtain ⟨more, hmore, _⟩ := bind_eq_ok.1 h
      rw [List.forall_mem_cons]
      exact ⟨⟨part, hpart⟩, ih hmore⟩

theorem tokensText_eq_error {tokens : List Token} {e : RenderError}
    (h : tokensText registry below props forwarded tokens = .error e) :
    ∃ token ∈ tokens, tokenText registry below props forwarded token = .error e := by
  induction tokens with
  | nil => cases h
  | cons token rest ih =>
      obtain hfirst | ⟨_, _, h⟩ := bind_eq_error.1 h
      · exact ⟨token, List.mem_cons_self, hfirst⟩
      · obtain hrest | ⟨_, _, h⟩ := bind_eq_error.1 h
        · obtain ⟨found, hmem, he⟩ := ih hrest
          exact ⟨found, List.mem_cons_of_mem _ hmem, he⟩
        · cases h

/-- The renderer for included components where some number of levels is left. -/
def below? (registry : Registry) : Nat → Option Renderer
  | 0 => none
  | levels + 1 => some (within registry levels)

theorem within_eq (registry : Registry) (levels : Nat) (component : Component)
    (props : Json.Fields) (forwarded : Attributes) :
    within registry levels component props forwarded =
      tokensText registry (below? registry levels) props forwarded component.tokens := by
  cases levels <;> rfl

end Render

end Stencil
