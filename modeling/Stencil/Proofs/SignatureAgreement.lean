import Mathlib
import Stencil.Engine.Basic
import Stencil.Proofs.Faults
import Stencil.Proofs.SchemaPlaces
import Stencil.Proofs.Signature

/-!
# Signature and rendering agree

Props that a component was rendered with have the shape of its signature. Props of that shape leave
a rendering few ways to fail at its own tokens: no prop is missing, a type is wrong only where
tokens ask for a key in different ways, and an array only where it holds something else than
objects.
-/

namespace Stencil

theorem Token.mem_references_iff {token : Token} {key : String} :
    key ∈ token.references ↔
      (∃ type, token.declared? key = some type) ∨ key ∈ token.argumentReferences := by
  cases token <;> simp [references, declared?, argumentReferences, eq_comm]

namespace Component

variable {c : Component} {key : String}

theorem exists_tag_of_get? {schema : Schema} (h : c.signatureFields.get? key = some schema) :
    ∃ type, schema = .tag type := by
  rw [get?_signatureFields] at h
  split at h
  · cases h; exact ⟨.object, rfl⟩
  · obtain h | ⟨_, h⟩ := Option.or_eq_some_iff.1 h
    · obtain ⟨type, _, rfl⟩ := Option.map_eq_some_iff.1 h
      exact ⟨type, rfl⟩
    · split at h <;> cases h
      exact ⟨.any, rfl⟩

/-- Props have the shape of the signature if each key that it asks for has a value of its type. -/
theorem check_signature_eq_none_iff {props : Json.Fields} :
    c.signature.check (.object props) = none ↔
      ∀ key type, c.signatureFields.get? key = some (.tag type) →
        ∃ v, props.lookup key = some v ∧ type.admits v = true := by
  rw [signature, Schema.check, Schema.checkAt, Schema.checkFields_eq_none_iff]
  constructor
  · intro h key type hget
    obtain ⟨v, hv, hcheck⟩ := h (key, .tag type) (Dictionary.get?_eq_some_iff.1 hget)
    exact ⟨v, hv, Schema.checkAt_tag_eq_none_iff.1 hcheck⟩
  · rintro h ⟨key, schema⟩ hmem
    have hget := Dictionary.get?_eq_some_iff.2 hmem
    obtain ⟨type, rfl⟩ := exists_tag_of_get? hget
    obtain ⟨v, hv, hadmits⟩ := h key type hget
    exact ⟨v, hv, Schema.checkAt_tag_eq_none_iff.2 hadmits⟩

theorem get?_of_mem_loopIds (h : key ∈ c.loopIds) :
    c.signatureFields.get? key = some (.tag .object) := by
  rw [get?_signatureFields, if_pos h]

/-- A key that is no id is asked for with its one declared type. -/
theorem get?_of_declared_once {type : PropType} (hloop : key ∉ c.loopIds)
    (hmem : type ∈ c.declaredTypes key) (honce : ∀ t ∈ c.declaredTypes key, t = type) :
    c.signatureFields.get? key = some (.tag type) := by
  rw [get?_signatureFields, if_neg hloop, get?_declaredProps]
  cases htypes : c.declaredTypes key with
  | nil => rw [htypes] at hmem; cases hmem
  | cons first rest =>
      rw [htypes] at honce
      have hfirst : first = type := honce first List.mem_cons_self
      have hrest : ∀ t ∈ rest, t = first := by
        intro t ht
        rw [honce t (List.mem_cons_of_mem _ ht), hfirst]
      change ((some (if ∀ t ∈ rest, t = first then first else .any)).map Schema.tag).or _ = _
      rw [if_pos hrest, hfirst]
      rfl

/-- Every prop that a token reads is asked for. -/
theorem exists_get?_of_reference {token : Token} (hmem : token ∈ c.tokens)
    (h : key ∈ token.references) : ∃ type, c.signatureFields.get? key = some (.tag type) := by
  by_cases hloop : key ∈ c.loopIds
  · exact ⟨.object, get?_of_mem_loopIds hloop⟩
  rw [get?_signatureFields, if_neg hloop, get?_declaredProps]
  cases htypes : c.declaredTypes key with
  | cons type types => exact ⟨_, rfl⟩
  | nil =>
      obtain ⟨type, hdeclared⟩ | hargument := Token.mem_references_iff.1 h
      · have htype : type ∈ c.declaredTypes key := List.mem_filterMap.2 ⟨token, hmem, hdeclared⟩
        rw [htypes] at htype
        cases htype
      · have hargument : key ∈ c.argumentReferences := List.mem_flatMap.2 ⟨token, hmem, hargument⟩
        exact ⟨.any, by rw [if_pos hargument]; rfl⟩

/-- A key that the signature asks for is the id of a repeated inclusion, or else a token reads it
and asks for no more than a token that declares it. -/
theorem get?_cases {type : PropType} (h : c.signatureFields.get? key = some (.tag type)) :
    (key ∈ c.loopIds ∧ type = .object) ∨
    ∃ token ∈ c.tokens, key ∈ token.references ∧
      (type = .any ∨ token.declared? key = some type) := by
  rw [get?_signatureFields] at h
  split at h
  case isTrue hloop => cases h; exact .inl ⟨hloop, rfl⟩
  case isFalse =>
    right
    obtain h | ⟨_, h⟩ := Option.or_eq_some_iff.1 h
    · obtain ⟨known, hknown, heq⟩ := Option.map_eq_some_iff.1 h
      cases heq
      rw [get?_declaredProps] at hknown
      cases htypes : c.declaredTypes key with
      | nil => rw [htypes] at hknown; cases hknown
      | cons first rest =>
          have hfirst : first ∈ c.declaredTypes key := by rw [htypes]; exact List.mem_cons_self
          obtain ⟨token, hmem, hdeclared⟩ := List.mem_filterMap.1 hfirst
          refine ⟨token, hmem, Token.mem_references_iff.2 (.inl ⟨first, hdeclared⟩), ?_⟩
          rw [htypes] at hknown
          simp only [Option.some.injEq] at hknown
          split at hknown
          · exact .inr (hknown ▸ hdeclared)
          · exact .inl hknown.symm
    · split at h <;> cases h
      obtain ⟨token, hmem, hargument⟩ := List.mem_flatMap.1 ‹_›
      exact ⟨token, hmem, Token.mem_references_iff.2 (.inr hargument), .inl rfl⟩

end Component

namespace Render

variable {registry : Registry} {below : Option Renderer} {props : Json.Fields}
variable {forwarded : Attributes} {token : Token} {text : String}

/-- What a rendered token reads is there. -/
theorem isSome_of_reference (h : tokenText registry below props forwarded token = .ok text)
    {key : String} (hkey : key ∈ token.references) : (props.lookup key).isSome := by
  cases token with
  | prop name type =>
      obtain ⟨v, hv, _⟩ := bind_eq_ok.1 h
      rw [List.mem_singleton.1 hkey, lookupProp_eq_ok.1 hv]
      rfl
  | «attribute» name =>
      obtain ⟨v, hv, _⟩ := bind_eq_ok.1 h
      rw [List.mem_singleton.1 hkey, lookupProp_eq_ok.1 hv]
      rfl
  | single inclusion =>
      obtain ⟨_, _, h⟩ := bind_eq_ok.1 h
      obtain ⟨_, harguments, _⟩ := bind_eq_ok.1 h
      exact Argument.applyAll_eq_ok harguments hkey
  | repeated inclusion =>
      obtain ⟨_, _, h⟩ := bind_eq_ok.1 h
      obtain ⟨_, _, h⟩ := bind_eq_ok.1 h
      obtain ⟨_, harguments, _⟩ := bind_eq_ok.1 h
      exact Argument.applyAll_eq_ok harguments hkey
  | _ => cases hkey

/-- What a rendered token declares has the type that it declares. -/
theorem admits_of_declared (h : tokenText registry below props forwarded token = .ok text)
    {key : String} {type : PropType} (hdeclared : token.declared? key = some type) {v : Json}
    (hv : props.lookup key = some v) : type.admits v = true := by
  cases token with
  | prop name asked =>
      rw [Token.declared?] at hdeclared
      split at hdeclared
      · cases hdeclared
        subst name
        obtain ⟨w, hw, h⟩ := bind_eq_ok.1 h
        rw [lookupProp_eq_ok.1 hw] at hv
        cases hv
        split at h
        · assumption
        · cases h
      · cases hdeclared
  | «attribute» name =>
      rw [Token.declared?] at hdeclared
      split at hdeclared <;> cases hdeclared
      rfl
  | _ => cases hdeclared

/-- Under the id of a rendered repeated inclusion stands an array. -/
theorem array_of_loopId (h : tokenText registry below props forwarded token = .ok text)
    {key : String} (hkey : token.loopId? = some key) :
    ∃ items, props.lookup key = some (.array items) := by
  cases token with
  | repeated inclusion =>
      obtain ⟨_, _, h⟩ := bind_eq_ok.1 h
      obtain ⟨objects, hobjects, _⟩ := bind_eq_ok.1 h
      cases hkey
      exact ⟨_, elements_eq_ok.1 hobjects⟩
  | _ => cases hkey

/-- Props that a component was rendered with have the shape of its signature. -/
theorem check_signature_of_within {levels : Nat} {component : Component}
    (h : within registry levels component props forwarded = .ok text) :
    component.signature.check (.object props) = none := by
  rw [within_eq] at h
  have htokens := tokensText_eq_ok h
  apply Component.check_signature_eq_none_iff.2
  intro key type hget
  obtain ⟨hloop, rfl⟩ | ⟨token, hmem, hreference, htype⟩ := Component.get?_cases hget
  · obtain ⟨token, hmem, hkey⟩ := List.mem_filterMap.1 hloop
    obtain ⟨part, hpart⟩ := htokens token hmem
    obtain ⟨items, hitems⟩ := array_of_loopId hpart hkey
    exact ⟨.array items, hitems, rfl⟩
  · obtain ⟨part, hpart⟩ := htokens token hmem
    obtain ⟨v, hv⟩ := Option.isSome_iff_exists.1 (isSome_of_reference hpart hreference)
    refine ⟨v, hv, ?_⟩
    obtain rfl | hdeclared := htype
    · rfl
    · exact admits_of_declared hpart hdeclared hv

/-- An error that is not wrapped is a fault of one of the component's own tokens. -/
theorem fault_of_within {levels : Nat} {component : Component} {e : RenderError}
    (hlevels : levels = registry.maxDepth)
    (h : within registry levels component props forwarded = .error e)
    (hnested : ∀ name id cause, e ≠ .nested name id cause) :
    Fault registry 0 component props e := by
  rw [within_eq] at h
  obtain ⟨token, hmem, h⟩ := tokensText_eq_error h
  have hdepth : 0 + levels = registry.maxDepth := by omega
  obtain hfault | ⟨_, _, _, _, _, _, _, _, _, he⟩ := tokenText_eq_error hdepth h
  · exact ⟨token, hmem, hfault⟩
  · exact absurd he (hnested _ _ _)

end Render

section Shape

variable {registry : Registry} {depth : Nat} {c : Component} {props : Json.Fields} {key : String}

theorem not_fault_missingProp (hshape : c.signature.check (.object props) = none) :
    ¬ Fault registry depth c props (.missingProp key) := by
  rintro ⟨token, hmem, hreference, hnone⟩
  obtain ⟨type, hget⟩ := Component.exists_get?_of_reference hmem hreference
  obtain ⟨v, hv, _⟩ := Component.check_signature_eq_none_iff.1 hshape key type hget
  rw [hnone] at hv
  cases hv

theorem declared_of_fault_typeMismatch (hshape : c.signature.check (.object props) = none)
    {type : PropType} (h : Fault registry depth c props (.typeMismatch key type)) :
    (∃ t ∈ c.declaredTypes key, ∃ u ∈ c.declaredTypes key, t ≠ u) ∨ key ∈ c.loopIds := by
  obtain ⟨token, hmem, rfl, v, hv, hadmits⟩ := h
  by_cases hloop : key ∈ c.loopIds
  · exact .inr hloop
  left
  have htype : type ∈ c.declaredTypes key :=
    List.mem_filterMap.2 ⟨_, hmem, by simp [Token.declared?]⟩
  by_contra hsame
  have honce : ∀ t ∈ c.declaredTypes key, t = type := by
    intro t ht
    by_contra hne
    exact hsame ⟨t, ht, type, htype, hne⟩
  have hget := Component.get?_of_declared_once hloop htype honce
  obtain ⟨w, hw, hadmitted⟩ := Component.check_signature_eq_none_iff.1 hshape key type hget
  rw [hv] at hw
  cases hw
  rw [hadmits] at hadmitted
  cases hadmitted

theorem value_of_fault_invalidArrayProp (hshape : c.signature.check (.object props) = none)
    (h : Fault registry depth c props (.invalidArrayProp key)) :
    (∃ fields, props.lookup key = some (.object fields)) ∨
      ∃ items, props.lookup key = some (.array items) ∧
        ∃ v ∈ items, ∀ fields, v ≠ .object fields := by
  obtain ⟨token, hmem, ⟨inclusion, rfl, rfl⟩, hitems⟩ := h
  have hloop : inclusion.id ∈ c.loopIds := List.mem_filterMap.2 ⟨_, hmem, rfl⟩
  obtain ⟨v, hv, hadmits⟩ := Component.check_signature_eq_none_iff.1 hshape _ _
    (Component.get?_of_mem_loopIds hloop)
  cases v with
  | object fields => exact .inl ⟨fields, hv⟩
  | array items => exact .inr ⟨items, hv, hitems items hv⟩
  | _ => cases hadmits

end Shape

/-- A check of props against the signature tells beforehand what a rendering can meet at the tokens
of the component itself. -/
theorem Engine.checkProps_agrees {engine : Engine} {name : String} {component : Component}
    (found : engine.registry.get? name = some component) (props : Json.Fields) :
    (∀ forwarded text, engine.registry.render component props forwarded = .ok text →
      engine.checkProps name props = .ok none) ∧
    (engine.checkProps name props = .ok none →
      ∀ forwarded e, engine.registry.render component props forwarded = .error e →
        (∀ key, e ≠ .missingProp key) ∧
        (∀ key type, e = .typeMismatch key type →
          (∃ t ∈ component.declaredTypes key, ∃ u ∈ component.declaredTypes key, t ≠ u) ∨
            key ∈ component.loopIds) ∧
        (∀ key, e = .invalidArrayProp key →
          (∃ fields, props.lookup key = some (.object fields)) ∨
            ∃ items, props.lookup key = some (.array items) ∧
              ∃ v ∈ items, ∀ fields, v ≠ .object fields)) := by
  have hcheck : engine.checkProps name props = .ok (component.signature.check (.object props)) := by
    rw [Engine.checkProps, found]
  rw [hcheck]
  constructor
  · intro forwarded text h
    rw [Render.check_signature_of_within h]
  · intro hnone forwarded e h
    have hshape := Except.ok.inj hnone
    refine ⟨?_, ?_, ?_⟩
    · rintro key rfl
      exact not_fault_missingProp hshape (Render.fault_of_within rfl h nofun)
    · rintro key type rfl
      exact declared_of_fault_typeMismatch hshape (Render.fault_of_within rfl h nofun)
    · rintro key rfl
      exact value_of_fault_invalidArrayProp hshape (Render.fault_of_within rfl h nofun)

theorem Engine.checkProps_agrees_pair :
    (Engine.ofRegistry (.register .empty "pair" "$\x7ba:string\x7d$\x7ba:number\x7d")).checkProps
        "pair" [("a", .string "x")] = .ok none ∧
    ((∃ t ∈ (Component.ofSource "$\x7ba:string\x7d$\x7ba:number\x7d").declaredTypes "a",
        ∃ u ∈ (Component.ofSource "$\x7ba:string\x7d$\x7ba:number\x7d").declaredTypes "a", t ≠ u) ∨
      "a" ∈ (Component.ofSource "$\x7ba:string\x7d$\x7ba:number\x7d").loopIds) := by
  have found : (Registry.register .empty "pair" "$\x7ba:string\x7d$\x7ba:number\x7d").get? "pair" =
      some (.ofSource "$\x7ba:string\x7d$\x7ba:number\x7d") := rfl
  have hcheck :
      (Engine.ofRegistry (.register .empty "pair" "$\x7ba:string\x7d$\x7ba:number\x7d")).checkProps
        "pair" [("a", .string "x")] = .ok none := by cbv
  have hrender : (Registry.register .empty "pair" "$\x7ba:string\x7d$\x7ba:number\x7d").render
      (.ofSource "$\x7ba:string\x7d$\x7ba:number\x7d") [("a", .string "x")] .empty =
        .error (.typeMismatch "a" .number) := by cbv
  have hagrees := @Engine.checkProps_agrees (.ofRegistry _) _ _ found [("a", .string "x")]
  exact ⟨hcheck, (hagrees.2 hcheck .empty _ hrender).2.1 "a" .number rfl⟩

end Stencil
