import Mathlib
import Stencil.Proofs.RenderSteps

/-!
# Errors tell where and why

The chain of an error leads from the rendered component to the one with the fault, by inclusions
that stand in the sources, and from the given props to those of the faulty rendering. The root cause
is true of the component and the props at the end of the chain.
-/

namespace Stencil

/-- How an inclusion hands on props: from the props of the including component to those of the
included one, with name and id of the inclusion as the frame of an error. -/
inductive Enters (registry : Registry) (props : Json.Fields) :
    Token → String × String → Component → Json.Fields → Prop
  | object {inclusion child fields} (found : registry.get? inclusion.name = some child)
      (given : props.lookup inclusion.id = some (.object fields)) :
      Enters registry props (.single inclusion) (inclusion.name, inclusion.id) child fields
  | bare {inclusion child} (found : registry.get? inclusion.name = some child)
      (noObject : ∀ fields, props.lookup inclusion.id ≠ some (.object fields)) :
      Enters registry props (.single inclusion) (inclusion.name, inclusion.id) child []
  | element {inclusion child items fields} {m : Nat}
      (found : registry.get? inclusion.name = some child)
      (array : props.lookup inclusion.id = some (.array items))
      (item : items[m]? = some (.object fields)) (own : (fields.lookup "i").isSome) :
      Enters registry props (.repeated inclusion) (inclusion.name, inclusion.id) child fields
  | counted {inclusion child items fields} {m : Nat}
      (found : registry.get? inclusion.name = some child)
      (array : props.lookup inclusion.id = some (.array items))
      (item : items[m]? = some (.object fields)) (free : fields.lookup "i" = none) :
      Enters registry props (.repeated inclusion) (inclusion.name, inclusion.id) child
        (("i", .nat m) :: fields)

/-- The inclusions of a chain, entered one below the other. -/
inductive InclusionChain (registry : Registry) :
    Component → Json.Fields → List (String × String) → Component → Json.Fields → Prop
  | nil {component props} : InclusionChain registry component props [] component props
  | cons {component props token frame child entered frames last lastProps}
      (mem : token ∈ component.tokens) (enters : Enters registry props token frame child entered)
      (tail : InclusionChain registry child entered frames last lastProps) :
      InclusionChain registry component props (frame :: frames) last lastProps

/-- What an error that is not wrapped says of the token, the props and the depth where it arose. -/
def FaultAt (registry : Registry) (depth : Nat) (props : Json.Fields) (token : Token) :
    RenderError → Prop
  | .missingProp name => name ∈ token.references ∧ props.lookup name = none
  | .typeMismatch name type =>
      token = .prop name type ∧ ∃ v, props.lookup name = some v ∧ type.admits v = false
  | .unknownComponent name =>
      (∃ inclusion, token.inclusion? = some inclusion ∧ inclusion.name = name) ∧
        registry.get? name = none
  | .invalidArrayProp id =>
      (∃ inclusion, token = .repeated inclusion ∧ inclusion.id = id) ∧
        ∀ items, props.lookup id = some (.array items) →
          ∃ v ∈ items, ∀ fields, v ≠ .object fields
  | .depthExceeded name limit =>
      (∃ inclusion, token.inclusion? = some inclusion ∧ inclusion.name = name) ∧
        (registry.get? name).isSome ∧ limit = registry.maxDepth ∧ depth = registry.maxDepth
  | .nested _ _ _ => False

/-- An error is true of a component if it is true of one of its tokens. -/
def Fault (registry : Registry) (depth : Nat) (component : Component) (props : Json.Fields)
    (e : RenderError) : Prop :=
  ∃ token ∈ component.tokens, FaultAt registry depth props token e

theorem FaultAt.not_nested {registry : Registry} {depth : Nat} {props : Json.Fields}
    {token : Token} {e : RenderError} (h : FaultAt registry depth props token e) :
    ∀ name id cause, e ≠ .nested name id cause := by
  rintro name id cause rfl
  exact h

theorem FaultAt.chain_eq_nil {registry : Registry} {depth : Nat} {props : Json.Fields}
    {token : Token} {e : RenderError} (h : FaultAt registry depth props token e) :
    e.chain = [] := by
  cases e <;> first | rfl | exact h.elim

theorem FaultAt.rootCause_eq {registry : Registry} {depth : Nat} {props : Json.Fields}
    {token : Token} {e : RenderError} (h : FaultAt registry depth props token e) :
    e.rootCause = e := by
  cases e <;> first | rfl | exact h.elim

namespace Render

variable {registry : Registry} {props : Json.Fields} {forwarded : Attributes}

theorem enters_singleProps {inclusion : Inclusion} {child : Component}
    (found : registry.get? inclusion.name = some child) :
    Enters registry props (.single inclusion) (inclusion.name, inclusion.id) child
      (singleProps props inclusion.id) := by
  unfold singleProps
  split
  case h_1 fields given => exact .object found given
  case h_2 noObject => exact .bare found noObject

theorem enters_indexed {inclusion : Inclusion} {child : Component} {objects : List Json.Fields}
    {fields : Json.Fields} {m : Nat} (found : registry.get? inclusion.name = some child)
    (array : props.lookup inclusion.id = some (.array (objects.map .object)))
    (item : objects[m]? = some fields) :
    Enters registry props (.repeated inclusion) (inclusion.name, inclusion.id) child
      (indexed fields m) := by
  have hitem : (objects.map Json.object)[m]? = some (.object fields) := by
    rw [List.getElem?_map, item]
    rfl
  unfold indexed
  split
  case isTrue own => exact .element found array hitem own
  case isFalse free => exact .counted found array hitem (Option.not_isSome_iff_eq_none.1 free)

/-- An inclusion that is found is rendered with one level less. -/
theorem resolve_below?_eq_ok {levels : Nat} {name : String} {child : Included}
    (h : resolve registry (below? registry levels) name = .ok child) :
    ∃ n component, levels = n + 1 ∧ registry.get? name = some component ∧
      child = within registry n component := by
  obtain ⟨component, render, found, hbelow, rfl⟩ := resolve_eq_ok h
  cases levels with
  | zero => cases hbelow
  | succ n => cases hbelow; exact ⟨n, component, rfl, found, rfl⟩

theorem faultAt_of_resolve {levels depth : Nat} {token : Token} {inclusion : Inclusion}
    {e : RenderError} (hdepth : depth + levels = registry.maxDepth)
    (htoken : token.inclusion? = some inclusion)
    (h : resolve registry (below? registry levels) inclusion.name = .error e) :
    FaultAt registry depth props token e := by
  obtain ⟨hnone, rfl⟩ | ⟨hsome, hbelow, rfl⟩ := resolve_eq_error h
  · exact ⟨⟨inclusion, htoken, rfl⟩, hnone⟩
  · cases levels with
    | zero => exact ⟨⟨inclusion, htoken, rfl⟩, hsome, rfl, hdepth⟩
    | succ n => cases hbelow

/-- An error at a token is a fault of the token, or the wrapped error of the component entered. -/
theorem tokenText_eq_error {levels depth : Nat} {token : Token} {e : RenderError}
    (hdepth : depth + levels = registry.maxDepth)
    (h : tokenText registry (below? registry levels) props forwarded token = .error e) :
    FaultAt registry depth props token e ∨
    ∃ n frame child entered attributes cause, levels = n + 1 ∧
      Enters registry props token frame child entered ∧
      within registry n child entered attributes = .error cause ∧
      e = .nested frame.1 frame.2 cause := by
  cases token with
  | literal text => cases h
  | prop name type =>
      left
      obtain hlookup | ⟨v, hv, h⟩ := bind_eq_error.1 h
      · obtain ⟨hnone, rfl⟩ := lookupProp_eq_error.1 hlookup
        exact ⟨List.mem_singleton_self _, hnone⟩
      · split at h
        · cases h
        · rename_i hadmits
          cases h
          exact ⟨rfl, v, lookupProp_eq_ok.1 hv, by simpa using hadmits⟩
  | «attribute» name =>
      left
      obtain hlookup | ⟨_, _, h⟩ := bind_eq_error.1 h
      · obtain ⟨hnone, rfl⟩ := lookupProp_eq_error.1 hlookup
        exact ⟨List.mem_singleton_self _, hnone⟩
      · cases h
  | forwarded => cases h
  | single inclusion =>
      obtain hresolve | ⟨child, hchild, h⟩ := bind_eq_error.1 h
      · exact .inl (faultAt_of_resolve hdepth rfl hresolve)
      obtain hargs | ⟨attributes, _, h⟩ := bind_eq_error.1 h
      · obtain ⟨x, hx, hnone, rfl⟩ := Argument.applyAll_eq_error hargs
        exact .inl ⟨hx, hnone⟩
      obtain ⟨n, component, hlevels, found, rfl⟩ := resolve_below?_eq_ok hchild
      obtain ⟨cause, hcause, rfl⟩ := inclusionText_eq_error h
      exact .inr ⟨n, _, component, _, attributes, cause, hlevels, enters_singleProps found,
        hcause, rfl⟩
  | repeated inclusion =>
      obtain hresolve | ⟨child, hchild, h⟩ := bind_eq_error.1 h
      · exact .inl (faultAt_of_resolve hdepth rfl hresolve)
      obtain helements | ⟨objects, hobjects, h⟩ := bind_eq_error.1 h
      · obtain ⟨hnone, rfl⟩ := elements_eq_error helements
        exact .inl ⟨⟨inclusion, rfl, rfl⟩, hnone⟩
      obtain hargs | ⟨attributes, _, h⟩ := bind_eq_error.1 h
      · obtain ⟨x, hx, hnone, rfl⟩ := Argument.applyAll_eq_error hargs
        exact .inl ⟨hx, hnone⟩
      obtain htexts | ⟨_, _, h⟩ := bind_eq_error.1 h
      · obtain ⟨n, component, hlevels, found, rfl⟩ := resolve_below?_eq_ok hchild
        obtain ⟨m, fields, cause, hm, hcause, rfl⟩ := elementTexts_eq_error htexts
        rw [Nat.zero_add] at hcause
        exact .inr ⟨n, _, component, _, attributes, cause, hlevels,
          enters_indexed found (elements_eq_ok.1 hobjects) hm, hcause, rfl⟩
      · cases h

/-- With `levels` left, an error has at most that many frames, and its chain leads to the fault. -/
theorem within_eq_error {levels depth : Nat} {component : Component} {e : RenderError}
    (hdepth : depth + levels = registry.maxDepth)
    (h : within registry levels component props forwarded = .error e) :
    e.chain.length ≤ levels ∧ ∃ last lastProps,
      InclusionChain registry component props e.chain last lastProps ∧
      Fault registry (depth + e.chain.length) last lastProps e.rootCause := by
  -- on the levels: what is included is rendered with one level less, one step deeper
  induction levels generalizing depth component props forwarded e with
  | zero =>
      rw [within_eq] at h
      obtain ⟨token, hmem, h⟩ := tokensText_eq_error h
      obtain hfault | ⟨n, _, _, _, _, _, hlevels, _⟩ := tokenText_eq_error hdepth h
      · rw [hfault.chain_eq_nil, hfault.rootCause_eq]
        exact ⟨Nat.le_refl 0, component, props, .nil, token, hmem, hfault⟩
      · cases hlevels
  | succ levels ih =>
      rw [within_eq] at h
      obtain ⟨token, hmem, h⟩ := tokensText_eq_error h
      obtain hfault |
        ⟨n, frame, child, entered, attributes, cause, hlevels, henters, hcause, rfl⟩ :=
          tokenText_eq_error hdepth h
      · rw [hfault.chain_eq_nil, hfault.rootCause_eq]
        exact ⟨Nat.zero_le _, component, props, .nil, token, hmem, hfault⟩
      · cases hlevels
        have hbelow : depth + 1 + levels = registry.maxDepth := by omega
        obtain ⟨hlength, last, lastProps, hchain, hfault⟩ := ih hbelow hcause
        refine ⟨Nat.succ_le_succ hlength, last, lastProps, .cons hmem henters hchain, ?_⟩
        rw [RenderError.chain, List.length_cons, Nat.add_comm _ 1, ← Nat.add_assoc]
        exact hfault

end Render

/-- Whatever error a rendering ends with, its chain is one of inclusions within the limit, and its
root cause holds where the chain ends. -/
theorem Registry.render_error_truthful {registry : Registry} {component : Component}
    {props : Json.Fields} {forwarded : Attributes} {e : RenderError}
    (h : registry.render component props forwarded = .error e) :
    e.chain.length ≤ registry.maxDepth ∧
      (∀ name id cause, e.rootCause ≠ .nested name id cause) ∧
      ∃ last lastProps, InclusionChain registry component props e.chain last lastProps ∧
        Fault registry e.chain.length last lastProps e.rootCause := by
  obtain ⟨hlength, last, lastProps, hchain, hfault⟩ :=
    Render.within_eq_error (Nat.zero_add registry.maxDepth) h
  rw [Nat.zero_add] at hfault
  have ⟨_, _, hat⟩ := hfault
  exact ⟨hlength, hat.not_nested, last, lastProps, hchain, hfault⟩

theorem Registry.render_error_truthful_row :
    (Registry.empty.register "row" "$\x7btitle:string\x7d").render
        (.ofSource "<ez-for name=\"row\" id=\"rows\" />")
        [("rows", .array [.object [("title", .nat 5)]])] .empty =
      .error (.nested "row" "rows" (.typeMismatch "title" .string)) ∧
    ∃ last lastProps,
      InclusionChain (Registry.empty.register "row" "$\x7btitle:string\x7d")
        (.ofSource "<ez-for name=\"row\" id=\"rows\" />")
        [("rows", .array [.object [("title", .nat 5)]])] [("row", "rows")] last lastProps ∧
      Fault (Registry.empty.register "row" "$\x7btitle:string\x7d") 1 last lastProps
        (.typeMismatch "title" .string) := by
  have h : (Registry.empty.register "row" "$\x7btitle:string\x7d").render
      (.ofSource "<ez-for name=\"row\" id=\"rows\" />")
      [("rows", .array [.object [("title", .nat 5)]])] .empty =
        .error (.nested "row" "rows" (.typeMismatch "title" .string)) := by cbv
  exact ⟨h, (Registry.render_error_truthful h).2.2⟩

end Stencil
