import Stencil.Proofs.InclusionGraph
import Stencil.Registry.Report

/-!
# What unresolved inclusions tell of renderings

With no unresolved inclusion no rendering meets an unknown component. A component that leads by
inclusions without repetition to an unresolved one, or into a cycle, is never rendered: every such
inclusion is entered, with one level less each time, and the levels are finite.
-/

namespace Stencil

namespace Render

variable {registry : Registry} {below : Option Renderer} {props : Json.Fields}
variable {forwarded : Attributes} {text : String}

theorem inclusionText_eq_ok {inclusion : Inclusion} {child : Included} :
    inclusionText inclusion child props forwarded = .ok text ↔
      child props forwarded = .ok text := by
  unfold inclusionText
  cases child props forwarded <;> simp [Except.mapError]

/-- The component of an inclusion is found before anything else of it is looked at. -/
theorem registered_of_tokenText {token : Token}
    (h : tokenText registry below props forwarded token = .ok text) {inclusion : Inclusion}
    (htoken : token.inclusion? = some inclusion) : (registry.get? inclusion.name).isSome := by
  have found : ∃ child, resolve registry below inclusion.name = .ok child := by
    cases token <;> cases htoken
    case single =>
      obtain ⟨child, hchild, _⟩ := bind_eq_ok.1 h
      exact ⟨child, hchild⟩
    case repeated =>
      obtain ⟨child, hchild, _⟩ := bind_eq_ok.1 h
      exact ⟨child, hchild⟩
  obtain ⟨child, hchild⟩ := found
  obtain ⟨component, _, hcomponent, _, _⟩ := resolve_eq_ok hchild
  rw [hcomponent]
  rfl

/-- An inclusion without repetition is rendered with one level less. -/
theorem within_of_single {levels : Nat} {inclusion : Inclusion}
    (h : tokenText registry (below? registry levels) props forwarded (.single inclusion) =
      .ok text) :
    ∃ n component entered attributes, levels = n + 1 ∧
      registry.get? inclusion.name = some component ∧
      within registry n component entered attributes = .ok text := by
  obtain ⟨child, hchild, h⟩ := bind_eq_ok.1 h
  obtain ⟨attributes, _, h⟩ := bind_eq_ok.1 h
  obtain ⟨n, component, hlevels, found, rfl⟩ := resolve_below?_eq_ok hchild
  exact ⟨n, component, _, attributes, hlevels, found, inclusionText_eq_ok.1 h⟩

end Render

namespace Registry

variable {registry : Registry} {levels : Nat} {name included : String}

/-- The component of a name is rendered with some number of levels left, for some props and
attributes. -/
def CanRender (registry : Registry) (levels : Nat) (name : String) : Prop :=
  ∃ component, registry.get? name = some component ∧
    ∃ props forwarded text, Render.within registry levels component props forwarded = .ok text

/-- A component that is rendered has all its tokens rendered. -/
theorem CanRender.tokenText (h : registry.CanRender levels name) {component : Component}
    (found : registry.get? name = some component) {token : Token}
    (mem : token ∈ component.tokens) :
    ∃ props forwarded text,
      Render.tokenText registry (Render.below? registry levels) props forwarded token =
        .ok text := by
  obtain ⟨other, hother, props, forwarded, text, hrender⟩ := h
  rw [found] at hother
  cases hother
  rw [Render.within_eq] at hrender
  obtain ⟨part, hpart⟩ := Render.tokensText_eq_ok hrender token mem
  exact ⟨props, forwarded, part, hpart⟩

theorem mem_unresolved {d : Dependency} : (name, d) ∈ registry.unresolved ↔
    (∃ component, registry.get? name = some component ∧ d ∈ component.dependencies) ∧
      registry.get? d.name = none := by
  have hnone : (!registry.contains d.name) = true ↔ registry.get? d.name = none := by
    change (!(registry.get? d.name).isSome) = true ↔ _
    cases registry.get? d.name <;> simp
  have hsome (component : Component) :
      registry.get? name = some component ↔ (name, component) ∈ registry.components.entries :=
    Dictionary.get?_eq_some_iff
  rw [unresolved, List.mem_flatMap]
  constructor
  · rintro ⟨⟨key, component⟩, hmem, h⟩
    obtain ⟨dependency, hdependency, heq⟩ := List.mem_map.1 h
    cases heq
    obtain ⟨hd, hmissing⟩ := List.mem_filter.1 hdependency
    exact ⟨⟨component, (hsome component).2 hmem, hd⟩, hnone.1 hmissing⟩
  · rintro ⟨⟨component, found, hd⟩, hmissing⟩
    refine ⟨(name, component), (hsome component).1 found, ?_⟩
    apply List.mem_map_of_mem
    exact List.mem_filter.2 ⟨hd, hnone.2 hmissing⟩

theorem not_canRender_of_unresolved {d : Dependency} (h : (name, d) ∈ registry.unresolved)
    (levels : Nat) : ¬ registry.CanRender levels name := by
  intro hrender
  obtain ⟨⟨component, found, hd⟩, hmissing⟩ := mem_unresolved.1 h
  obtain ⟨token, mem, htoken⟩ := List.mem_filterMap.1 hd
  obtain ⟨inclusion, hinclusion, hname, _⟩ := Dependency.ofToken?_eq_some htoken
  obtain ⟨props, forwarded, text, htext⟩ := hrender.tokenText found mem
  have hsome := Render.registered_of_tokenText htext hinclusion
  rw [hname, hmissing] at hsome
  cases hsome

/-- An inclusion without repetition takes a level. -/
theorem CanRender.step (h : registry.CanRender levels name)
    (edge : registry.IncludesOnce name included) :
    ∃ n < levels, registry.CanRender n included := by
  obtain ⟨d, ⟨⟨component, found, hd⟩, _⟩, honce, rfl⟩ := edge
  obtain ⟨token, mem, htoken⟩ := List.mem_filterMap.1 hd
  obtain ⟨inclusion, _, hname, hsingle⟩ := Dependency.ofToken?_eq_some htoken
  obtain ⟨props, forwarded, text, htext⟩ := h.tokenText found mem
  rw [hsingle honce] at htext
  obtain ⟨n, child, entered, attributes, rfl, hchild, hwithin⟩ := Render.within_of_single htext
  refine ⟨n, Nat.lt_succ_self n, child, ?_, entered, attributes, text, hwithin⟩
  rw [← hname]
  exact hchild

theorem CanRender.path (h : registry.CanRender levels name)
    (path : Relation.ReflTransGen registry.IncludesOnce name included) :
    ∃ n, registry.CanRender n included := by
  induction path with
  | refl => exact ⟨levels, h⟩
  | tail _ edge ih =>
      obtain ⟨n, hn⟩ := ih
      obtain ⟨m, _, hm⟩ := hn.step edge
      exact ⟨m, hm⟩

theorem CanRender.descend (h : registry.CanRender levels name)
    (path : Relation.TransGen registry.IncludesOnce name included) :
    ∃ n < levels, registry.CanRender n included := by
  induction path with
  | single edge => exact h.step edge
  | tail _ edge ih =>
      obtain ⟨n, hn, hrender⟩ := ih
      obtain ⟨m, hm, hrender⟩ := hrender.step edge
      exact ⟨m, hm.trans hn, hrender⟩

/-- On a cycle a number of levels that suffices would leave a smaller one that does. -/
theorem not_canRender_of_cycle (cycle : Relation.TransGen registry.IncludesOnce name name)
    (levels : Nat) : ¬ registry.CanRender levels name := by
  induction levels using Nat.strongRecOn with
  | ind levels ih =>
      intro h
      obtain ⟨n, hn, hrender⟩ := h.descend cycle
      exact ih n hn hrender

/-- Without unresolved inclusions the components at the end of a chain have none that is missing. -/
theorem rootCause_ne_unknownComponent {component : Component} {props : Json.Fields}
    {forwarded : Attributes} {e : RenderError} (resolved : registry.unresolved = [])
    (found : registry.get? name = some component)
    (h : registry.render component props forwarded = .error e) (missing : String) :
    e.rootCause ≠ .unknownComponent missing := by
  intro hcause
  obtain ⟨_, last, lastProps, hchain, hfault⟩ :=
    Render.within_eq_error (Nat.zero_add registry.maxDepth) h
  obtain ⟨lastName, hlast, _⟩ := hchain.includes found
  rw [hcause] at hfault
  obtain ⟨token, mem, ⟨inclusion, hinclusion, hname⟩, hmissing⟩ := hfault
  obtain ⟨d, hd, hdname⟩ := Component.exists_dependency mem hinclusion
  have hunresolved : (lastName, d) ∈ registry.unresolved := by
    apply mem_unresolved.2
    rw [hdname, hname]
    exact ⟨⟨last, hlast, hd⟩, hmissing⟩
  rw [resolved] at hunresolved
  cases hunresolved

/-- Where the report names no unresolved inclusion, no rendering fails for an unknown component.
What leads by inclusions without repetition to an unresolved inclusion or into a cycle is not
rendered for any props and attributes, and under no limit. -/
theorem unresolved_predicts_render (registry : Registry) {name : String} {component : Component}
    (found : registry.get? name = some component) :
    (registry.unresolved = [] → ∀ props forwarded e,
      registry.render component props forwarded = .error e →
        ∀ missing, e.rootCause ≠ .unknownComponent missing) ∧
    (∀ target, Relation.ReflTransGen registry.IncludesOnce name target →
      ((∃ d, (target, d) ∈ registry.unresolved) ∨
        Relation.TransGen registry.IncludesOnce target target) →
      ∀ props forwarded limit,
        ∃ e, (registry.withMaxDepth limit).render component props forwarded = .error e) := by
  constructor
  · intro resolved props forwarded e h
    exact rootCause_ne_unknownComponent resolved found h
  · intro target path hopeless props forwarded limit
    cases hrender : (registry.withMaxDepth limit).render component props forwarded with
    | error e => exact ⟨e, rfl⟩
    | ok text =>
        exfalso
        have hcan : (registry.withMaxDepth limit).CanRender limit name :=
          ⟨component, found, props, forwarded, text, hrender⟩
        obtain ⟨n, htarget⟩ := hcan.path path
        -- neither the report nor the graph depends on the limit
        obtain ⟨d, hd⟩ | cycle := hopeless
        · have hd : (target, d) ∈ (registry.withMaxDepth limit).unresolved := hd
          exact not_canRender_of_unresolved hd n htarget
        · have cycle : Relation.TransGen (registry.withMaxDepth limit).IncludesOnce
              target target := cycle
          exact not_canRender_of_cycle cycle n htarget

/-- A page that includes a component which includes itself. -/
def looping : Registry :=
  (empty.register "loop" "<ez name=\"loop\" id=\"a\" />").register "page"
    "<ez name=\"loop\" id=\"b\" />"

/-- A rendering into a loop fails under any limit, though no component is unknown. -/
theorem unresolved_predicts_render_looping :
    (∃ e, looping.render (.ofSource "<ez name=\"loop\" id=\"b\" />") [] .empty = .error e ∧
      e.rootCause ≠ .unknownComponent "loop") ∧
    ∃ e, (looping.withMaxDepth 1000000).render (.ofSource "<ez name=\"loop\" id=\"b\" />")
      [("b", .object [])] .empty = .error e := by
  have page : looping.get? "page" = some (.ofSource "<ez name=\"loop\" id=\"b\" />") := rfl
  have loop : looping.get? "loop" = some (.ofSource "<ez name=\"loop\" id=\"a\" />") := rfl
  have resolved : looping.unresolved = [] := by cbv
  have pageDependencies : (Component.ofSource "<ez name=\"loop\" id=\"b\" />").dependencies =
      [⟨"loop", "b", false⟩] := by cbv
  have loopDependencies : (Component.ofSource "<ez name=\"loop\" id=\"a\" />").dependencies =
      [⟨"loop", "a", false⟩] := by cbv
  have entry : looping.IncludesOnce "page" "loop" := by
    refine ⟨⟨"loop", "b", false⟩, ⟨⟨_, page, ?_⟩, rfl⟩, rfl, rfl⟩
    rw [pageDependencies]
    exact List.mem_singleton_self _
  have cycle : looping.IncludesOnce "loop" "loop" := by
    refine ⟨⟨"loop", "a", false⟩, ⟨⟨_, loop, ?_⟩, rfl⟩, rfl, rfl⟩
    rw [loopDependencies]
    exact List.mem_singleton_self _
  obtain ⟨known, hopeless⟩ := looping.unresolved_predicts_render page
  have fails := hopeless "loop" (.single entry) (.inr (.single cycle))
  constructor
  · obtain ⟨e, h⟩ := fails [] .empty looping.maxDepth
    exact ⟨e, h, known resolved [] .empty e h "loop"⟩
  · exact fails [("b", .object [])] .empty 1000000

end Registry

end Stencil
