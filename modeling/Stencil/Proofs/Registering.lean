import Stencil.Proofs.Comparison
import Stencil.Proofs.InclusionGraph

/-!
# What registering a component changes

A rendering sees the components that inclusions lead to from the rendered one, and no others. To
register a component that is out of its sight changes nothing, and one under a new name can only
help a rendering that failed for want of it.
-/

namespace Stencil

namespace Registry

/-- A registered component includes the component of another name, which may be missing. -/
def DependsOn (registry : Registry) (name dependency : String) : Prop :=
  ∃ component, registry.get? name = some component ∧
    ∃ d ∈ component.dependencies, d.name = dependency

variable {registry : Registry} {name root source : String} {component : Component}

theorem get?_register (registry : Registry) (name source key : String) :
    (registry.register name source).get? key =
      if key = name then some (.ofSource source) else registry.get? key :=
  Dictionary.get?_insert _ _ _ _

theorem get?_register_of_ne {key : String} (h : key ≠ name) :
    (registry.register name source).get? key = registry.get? key := by
  rw [get?_register, if_neg h]

theorem dependsOn_of_inclusion (found : registry.get? root = some component) {token : Token}
    (mem : token ∈ component.tokens) {inclusion : Inclusion}
    (htoken : token.inclusion? = some inclusion) : registry.DependsOn root inclusion.name := by
  obtain ⟨d, hd, hname⟩ := Component.exists_dependency mem htoken
  exact ⟨component, found, d, hd, hname⟩

end Registry

namespace Render

variable {registry other : Registry} {name source : String} {excepted : RenderError → Prop}

/-- With the same levels left and the same limit, two registries agree behind a name that both know
alike if they agree one level below. -/
theorem resolve_below?_agree {levels : Nat} (same : other.get? name = registry.get? name)
    (limit : other.maxDepth = registry.maxDepth)
    (entered : ∀ n < levels, ∀ component, registry.get? name = some component →
      Included.AgreeUnless excepted (within registry n component) (within other n component)) :
    AgreeUnless excepted (Included.AgreeUnless excepted)
      (resolve registry (below? registry levels) name)
      (resolve other (below? other levels) name) := by
  cases levels with
  | zero =>
      apply resolve_agree same
      · intro _
        exact .inr ⟨rfl, limit⟩
      · intro render h
        cases h
  | succ n =>
      apply resolve_agree same
      · intro h
        cases h
      · intro render h
        cases h
        exact ⟨_, rfl, entered n (Nat.lt_succ_self n)⟩

/-- Renderings agree before and after a component is registered, as long as nothing that they come
to includes that component, or else it was missing and the error for that is excepted. -/
theorem within_register_agree (visited : String → Prop)
    (descends : ∀ n m, visited n → registry.DependsOn n m → visited m)
    (unseen : ∀ n, visited n → registry.DependsOn n name →
      registry.get? name = none ∧ excepted (.unknownComponent name))
    {levels : Nat} {root : String} {component : Component} {props : Json.Fields}
    {forwarded : Attributes} (start : visited root)
    (found : registry.get? root = some component) :
    AgreeUnless excepted (· = ·) (within registry levels component props forwarded)
      (within (registry.register name source) levels component props forwarded) := by
  -- on the levels: what is included is rendered with one level less, and is visited as well
  induction levels using Nat.strongRecOn generalizing root component props forwarded with
  | ind levels ih =>
      rw [within_eq, within_eq]
      apply tokensText_agree
      intro token mem inclusion htoken
      have hdepends := Registry.dependsOn_of_inclusion found mem htoken
      by_cases hname : inclusion.name = name
      · obtain ⟨hnone, hexcepted⟩ := unseen root start (hname ▸ hdepends)
        rw [hname, resolve_of_unknown hnone]
        exact .excepted hexcepted
      · apply resolve_below?_agree (Registry.get?_register_of_ne hname) rfl
        intro n hn child hchild props attributes
        exact ih n hn (descends root inclusion.name start hdepends) hchild

end Render

namespace Registry

variable {registry : Registry} {root name : String} {component : Component}

/-- A component that is registered anew leaves every rendering of another one alone that does not
lead to it by inclusions. If there was none under its name, it changes no rendering but those that
failed because it was missing, and none that succeeded. -/
theorem render_register_frame (source : String) (found : registry.get? root = some component)
    (hne : root ≠ name) :
    (registry.register name source).get? root = some component ∧
    ∀ props forwarded,
      (¬ Relation.ReflTransGen registry.DependsOn root name →
        (registry.register name source).render component props forwarded =
          registry.render component props forwarded) ∧
      (registry.get? name = none →
        ((registry.register name source).render component props forwarded =
            registry.render component props forwarded ∨
          ∃ e, registry.render component props forwarded = .error e ∧
            e.rootCause = .unknownComponent name) ∧
        ∀ text, registry.render component props forwarded = .ok text →
          (registry.register name source).render component props forwarded = .ok text) := by
  refine ⟨(get?_register_of_ne hne).trans found, ?_⟩
  intro props forwarded
  constructor
  · intro unreachable
    have hagree : AgreeUnless (fun _ => False) (· = ·)
        (registry.render component props forwarded)
        ((registry.register name source).render component props forwarded) := by
      apply Render.within_register_agree
        (fun n => ¬ Relation.ReflTransGen registry.DependsOn n name) _ _ unreachable found
      · intro n m hn hdepends hm
        exact hn (.head hdepends hm)
      · intro n hn hdepends
        exact absurd (.single hdepends) hn
    exact (hagree.eq fun _ _ h => h).symm
  · intro missing
    have hagree : AgreeUnless (· = .unknownComponent name) (· = ·)
        (registry.render component props forwarded)
        ((registry.register name source).render component props forwarded) := by
      apply Render.within_register_agree (fun _ => True) _ _ trivial found
      · intro n m _ _
        trivial
      · intro n _ _
        exact ⟨missing, rfl⟩
    obtain heq | ⟨e, he, hcause⟩ := hagree.eq_or_excepted
    · refine ⟨.inl heq, ?_⟩
      intro text htext
      rw [heq, htext]
    · refine ⟨.inr ⟨e, he, hcause⟩, ?_⟩
      intro text htext
      rw [he] at htext
      cases htext

/-- A page that includes a header, and a footer that nothing includes. -/
def site : Registry :=
  ((empty.register "header" "<h1>$\x7bt\x7d</h1>").register "footer" "<hr>").register "page"
    "<ez name=\"header\" id=\"h\" />"

theorem site_reaches {name : String} (h : Relation.ReflTransGen site.DependsOn "page" name) :
    name = "page" ∨ name = "header" := by
  have page : site.get? "page" = some (.ofSource "<ez name=\"header\" id=\"h\" />") := rfl
  have header : site.get? "header" = some (.ofSource "<h1>$\x7bt\x7d</h1>") := rfl
  have pageDependencies : (Component.ofSource "<ez name=\"header\" id=\"h\" />").dependencies =
      [⟨"header", "h", false⟩] := by cbv
  have headerDependencies : (Component.ofSource "<h1>$\x7bt\x7d</h1>").dependencies = [] := by cbv
  induction h with
  | refl => exact .inl rfl
  | tail _ hdepends ih =>
      obtain ⟨component, found, d, hd, rfl⟩ := hdepends
      obtain rfl | rfl := ih
      · rw [page] at found
        cases found
        rw [pageDependencies, List.mem_singleton] at hd
        rw [hd]
        exact .inr rfl
      · rw [header] at found
        cases found
        rw [headerDependencies] at hd
        cases hd

/-- Another footer, which the page does not include, and a component that was missing leave the page
as it was. -/
theorem render_register_frame_site :
    (site.register "footer" "<ez name=\"page\" id=\"p\" />").render
        (.ofSource "<ez name=\"header\" id=\"h\" />") [("h", .object [("t", .string "a")])] .empty =
      .ok "<h1>a</h1>" ∧
    (site.register "sidebar" "$\x7bx\x7d").render (.ofSource "<ez name=\"header\" id=\"h\" />")
        [("h", .object [("t", .string "a")])] .empty = .ok "<h1>a</h1>" := by
  have page : site.get? "page" = some (.ofSource "<ez name=\"header\" id=\"h\" />") := rfl
  have hrender : site.render (.ofSource "<ez name=\"header\" id=\"h\" />")
      [("h", .object [("t", .string "a")])] .empty = .ok "<h1>a</h1>" := by cbv
  have unreachable : ¬ Relation.ReflTransGen site.DependsOn "page" "footer" := by
    intro h
    obtain h | h := site_reaches h <;> exact absurd h (by decide)
  constructor
  · obtain ⟨_, frame⟩ := @render_register_frame site "page" "footer" _
      "<ez name=\"page\" id=\"p\" />" page (by decide)
    exact ((frame _ _).1 unreachable).trans hrender
  · obtain ⟨_, frame⟩ := @render_register_frame site "page" "sidebar" _ "$\x7bx\x7d" page
      (by decide)
    exact ((frame _ _).2 rfl).2 _ hrender

end Registry

end Stencil
