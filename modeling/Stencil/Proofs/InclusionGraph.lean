import Mathlib
import Stencil.Proofs.Faults

/-!
# The graph of inclusions

Registered components with their inclusions of each other are a graph over names. An error of a
rendering leads along its edges, so every component that a rendering reaches from a registered one
is registered itself.
-/

namespace Stencil

theorem Dependency.ofToken?_eq_some {token : Token} {d : Dependency}
    (h : ofToken? token = some d) :
    ∃ inclusion, token.inclusion? = some inclusion ∧ inclusion.name = d.name ∧
      (d.repeated = false → token = .single inclusion) := by
  cases token <;> cases h
  · exact ⟨_, rfl, rfl, fun _ => rfl⟩
  · exact ⟨_, rfl, rfl, nofun⟩

theorem Component.exists_dependency {c : Component} {token : Token} (mem : token ∈ c.tokens)
    {inclusion : Inclusion} (h : token.inclusion? = some inclusion) :
    ∃ d ∈ c.dependencies, d.name = inclusion.name := by
  have found : ∃ d, Dependency.ofToken? token = some d ∧ d.name = inclusion.name := by
    cases token <;> cases h <;> exact ⟨_, rfl, rfl⟩
  obtain ⟨d, hd, hname⟩ := found
  exact ⟨d, List.mem_filterMap.2 ⟨token, mem, hd⟩, hname⟩

namespace Registry

/-- An inclusion in a registered component, of a component that is registered as well. -/
def Edge (registry : Registry) (name : String) (d : Dependency) : Prop :=
  (∃ component, registry.get? name = some component ∧ d ∈ component.dependencies) ∧
    (registry.get? d.name).isSome

def Includes (registry : Registry) (name included : String) : Prop :=
  ∃ d, registry.Edge name d ∧ d.name = included

/-- An inclusion that is not repeated. -/
def IncludesOnce (registry : Registry) (name included : String) : Prop :=
  ∃ d, registry.Edge name d ∧ d.repeated = false ∧ d.name = included

end Registry

variable {registry : Registry} {props entered : Json.Fields} {token : Token}
variable {frame : String × String} {component child : Component}

theorem Enters.found (h : Enters registry props token frame child entered) :
    registry.get? frame.1 = some child := by
  cases h <;> assumption

theorem Enters.inclusion (h : Enters registry props token frame child entered) :
    ∃ inclusion, token.inclusion? = some inclusion ∧ inclusion.name = frame.1 := by
  cases h <;> exact ⟨_, rfl, rfl⟩

theorem Enters.includes {name : String} (found : registry.get? name = some component)
    (mem : token ∈ component.tokens) (h : Enters registry props token frame child entered) :
    registry.Includes name frame.1 := by
  obtain ⟨inclusion, hinclusion, hname⟩ := h.inclusion
  obtain ⟨d, hd, hdname⟩ := Component.exists_dependency mem hinclusion
  rw [← hname]
  refine ⟨d, ⟨⟨component, found, hd⟩, ?_⟩, hdname⟩
  rw [hdname, hname, h.found]
  rfl

namespace InclusionChain

variable {frames : List (String × String)} {last : Component} {lastProps : Json.Fields}

/-- Where a chain from a registered component ends, another registered one stands, and the names on
the way are joined by inclusions. -/
theorem includes (chain : InclusionChain registry component props frames last lastProps)
    {name : String} (found : registry.get? name = some component) :
    ∃ lastName, registry.get? lastName = some last ∧
      ∀ next, registry.Includes lastName next →
        List.IsChain registry.Includes (name :: (frames.map (·.1) ++ [next])) := by
  induction chain generalizing name with
  | nil =>
      refine ⟨name, found, ?_⟩
      intro next hnext
      exact .cons_cons hnext (.singleton next)
  | @cons component props token frame child entered frames last lastProps mem enters tail ih =>
      obtain ⟨lastName, hlast, hchain⟩ := ih enters.found
      refine ⟨lastName, hlast, ?_⟩
      intro next hnext
      exact .cons_cons (enters.includes found mem) (hchain next hnext)

end InclusionChain

end Stencil
