import Stencil.Component

/-!
# Registries

A registry keeps components under their names and limits how deep inclusions may go. It is a
dictionary, so neither the order of registrations nor a component that was replaced leaves a trace.
-/

namespace Stencil

structure Registry where
  components : Dictionary Component
  maxDepth : Nat

namespace Registry

/-- The limit of a registry that sets none. -/
def defaultMaxDepth : Nat := 64

def empty : Registry := ⟨.empty, defaultMaxDepth⟩

def withMaxDepth (registry : Registry) (maxDepth : Nat) : Registry :=
  { registry with maxDepth := maxDepth }

/-- Keep a source under a name, in place of what was there. -/
def register (registry : Registry) (name source : String) : Registry :=
  { registry with components := registry.components.insert name (.ofSource source) }

def registerAll (registry : Registry) (sources : List (String × String)) : Registry :=
  sources.foldl (fun registry e => registry.register e.1 e.2) registry

def get? (registry : Registry) (name : String) : Option Component := registry.components.get? name

def contains (registry : Registry) (name : String) : Bool := registry.components.contains name

def names (registry : Registry) : List String := registry.components.keys

def size (registry : Registry) : Nat := registry.components.size

def isEmpty (registry : Registry) : Bool := registry.components.isEmpty

end Registry

end Stencil
