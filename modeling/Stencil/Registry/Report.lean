import Stencil.Json.Text
import Stencil.Registry.Basic

/-!
# Reports on registries

What is worth knowing about a registry before anything is rendered: the constructs that were given
up, the inclusions that lead nowhere, and a fingerprint of all names and sources. Findings are
grouped by component in ascending name order.
-/

namespace Stencil

/-- The hash of the canonical text of names with the hashes of their sources. -/
def fingerprintOf (hashes : Dictionary String) : String :=
  Sha256.hexOfText
    (Json.object (hashes.entries.map fun e => (e.1, .string e.2))).canonicalText

structure Report where
  components : Nat
  fingerprint : String
  recovered : List (String × Recovery)
  unresolved : List (String × Dependency)
  deriving DecidableEq, Repr

namespace Registry

def recovered (registry : Registry) : List (String × Recovery) :=
  registry.components.entries.flatMap fun e => e.2.recovered.map fun r => (e.1, r)

/-- The inclusions whose component is not registered. -/
def unresolved (registry : Registry) : List (String × Dependency) :=
  registry.components.entries.flatMap fun e =>
    (e.2.dependencies.filter fun d => !registry.contains d.name).map fun d => (e.1, d)

def fingerprint (registry : Registry) : String :=
  fingerprintOf (registry.components.mapValues Component.hash)

def report (registry : Registry) : Report :=
  { components := registry.size
    fingerprint := registry.fingerprint
    recovered := registry.recovered
    unresolved := registry.unresolved }

end Registry

namespace Report

def isClean (r : Report) : Bool := r.recovered.isEmpty && r.unresolved.isEmpty

/-- Whether a construct was given up. An unresolved inclusion is no such fault. -/
def hasMalformed (r : Report) : Bool := !r.recovered.isEmpty

def recoveredJson (recovered : List (String × Recovery)) : Json :=
  .array (recovered.map fun e => .object (("component", .string e.1) :: e.2.toFields))

def unresolvedJson (unresolved : List (String × Dependency)) : Json :=
  .array (unresolved.map fun e => .object (("component", .string e.1) :: e.2.toFields))

/-- The report of a load at a time. -/
def toJson (loadedAt : String) (r : Report) : Json :=
  .object [("components", .nat r.components), ("fingerprint", .string r.fingerprint),
    ("loadedAt", .string loadedAt), ("recovered", recoveredJson r.recovered),
    ("unresolved", unresolvedJson r.unresolved)]

end Report

end Stencil
