import Stencil.Registry.Load
import Stencil.Registry.Report
import Stencil.Render.Basic

/-!
# Engines

An engine renders from a live registry and remembers the configuration it was loaded with. A reload
builds a registry from the directory as it is now and puts it in place of the live one if their
fingerprints differ; a reload that fails changes nothing.
-/

namespace Stencil

structure Engine where
  config : Config
  registry : Registry

namespace Engine

/-- An engine for a registry, configured as by default but for the registry's limit. -/
def ofRegistry (registry : Registry) : Engine :=
  ⟨{ Config.default with maxDepth := registry.maxDepth }, registry⟩

def default : Engine := ofRegistry .empty

def load (config : Config) (tree : FileTree) : Except LoadError Engine := do
  .ok ⟨config, ← Registry.load config tree⟩

def renderComponent (engine : Engine) (name : String) (props : Json.Fields) :
    Except RenderError String :=
  engine.registry.renderComponent name props

/-- The first violation of what a component asks of its props. -/
def checkProps (engine : Engine) (name : String) (props : Json.Fields) :
    Except RenderError (Option Violation) :=
  match engine.registry.get? name with
  | none => .error (.unknownComponent name)
  | some component => .ok (component.signature.check (.object props))

/-- Put another registry in place of the live one, which is given back. -/
def swap (engine : Engine) (registry : Registry) : Registry × Engine :=
  (engine.registry, { engine with registry := registry })

structure Reload where
  changed : Bool
  report : Report
  deriving DecidableEq, Repr

/-- Load anew, and report on what was loaded. -/
def reload (engine : Engine) (tree : FileTree) : Except LoadError (Reload × Engine) := do
  let fresh ← Registry.load engine.config tree
  let report := fresh.report
  let changed := report.fingerprint != engine.registry.fingerprint
  .ok (⟨changed, report⟩, if changed then (engine.swap fresh).2 else engine)

end Engine

end Stencil
