import Stencil.FileTree.Basic
import Stencil.Json.Record
import Stencil.Registry.Basic

/-!
# Configuration

Where components are loaded from, which files count, how deep inclusions may go, and whether links
are followed. Every setting has a default.
-/

namespace Stencil

structure Config where
  componentsDir : String := "components"
  extensions : List String := ["html"]
  maxDepth : Nat := Registry.defaultMaxDepth
  followSymlinks : Bool := false
  deriving DecidableEq, Repr

namespace Config

def default : Config := {}

def withComponentsDir (config : Config) (dir : String) : Config :=
  { config with componentsDir := dir }

/-- An extension may be given with dots in front. -/
def bareExtension (extension : String) : String :=
  String.ofList (extension.toList.dropWhile (· == '.'))

/-- Whether the extension of a path is one of the configured ones. -/
def accepts (config : Config) (path : String) : Bool :=
  match Path.extension? path with
  | some extension => config.extensions.any fun known => bareExtension known == extension
  | none => false

def toJson (config : Config) : Json :=
  .object [("componentsDir", .string config.componentsDir),
    ("extensions", .array (config.extensions.map .string)),
    ("maxDepth", .nat config.maxDepth), ("followSymlinks", .bool config.followSymlinks)]

/-- The number of settings. -/
def size : Nat := 4

/-- A setting that may be left out but not be of the wrong kind. -/
def setting? {α : Type} (default : α) (read : Json → Option α) : Option Json → Option α
  | none => some default
  | some v => read v

def count? : Json → Option Nat
  | .number (.int (.ofNat n)) => some n
  | _ => none

def flag? : Json → Option Bool
  | .bool b => some b
  | _ => none

def texts? : Json → Option (List String)
  | .array items => items.mapM Json.string?
  | _ => none

/-- A configuration is a record of its settings. -/
def ofJson? (v : Json) : Option Config := do
  let r ← (← Json.Record.ofJson? v).within? size
  some
    { componentsDir := ← setting? default.componentsDir Json.string? (r.field? 0 "componentsDir")
      extensions := ← setting? default.extensions texts? (r.field? 1 "extensions")
      maxDepth := ← setting? default.maxDepth count? (r.field? 2 "maxDepth")
      followSymlinks := ← setting? default.followSymlinks flag? (r.field? 3 "followSymlinks") }

end Config

end Stencil
