import Stencil.Config.Basic
import Stencil.Json.Reader

/-!
# Reading a configuration

A configuration is read from JSON text in one pass, so of several faults the first in the text is
the one reported: a setting of the wrong kind, or given twice, counts before anything malformed
behind it. Fields that are no settings are passed over.
-/

namespace Stencil

inductive ConfigError where
  | io (path : String) (cause : FileError)
  | parse (fault : Json.Fault)
  deriving DecidableEq, Repr

/-- The name of a setting. -/
inductive Setting where
  | componentsDir
  | extensions
  | maxDepth
  | followSymlinks
  deriving DecidableEq

namespace Setting

def all : List Setting := [componentsDir, extensions, maxDepth, followSymlinks]

def key : Setting → String
  | componentsDir => "componentsDir"
  | extensions => "extensions"
  | maxDepth => "maxDepth"
  | followSymlinks => "followSymlinks"

def ofKey? (key : String) : Option Setting := all.find? (·.key == key)

end Setting

namespace Config

open Json (Fault Reader)
open Json.Reader

/-- The texts of an array whose opening bracket is passed. Each takes a character at least, so the
number of characters is fuel enough. -/
def textItems : Nat → Bool → Reader (List String)
  | 0, _, _ => .error .malformed
  | fuel + 1, first, cs => do
      let (another, cs) ← more ']' first cs
      if another then
        let (s, cs) ← text cs
        let (rest, cs) ← textItems fuel false cs
        .ok (s :: rest, cs)
      else .ok ([], cs.drop 1)

def texts : Reader (List String) := fun cs =>
  match skipBlank cs with
  | '[' :: cs => textItems (cs.length + 1) true cs
  | cs => unfit cs

/-- Read the value of a setting into a configuration. -/
def readSetting (config : Config) (setting : Setting) : Reader Config := fun cs =>
  match setting with
  | .componentsDir => do let (s, cs) ← text cs; .ok ({ config with componentsDir := s }, cs)
  | .extensions => do let (ss, cs) ← texts cs; .ok ({ config with extensions := ss }, cs)
  | .maxDepth => do let (n, cs) ← count cs; .ok ({ config with maxDepth := n }, cs)
  | .followSymlinks => do let (b, cs) ← flag cs; .ok ({ config with followSymlinks := b }, cs)

/-- The fields of an object whose opening brace is passed; `given` are the settings that are known
already. -/
def readFields (config : Config) (given : List Setting) : Nat → Bool → Reader Config
  | 0, _, _ => .error .malformed
  | fuel + 1, first, cs => do
      let (another, cs) ← more '\x7d' first cs
      if another then
        let (name, cs) ← key .kept cs
        match Setting.ofKey? name with
        | some setting =>
            if given.contains setting then .error .unfit
            else
              let (config, cs) ← readSetting config setting (← colon cs)
              readFields config (setting :: given) fuel false cs
        | none => readFields config given fuel false (← skipValue (← colon cs))
      else .ok (config, cs.drop 1)

/-- The settings of an array whose opening bracket is passed, in their order. Nothing may follow the
last one. -/
def readItems (config : Config) (first : Bool) : List Setting → Reader Config
  | [], cs =>
      match skipBlank cs with
      | ']' :: cs => .ok (config, cs)
      | [] => .error .truncated
      | _ => .error .malformed
  | setting :: rest, cs => do
      let (another, cs) ← more ']' first cs
      if another then
        let (config, cs) ← readSetting config setting cs
        readItems config false rest cs
      else .ok (config, cs.drop 1)

def reader : Reader Config := fun cs =>
  match skipBlank cs with
  | '\x7b' :: cs => readFields default [] (cs.length + 1) true cs
  | '[' :: cs => readItems default true Setting.all cs
  | cs => unfit cs

def parse (text : String) : Except Fault Config := do finish (← reader text.toList)

/-- The configuration in the file at a path. -/
def ofFile (tree : FileTree) (path : String) : Except ConfigError Config :=
  match tree.readText path with
  | .error e => .error (.io path e)
  | .ok text => (parse text).mapError .parse

end Config

namespace ConfigError

def message : ConfigError → String
  | io path cause => "failed to read config '" ++ path ++ "': " ++ cause.message
  | parse fault => "invalid config: " ++ fault.category

end ConfigError

end Stencil
