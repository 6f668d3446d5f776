import Stencil.CommandLine.Arguments
import Stencil.Config.Reader
import Stencil.Engine.Basic

/-!
# Running a command line

A command line is run against a file tree and gives an exit code and the text for standard output.
Code 1 stands for input that cannot be used, code 2 for a rendering that fails, for constructs that
`lint` finds given up, and for a misused command line.
-/

namespace Stencil.CommandLine

structure Outcome where
  exitCode : Nat
  output : String
  deriving DecidableEq, Repr

namespace Outcome

def line (exitCode : Nat) (text : String) : Outcome := ⟨exitCode, text ++ "\n"⟩

/-- A failure with its message. -/
def failure (exitCode : Nat) (message : String) : Outcome :=
  line exitCode
    (Json.object [("error", .string message), ("success", .bool false)]).compact

end Outcome

/-- A component as `list` shows it. -/
def summary (name : String) (component : Component) : Json :=
  .object [("name", .string name),
    ("props", .object (component.declaredProps.mapValues PropType.toJson).entries),
    ("dependencies", .array (component.dependencies.map fun d => .object d.toFields))]

def runList (engine : Engine) : Outcome :=
  .line 0 (Json.array (engine.registry.components.entries.map fun e => summary e.1 e.2)).sorted.pretty

def runRender (engine : Engine) (name props : String) : Outcome :=
  match Json.parseFields props with
  | .error fault => .failure 1 ("Invalid props: " ++ fault.category)
  | .ok props =>
      match engine.renderComponent name props with
      | .ok text => .line 0 text
      | .error e => .failure 2 e.message

def runLint (loadedAt : String) (engine : Engine) : Outcome :=
  let report := engine.registry.report
  .line (if report.hasMalformed then 2 else 0) (report.toJson loadedAt).pretty

def runTokens (engine : Engine) (name : String) : Outcome :=
  match engine.registry.get? name with
  | some component => .line 0 (Json.array (component.tokens.map Token.toJson)).pretty
  | none => .failure 1 (RenderError.unknownComponent name).message

def runCommand (loadedAt : String) (engine : Engine) : Command → Outcome
  | .list => runList engine
  | .render name props => runRender engine name props
  | .lint => runLint loadedAt engine
  | .tokens name => runTokens engine name

/-- The configuration of an invocation: that of its file, with its own components directory. -/
def configOf (tree : FileTree) (invocation : Invocation) : Except ConfigError Config := do
  let config ← match invocation.config with
    | some path => Config.ofFile tree path
    | none => .ok .default
  .ok (match invocation.componentsDir with
    | some dir => config.withComponentsDir dir
    | none => config)

/-- Run a command line at a time. -/
def run (tree : FileTree) (loadedAt : String) (words : List String) : Outcome :=
  match readWords words with
  | .error .misused => ⟨2, ""⟩
  | .error (.helpAsked topic) => ⟨0, topic.page⟩
  | .ok invocation =>
      match configOf tree invocation with
      | .error e => .failure 1 e.message
      | .ok config =>
          match Engine.load config tree with
          | .error e => .failure 1 ("Failed to load components: " ++ e.message)
          | .ok engine => runCommand loadedAt engine invocation.command

end Stencil.CommandLine
