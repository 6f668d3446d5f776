import Stencil.Config.Basic
import Stencil.FileTree.Walk

/-!
# Loading a registry

Every accepted file below the components directory becomes a component. Its name is the path below
that directory without the extension. Of two files with one name the one visited later is kept. The
first file that cannot be visited or read ends the load.
-/

namespace Stencil

inductive LoadError where
  | read (path : String) (cause : FileError)
  | walk (cause : WalkError)
  deriving DecidableEq, Repr

def LoadError.message : LoadError → String
  | read path cause => "failed to read component '" ++ path ++ "': " ++ cause.message
  | walk cause => "failed to walk component directory: " ++ cause.message

/-- The name of the component in a file, from the names on the path to it. -/
def componentName : List String → String
  | [] => ""
  | [name] => Path.stem name
  | directory :: rest => directory ++ "/" ++ componentName rest

namespace Registry

/-- Keep the component of a file that is accepted. -/
def addFile (config : Config) (registry : Registry) (file : FoundFile) :
    Except LoadError Registry :=
  if config.accepts file.path then
    match file.text with
    | .ok source => .ok (registry.register (componentName file.names) source)
    | .error e => .error (.read file.path e)
  else .ok registry

/-- The registry of a directory; one that does not exist holds no components. -/
def load (config : Config) (tree : FileTree) : Except LoadError Registry :=
  let empty := Registry.empty.withMaxDepth config.maxDepth
  if tree.exists? config.componentsDir then
    tree.walk config.followSymlinks config.componentsDir ⟨addFile config, .walk⟩ empty
  else .ok empty

end Registry

end Stencil
