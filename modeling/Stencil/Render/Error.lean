import Stencil.Template.Token

/-!
# Rendering errors

A rendering fails at its first fault. A fault inside an included component is reported together with
the inclusions that lead to it, the outermost first.
-/

namespace Stencil

inductive RenderError where
  | missingProp (name : String)
  | typeMismatch (name : String) (type : PropType)
  | unknownComponent (name : String)
  | invalidArrayProp (name : String)
  | depthExceeded (name : String) (limit : Nat)
  | nested (name id : String) (cause : RenderError)
  deriving DecidableEq, Repr

namespace RenderError

def message : RenderError → String
  | missingProp name => "prop '" ++ name ++ "' missing in props"
  | typeMismatch name type =>
      "prop '" ++ name ++ "' has invalid type, expecting '" ++ type.keyword ++ "'"
  | unknownComponent name => "unknown component '" ++ name ++ "'"
  | invalidArrayProp name => "prop '" ++ name ++ "' must be an array of objects"
  | depthExceeded name limit =>
      "inclusion depth limit of " ++ toString limit ++ " exceeded at component '" ++ name ++ "'"
  | nested name id cause =>
      "error while rendering sub component '" ++ name ++ "' (id '" ++ id ++ "'):\n  "
        ++ cause.message

/-- The fault at the end of the chain. -/
def rootCause : RenderError → RenderError
  | nested _ _ cause => cause.rootCause
  | e => e

/-- Name and id of the inclusions on the way to the fault. -/
def chain : RenderError → List (String × String)
  | nested name id cause => (name, id) :: cause.chain
  | _ => []

end RenderError

end Stencil
