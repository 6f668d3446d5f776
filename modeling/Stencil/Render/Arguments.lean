import Stencil.Attributes
import Stencil.Json.Text
import Stencil.Render.Error

/-!
# Evaluating arguments

The arguments of an inclusion become the attributes of the included component. They are evaluated
one after the other against the props of the including component; a wildcard sets the attributes
that component was handed itself.
-/

namespace Stencil

def lookupProp (props : Json.Fields) (name : String) : Except RenderError Json :=
  match props.lookup name with
  | some v => .ok v
  | none => .error (.missingProp name)

def Fragment.evaluate (props : Json.Fields) : Fragment → Except RenderError String
  | .literal text => .ok text
  | .prop name => (lookupProp props name).map Json.display

/-- The texts of fragments one behind the other, or the first error. -/
def Fragment.evaluateAll (props : Json.Fields) : List Fragment → Except RenderError String
  | [] => .ok ""
  | fragment :: rest => do
      let text ← fragment.evaluate props
      let more ← evaluateAll props rest
      .ok (text ++ more)

def Argument.apply (props : Json.Fields) (inherited : Attributes) (a : Attributes) :
    Argument → Except RenderError Attributes
  | .named name fragments => do .ok (a.set name (← Fragment.evaluateAll props fragments))
  | .wildcard => .ok (a.setAll inherited.entries)

/-- The attributes that arguments set, from left to right on top of others. -/
def Argument.applyAll (props : Json.Fields) (inherited : Attributes) (a : Attributes) :
    List Argument → Except RenderError Attributes
  | [] => .ok a
  | argument :: rest => do applyAll props inherited (← argument.apply props inherited a) rest

def evaluateArguments (arguments : List Argument) (props : Json.Fields) (inherited : Attributes) :
    Except RenderError Attributes :=
  Argument.applyAll props inherited .empty arguments

end Stencil
