import Stencil.Registry.Basic
import Stencil.Render.Arguments

/-!
# Rendering

A component is rendered token by token against its props and the attributes it was handed. How the
components below it are rendered is a parameter, absent where the limit on inclusions is reached; the
recursion over levels then goes by the number of levels that are left.
-/

namespace Stencil

/-- The text of an included component for its props and attributes. -/
abbrev Included := Json.Fields → Attributes → Except RenderError String

/-- The text of any component for its props and attributes. -/
abbrev Renderer := Component → Included

namespace Render

/-- The key under which an element of an array finds its index. -/
def indexKey : String := "i"

/-- Find the component of an inclusion. An unknown name counts before the limit does. -/
def resolve (registry : Registry) (below : Option Renderer) (name : String) :
    Except RenderError Included :=
  match registry.get? name with
  | none => .error (.unknownComponent name)
  | some component =>
      match below with
      | none => .error (.depthExceeded name registry.maxDepth)
      | some render => .ok (render component)

/-- The props of a single inclusion: the object under its id, or none at all. -/
def singleProps (props : Json.Fields) (id : String) : Json.Fields :=
  match props.lookup id with
  | some (.object fields) => fields
  | _ => []

/-- The objects of the array under an id. -/
def elements (props : Json.Fields) (id : String) : Except RenderError (List Json.Fields) :=
  match props.lookup id with
  | some (.array items) =>
      match items.mapM Json.fields? with
      | some fields => .ok fields
      | none => .error (.invalidArrayProp id)
  | _ => .error (.invalidArrayProp id)

/-- The props of an element, with its index unless it has a value of its own there. -/
def indexed (fields : Json.Fields) (index : Nat) : Json.Fields :=
  if (fields.lookup indexKey).isSome then fields else (indexKey, .nat index) :: fields

/-- Render an included component and name the inclusion in its errors. -/
def inclusionText (inclusion : Inclusion) (child : Included) (props : Json.Fields)
    (attributes : Attributes) : Except RenderError String :=
  (child props attributes).mapError (.nested inclusion.name inclusion.id)

/-- The texts for the elements of an array from an index on, or the first error. -/
def elementTexts (inclusion : Inclusion) (child : Included) (attributes : Attributes) (index : Nat) :
    List Json.Fields → Except RenderError (List String)
  | [] => .ok []
  | fields :: rest => do
      let text ← inclusionText inclusion child (indexed fields index) attributes
      let texts ← elementTexts inclusion child attributes (index + 1) rest
      .ok (text :: texts)

/-- The arguments of an inclusion always see the props of the including component. -/
def tokenText (registry : Registry) (below : Option Renderer) (props : Json.Fields)
    (forwarded : Attributes) : Token → Except RenderError String
  | .literal text => .ok text
  | .prop name type => do
      let v ← lookupProp props name
      if type.admits v then .ok v.display else .error (.typeMismatch name type)
  | .attribute name => do .ok (Attributes.item name (← lookupProp props name).display)
  | .forwarded => .ok forwarded.text
  | .single inclusion => do
      let child ← resolve registry below inclusion.name
      let attributes ← evaluateArguments inclusion.arguments props forwarded
      inclusionText inclusion child (singleProps props inclusion.id) attributes
  | .repeated inclusion => do
      let child ← resolve registry below inclusion.name
      let items ← elements props inclusion.id
      let attributes ← evaluateArguments inclusion.arguments props forwarded
      let texts ← elementTexts inclusion child attributes 0 items
      .ok ("\n".intercalate texts)

/-- The texts of tokens one behind the other, or the first error. -/
def tokensText (registry : Registry) (below : Option Renderer) (props : Json.Fields)
    (forwarded : Attributes) : List Token → Except RenderError String
  | [] => .ok ""
  | token :: rest => do
      let text ← tokenText registry below props forwarded token
      let more ← tokensText registry below props forwarded rest
      .ok (text ++ more)

/-- Render with a number of levels left for inclusions. -/
def within (registry : Registry) : Nat → Component → Json.Fields → Attributes →
    Except RenderError String
  | 0, component, props, forwarded => tokensText registry none props forwarded component.tokens
  | levels + 1, component, props, forwarded =>
      tokensText registry
        (some fun child props attributes => within registry levels child props attributes)
        props forwarded component.tokens

end Render

namespace Registry

/-- Render a component at the top, with all levels of the registry ahead. -/
def render (registry : Registry) (component : Component) (props : Json.Fields)
    (forwarded : Attributes) : Except RenderError String :=
  Render.within registry registry.maxDepth component props forwarded

/-- Render the component of a name. -/
def renderComponent (registry : Registry) (name : String) (props : Json.Fields) :
    Except RenderError String :=
  match registry.get? name with
  | none => .error (.unknownComponent name)
  | some component => registry.render component props .empty

end Registry

end Stencil
