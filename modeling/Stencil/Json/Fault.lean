import Stencil.Json.Basic

/-!
# Faults of JSON text

Why a text is not the JSON that is asked for: it breaks the grammar, it ends too early, or it is
JSON of another shape.
-/

namespace Stencil.Json

inductive Fault where
  | malformed
  | truncated
  | unfit
  deriving DecidableEq, Repr

namespace Fault

/-- The name under which a fault is reported. -/
def category : Fault → String
  | malformed => "Syntax"
  | truncated => "Eof"
  | unfit => "Data"

end Fault

end Stencil.Json
