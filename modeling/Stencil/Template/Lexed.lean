import Stencil.Template.Position
import Stencil.Template.Segment

/-!
# Lexed sources

The tokens of a source and the places where a construct was given up, both read off its segments.
Between two constructs all that is not a construct is one literal, and an empty literal is none.
-/

namespace Stencil

/-- A construct that was given up and stays text. -/
structure Recovery where
  construct : Construct
  start : Nat
  stop : Nat
  line : Nat
  column : Nat
  reason : Stall
  deriving DecidableEq, Repr

structure Lexed where
  tokens : List Token
  recovered : List Recovery
  deriving DecidableEq, Repr

namespace Lexed

/-- A literal for a text that is not empty. -/
def flush (text : String) : List Token := if text.isEmpty then [] else [.literal text]

/-- The tokens of segments behind text that waits to become a literal. -/
def tokensOf (pending : String) : List Segment → List Token
  | [] => flush pending
  | segment :: rest =>
      match segment.token? with
      | some token => flush pending ++ token :: tokensOf "" rest
      | none => tokensOf (pending ++ String.ofList segment.literal) rest

/-- The recoveries of segments that begin at a position. -/
def recoveriesOf (p : Position) : List Segment → List Recovery
  | [] => []
  | segment :: rest =>
      let q := p.advance segment.source
      match segment with
      | .recovered construct reason _ =>
          ⟨construct, p.offset, q.offset, p.line, p.column, reason⟩ :: recoveriesOf q rest
      | _ => recoveriesOf q rest

end Lexed

/-- The segments of a whole source. -/
def segments (source : String) : List Segment := Segment.all .outside none source.toList

def lex (source : String) : Lexed :=
  ⟨Lexed.tokensOf "" (segments source), Lexed.recoveriesOf .start (segments source)⟩

end Stencil
