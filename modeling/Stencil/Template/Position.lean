/-!
# Positions

A place in a source text: its offset in bytes of UTF-8, its line, and its column in code points. The
position behind a text is found by passing over its characters one by one.
-/

namespace Stencil

structure Position where
  offset : Nat
  line : Nat
  column : Nat
  deriving DecidableEq, Repr

namespace Position

def start : Position := ⟨0, 1, 1⟩

/-- The position behind a character. -/
def step (p : Position) (c : Char) : Position :=
  { offset := p.offset + c.utf8Size
    line := if c = '\n' then p.line + 1 else p.line
    column := if c = '\n' then 1 else p.column + 1 }

def advance (p : Position) (text : List Char) : Position := text.foldl step p

@[simp] theorem advance_nil (p : Position) : p.advance [] = p := rfl

@[simp] theorem advance_append (p : Position) (a b : List Char) :
    p.advance (a ++ b) = (p.advance a).advance b :=
  List.foldl_append

end Position

end Stencil
