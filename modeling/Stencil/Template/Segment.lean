import Stencil.Template.InclusionTag
import Stencil.Template.Placeholder
import Stencil.Template.Shorthand

/-!
# Segments

A source text falls into segments that follow each other without gaps: plain characters, escapes,
constructs that were scanned to their end, and the stretches of constructs that were given up. The
segments hold the whole text, so whatever is said about a source can be read off them.
-/

namespace Stencil

/-- The kinds of construct that a scan can give up. -/
inductive Construct where
  | prop
  | attribute
  | single
  | repeated
  deriving DecidableEq, Repr

inductive Segment where
  | plain (c : Char)
  | escape
  | construct (token : Token) (text : List Char)
  | recovered (construct : Construct) (reason : Stall) (text : List Char)
  deriving DecidableEq, Repr

/-- Where a text stands with respect to the tags of its markup. -/
inductive TagContext where
  | outside
  | inside
  | quoted (mark : Char)
  deriving DecidableEq, Repr

namespace TagContext

/-- The context behind a plain character; a tag opens only before a letter. -/
def step (context : TagContext) (c : Char) (next : Option Char) : TagContext :=
  match context with
  | .quoted mark => if c = mark then .inside else .quoted mark
  | .inside =>
      if c = '"' ∨ c = '\'' then .quoted c
      else if c = '<' then if next.any isLetter then .inside else .outside
      else if c = '>' then .outside
      else .inside
  | .outside => if c = '<' ∧ next.any isLetter then .inside else .outside

end TagContext

namespace Segment

/-- The characters of the source that a segment covers. -/
def source : Segment → List Char
  | .plain c => [c]
  | .escape => ['\\', '$', '\x7b']
  | .construct _ text => text
  | .recovered _ _ text => text

/-- What a segment adds to the text around it. -/
def literal : Segment → List Char
  | .plain c => [c]
  | .escape => ['$', '\x7b']
  | .construct _ _ => []
  | .recovered _ _ text => text

def token? : Segment → Option Token
  | .construct token _ => some token
  | _ => none

/-- The construct that opens at the head of a text, with the outcome of its scan. A shorthand opens
only behind a blank directly inside a tag. -/
def opening? (context : TagContext) (before : Option Char) :
    List Char → Option (Construct × Outcome)
  | '$' :: '\x7b' :: cs => some (.prop, Placeholder.scan cs)
  | '$' :: c :: cs =>
      if isIdent c ∧ context = .inside ∧ before.any isBlank then
        some (.attribute, Shorthand.scan (c :: cs))
      else none
  | '<' :: 'e' :: 'z' :: '-' :: 'f' :: 'o' :: 'r' :: c :: cs =>
      if isBlank c then some (.repeated, InclusionTag.scan .repeated cs) else none
  | '<' :: 'e' :: 'z' :: c :: cs =>
      if isBlank c then some (.single, InclusionTag.scan .single cs) else none
  | _ => none

/-- The segment that a scan has covered. -/
def ofOutcome (text : List Char) (kind : Construct) (outcome : Outcome) : Segment :=
  let covered := text.take (text.length - outcome.rest.length)
  match outcome with
  | .found token _ => .construct token covered
  | .stalled reason _ => .recovered kind reason covered

/-- The first segment of the text `c :: cs`. -/
def first (context : TagContext) (before : Option Char) (c : Char) (cs : List Char) : Segment :=
  match c, cs with
  | '\\', '$' :: '\x7b' :: _ => .escape
  | '$', '*' :: _ => .construct .forwarded ['$', '*']
  | _, _ =>
      match opening? context before (c :: cs) with
      | some (kind, outcome) => ofOutcome (c :: cs) kind outcome
      | none => .plain c

/-- The context behind a segment; only plain characters are markup. -/
def contextAfter (context : TagContext) (cs : List Char) : Segment → TagContext
  | .plain c => context.step c cs.head?
  | _ => context

/-- The segments of a text that follows the character `before`. -/
def all (context : TagContext) (before : Option Char) : List Char → List Segment
  | [] => []
  | c :: cs =>
      let segment := first context before c cs
      segment :: all (segment.contextAfter context cs) segment.source.getLast?
        (cs.drop (segment.source.length - 1))
termination_by cs => cs.length
decreasing_by simp only [List.length_drop, List.length_cons]; omega

end Segment

end Stencil
