/-!
# Character classes

The classes that decide where words of a template end. All are sets of ASCII characters, so no
character beyond ASCII is ever a delimiter.
-/

namespace Stencil

/-- Space, tab, carriage return and line feed. -/
def isBlank (c : Char) : Bool := c == ' ' || c == '\t' || c == '\r' || c == '\n'

/-- An ASCII letter. -/
def isLetter (c : Char) : Bool := ('a' ≤ c && c ≤ 'z') || ('A' ≤ c && c ≤ 'Z')

def isDigit (c : Char) : Bool := '0' ≤ c && c ≤ '9'

/-- The characters of attribute names and argument keys. -/
def isIdent (c : Char) : Bool := isLetter c || isDigit c || c == '_' || c == '-'

/-- The characters that no prop name holds. -/
def isPropStop (c : Char) : Bool :=
  c == '$' || c == '{' || c == '<' || c == '/' || c == '>' || c == '&' || c == '"'

/-- The characters that the name or id of an inclusion never holds. -/
def isValueStop (c : Char) : Bool :=
  isBlank c || c == '$' || c == '{' || c == ':' || c == '}' || c == '<' || c == '>' || c == '&'

end Stencil
