import Mathlib.Data.List.Chain
import Mathlib.Data.List.Infix
import Stencil.Template.Lexed
import Stencil.Proofs.CharacterSets

/-!
# Printing tokens

Every token has a written form, and a list of tokens is printed as their forms one behind the other.
`Printable` says which lists can be told from their print: names hold no character that ends them,
no text opens a construct, and no two texts touch.
-/

namespace Stencil

/-- A text with a backslash before every dollar sign that an opening brace follows. -/
def escaped : List Char → List Char
  | '$' :: '\x7b' :: cs => '\\' :: '$' :: '\x7b' :: escaped cs
  | c :: cs => c :: escaped cs
  | [] => []

theorem escaped_cons {c : Char} {cs : List Char} (h : ¬ ['$', '\x7b'] <+: c :: cs) :
    escaped (c :: cs) = c :: escaped cs := by
  rw [escaped]
  rintro rest rfl rfl
  exact h ⟨rest, rfl⟩

/-- A text is empty, or begins with what has to be escaped, or with a character that stays. -/
@[elab_as_elim]
theorem escaped_induction {motive : List Char → Prop} (nil : motive [])
    (reference : ∀ cs, motive cs → motive ('$' :: '\x7b' :: cs))
    (plain : ∀ c cs, ¬ ['$', '\x7b'] <+: c :: cs → motive cs → motive (c :: cs)) :
    ∀ text, motive text := by
  intro text
  induction text using escaped.induct with
  | case1 cs ih => exact reference cs ih
  | case2 c cs hplain ih =>
      refine plain c cs ?_ ih
      rintro ⟨ds, hds⟩
      cases hds
      exact hplain ds rfl rfl
  | case3 => exact nil

def Fragment.print : Fragment → List Char
  | .literal text => escaped text.toList
  | .prop name => '$' :: '\x7b' :: name.toList ++ ['\x7d']

def Argument.print : Argument → List Char
  | .named key fragments =>
      key.toList ++ '=' :: '"' :: fragments.flatMap Fragment.print ++ ['"']
  | .wildcard => ['$', '*']

/-- An inclusion behind its opening word and the blank that ends it. -/
def Inclusion.print (inclusion : Inclusion) : List Char :=
  'n' :: 'a' :: 'm' :: 'e' :: '=' :: '"' :: inclusion.name.toList ++
    '"' :: ' ' :: 'i' :: 'd' :: '=' :: '"' :: inclusion.id.toList ++
    '"' :: inclusion.arguments.flatMap (fun argument => ' ' :: argument.print) ++ [' ', '/', '>']

/-- The word that is written for a type. -/
def PropType.word : PropType → List Char
  | .string => ['s', 't', 'r', 'i', 'n', 'g']
  | .number => ['n', 'u', 'm', 'b', 'e', 'r']
  | .boolean => ['b', 'o', 'o', 'l', 'e', 'a', 'n']
  | .object => ['o', 'b', 'j', 'e', 'c', 't']
  | .any => ['a', 'n', 'y']

theorem PropType.toList_keyword (type : PropType) : type.keyword.toList = type.word := by
  cases type <;> rfl

def Token.print : Token → List Char
  | .literal text => escaped text.toList
  | .prop name .any => '$' :: '\x7b' :: name.toList ++ ['\x7d']
  | .prop name type =>
      '$' :: '\x7b' :: name.toList ++ ':' :: type.word ++ ['\x7d']
  | .attribute name => '$' :: name.toList
  | .forwarded => ['$', '*']
  | .single inclusion => '<' :: 'e' :: 'z' :: ' ' :: inclusion.print
  | .repeated inclusion => '<' :: 'e' :: 'z' :: '-' :: 'f' :: 'o' :: 'r' :: ' ' :: inclusion.print

/-- The written forms of tokens one behind the other. -/
def printTokens (tokens : List Token) : String := String.ofList (tokens.flatMap Token.print)

/-- A word that is not empty and holds none of some characters. -/
def Avoids (stops : List Char) (word : String) : Prop :=
  word ≠ "" ∧ ∀ c ∈ word.toList, c ∉ stops

/-- What ends the name of a prop. -/
def propNameStops : List Char :=
  [' ', '\t', '\r', '\n', ':', '\x7d', '$', '\x7b', '<', '/', '>', '&', '"']

/-- What ends the name of an inclusion; its id ends at a slash too. -/
def inclusionNameStops : List Char :=
  [' ', '\t', '\r', '\n', '$', '\x7b', ':', '\x7d', '<', '>', '&', '"']

def Fragment.Printable : Fragment → Prop
  | .literal text => text ≠ "" ∧ '"' ∉ text.toList
  | .prop name => Avoids propNameStops name

/-- Two texts would be read as one, and a backslash before a reference as part of an escape. -/
def Fragment.MayPrecede : Fragment → Fragment → Prop
  | .literal _, .literal _ => False
  | .literal text, .prop _ => text.toList.getLast? ≠ some '\\'
  | _, _ => True

def Argument.Printable : Argument → Prop
  | .named key fragments =>
      (key ≠ "" ∧ ∀ c ∈ key.toList, c ∈ identCharacters) ∧
        (∀ fragment ∈ fragments, fragment.Printable) ∧ fragments.IsChain Fragment.MayPrecede
  | .wildcard => True

structure Inclusion.Printable (inclusion : Inclusion) : Prop where
  name : Avoids inclusionNameStops inclusion.name
  id : Avoids ('/' :: inclusionNameStops) inclusion.id
  arguments : ∀ argument ∈ inclusion.arguments, argument.Printable

/-- A text in which no construct opens. -/
structure PlainText (text : List Char) : Prop where
  noSingle : ∀ b ∈ blankCharacters, ¬ ['<', 'e', 'z', b] <:+: text
  noRepeated : ∀ b ∈ blankCharacters, ¬ ['<', 'e', 'z', '-', 'f', 'o', 'r', b] <:+: text
  noDollar : text.IsChain fun a b => a = '$' → b ≠ '*' ∧ b ∉ identCharacters

/-- An attribute shorthand is recognised by the text around it, so none is printable. -/
def Token.Printable : Token → Prop
  | .literal text => text ≠ "" ∧ PlainText text.toList
  | .prop name _ => Avoids propNameStops name
  | .attribute _ => False
  | .forwarded => True
  | .single inclusion => inclusion.Printable
  | .repeated inclusion => inclusion.Printable

def Token.MayPrecede : Token → Token → Prop
  | .literal _, .literal _ => False
  | .literal text, .prop _ _ => text.toList.getLast? ≠ some '\\'
  | _, _ => True

structure Printable (tokens : List Token) : Prop where
  each : ∀ token ∈ tokens, token.Printable
  chain : tokens.IsChain Token.MayPrecede

section Decidability

instance (stops : List Char) (word : String) : Decidable (Avoids stops word) :=
  -- character by character of the word, not over the type of characters
  haveI := List.decidableBAll (fun c => c ∉ stops) word.toList
  inferInstanceAs (Decidable (word ≠ "" ∧ ∀ c ∈ word.toList, c ∉ stops))

instance : DecidablePred Fragment.Printable
  | .literal text => inferInstanceAs (Decidable (text ≠ "" ∧ '"' ∉ text.toList))
  | .prop name => inferInstanceAs (Decidable (Avoids propNameStops name))

instance : DecidableRel Fragment.MayPrecede
  | .literal _, .literal _ => .isFalse id
  | .literal text, .prop _ => inferInstanceAs (Decidable (text.toList.getLast? ≠ some '\\'))
  | .prop _, _ => .isTrue trivial

instance : DecidablePred Argument.Printable
  | .named key fragments =>
      haveI := List.decidableBAll (fun c => c ∈ identCharacters) key.toList
      inferInstanceAs (Decidable ((key ≠ "" ∧ ∀ c ∈ key.toList, c ∈ identCharacters) ∧
        (∀ fragment ∈ fragments, fragment.Printable) ∧ fragments.IsChain Fragment.MayPrecede))
  | .wildcard => .isTrue trivial

instance : DecidablePred Inclusion.Printable := fun inclusion =>
  decidable_of_iff (Avoids inclusionNameStops inclusion.name ∧
      Avoids ('/' :: inclusionNameStops) inclusion.id ∧
      ∀ argument ∈ inclusion.arguments, argument.Printable)
    ⟨fun h => ⟨h.1, h.2.1, h.2.2⟩, fun h => ⟨h.name, h.id, h.arguments⟩⟩

instance : DecidablePred PlainText := fun text =>
  haveI := List.decidableBAll (fun b => ¬ ['<', 'e', 'z', b] <:+: text) blankCharacters
  haveI := List.decidableBAll (fun b => ¬ ['<', 'e', 'z', '-', 'f', 'o', 'r', b] <:+: text)
    blankCharacters
  decidable_of_iff ((∀ b ∈ blankCharacters, ¬ ['<', 'e', 'z', b] <:+: text) ∧
      (∀ b ∈ blankCharacters, ¬ ['<', 'e', 'z', '-', 'f', 'o', 'r', b] <:+: text) ∧
      text.IsChain fun a b => a = '$' → b ≠ '*' ∧ b ∉ identCharacters)
    ⟨fun h => ⟨h.1, h.2.1, h.2.2⟩, fun h => ⟨h.noSingle, h.noRepeated, h.noDollar⟩⟩

instance : DecidablePred Token.Printable
  | .literal text => inferInstanceAs (Decidable (text ≠ "" ∧ PlainText text.toList))
  | .prop name _ => inferInstanceAs (Decidable (Avoids propNameStops name))
  | .attribute _ => .isFalse id
  | .forwarded => .isTrue trivial
  | .single inclusion => inferInstanceAs (Decidable inclusion.Printable)
  | .repeated inclusion => inferInstanceAs (Decidable inclusion.Printable)

instance : DecidableRel Token.MayPrecede
  | .literal text, next =>
      match next with
      | .literal _ => .isFalse id
      | .prop _ _ => inferInstanceAs (Decidable (text.toList.getLast? ≠ some '\\'))
      | .attribute _ | .forwarded | .single _ | .repeated _ => .isTrue trivial
  | .prop _ _, _ | .attribute _, _ | .forwarded, _ | .single _, _ | .repeated _, _ =>
      .isTrue trivial

instance : DecidablePred Printable := fun tokens =>
  decidable_of_iff ((∀ token ∈ tokens, token.Printable) ∧ tokens.IsChain Token.MayPrecede)
    ⟨fun h => ⟨h.1, h.2⟩, fun h => ⟨h.each, h.chain⟩⟩

end Decidability

end Stencil
