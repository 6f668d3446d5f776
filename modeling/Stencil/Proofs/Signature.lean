import Stencil.Component

/-!
# What a signature asks for

For a single key the signature of a component is decided by three lists read off its tokens: the
types that are declared for the key, the props in arguments, and the ids of repeated inclusions. An
id goes before a declaration, and a declaration before an argument.
-/

namespace Stencil

/-- The type that a token declares for a prop; a shorthand declares any. -/
def Token.declared? (key : String) : Token → Option PropType
  | .prop name type => if name = key then some type else none
  | .attribute name => if name = key then some .any else none
  | _ => none

/-- The id under which a repeated inclusion looks for its array. -/
def Token.loopId? : Token → Option String
  | .repeated inclusion => some inclusion.id
  | _ => none

def Token.argumentReferences : Token → List String
  | .single inclusion => inclusion.references
  | .repeated inclusion => inclusion.references
  | _ => []

namespace Component

def declaredTypes (c : Component) (key : String) : List PropType :=
  c.tokens.filterMap (Token.declared? key)

def loopIds (c : Component) : List String := c.tokens.filterMap Token.loopId?

def argumentReferences (c : Component) : List String := c.tokens.flatMap Token.argumentReferences

/-- The type of a key that is declared once more. -/
def widen (known : Option PropType) (type : PropType) : Option PropType :=
  match known with
  | none => some type
  | some known => some (if known = type then known else .any)

theorem get?_declare (declared : Dictionary PropType) (name : String) (type : PropType)
    (key : String) : (declare declared name type).get? key =
      if name = key then widen (declared.get? key) type else declared.get? key := by
  unfold declare
  by_cases hkey : name = key
  · subst hkey
    cases hknown : declared.get? name with
    | none => simp [widen]
    | some known => by_cases htype : known = type <;> simp [widen, htype, hknown]
  · have hne : ¬ key = name := fun h => hkey h.symm
    cases declared.get? name with
    | none => simp [hkey, hne]
    | some known => by_cases htype : known = type <;> simp [hkey, hne, htype]

theorem get?_declareToken (declared : Dictionary PropType) (token : Token) (key : String) :
    (declareToken declared token).get? key =
      match token.declared? key with
      | some type => widen (declared.get? key) type
      | none => declared.get? key := by
  cases token with
  | prop name type =>
      rw [declareToken, get?_declare, Token.declared?]
      split <;> rfl
  | «attribute» name =>
      rw [declareToken, get?_declare, Token.declared?]
      split <;> rfl
  | _ => rfl

theorem get?_foldl_declareToken (tokens : List Token) (declared : Dictionary PropType)
    (key : String) : (tokens.foldl declareToken declared).get? key =
      (tokens.filterMap (Token.declared? key)).foldl widen (declared.get? key) := by
  induction tokens generalizing declared with
  | nil => rfl
  | cons token rest ih =>
      rw [List.foldl_cons, ih, get?_declareToken, List.filterMap_cons]
      cases token.declared? key <;> rfl

/-- Types after a first one widen it to any, unless they all repeat it. -/
theorem foldl_widen_some (type : PropType) (types : List PropType) :
    types.foldl widen (some type) = some (if ∀ t ∈ types, t = type then type else .any) := by
  induction types generalizing type with
  | nil => simp
  | cons t rest ih =>
      rw [List.foldl_cons, widen]
      by_cases ht : type = t
      · subst ht
        simp [ih]
      · have hne : ¬ t = type := fun h => ht h.symm
        simp [ih, ht, hne]

/-- A key that is declared with one type only has that type, and with several any. -/
theorem get?_declaredProps (c : Component) (key : String) :
    c.declaredProps.get? key =
      match c.declaredTypes key with
      | [] => none
      | type :: types => some (if ∀ t ∈ types, t = type then type else .any) := by
  have hfold : c.declaredProps.get? key = (c.declaredTypes key).foldl widen none :=
    get?_foldl_declareToken c.tokens .empty key
  rw [hfold]
  cases c.declaredTypes key with
  | nil => rfl
  | cons type types => exact foldl_widen_some type types

theorem get?_require (fields : Dictionary Schema) (name key : String) :
    (require fields name).get? key =
      (fields.get? key).or (if key = name then some (.tag .any) else none) := by
  unfold require
  by_cases hkey : key = name
  · subst hkey
    cases hget : fields.get? key <;> simp [Dictionary.contains, hget]
  · by_cases hcontains : fields.contains name = true <;> simp [hcontains, hkey]

theorem get?_foldl_require (names : List String) (fields : Dictionary Schema) (key : String) :
    (names.foldl require fields).get? key =
      (fields.get? key).or (if key ∈ names then some (.tag .any) else none) := by
  induction names generalizing fields with
  | nil => simp
  | cons name rest ih =>
      rw [List.foldl_cons, ih, get?_require, Option.or_assoc]
      by_cases hkey : key = name <;> simp [hkey]

theorem get?_requireToken (fields : Dictionary Schema) (token : Token) (key : String) :
    (requireToken fields token).get? key =
      if token.loopId? = some key then some (.tag .object)
      else (fields.get? key).or
        (if key ∈ token.argumentReferences then some (.tag .any) else none) := by
  cases token with
  | single inclusion =>
      have hloop : ¬ (Token.single inclusion).loopId? = some key := nofun
      rw [requireToken, get?_foldl_require, if_neg hloop]
      rfl
  | repeated inclusion =>
      have hloop : (Token.repeated inclusion).loopId? = some key ↔ key = inclusion.id := by
        simp [Token.loopId?, eq_comm]
      rw [requireToken, Dictionary.get?_insert, get?_foldl_require]
      by_cases hkey : key = inclusion.id
      · rw [if_pos hkey, if_pos (hloop.2 hkey)]
      · rw [if_neg hkey, if_neg (mt hloop.1 hkey)]
        rfl
  | _ => simp [requireToken, Token.loopId?, Token.argumentReferences]

theorem get?_foldl_requireToken (tokens : List Token) (fields : Dictionary Schema)
    (key : String) : (tokens.foldl requireToken fields).get? key =
      if key ∈ tokens.filterMap Token.loopId? then some (.tag .object)
      else (fields.get? key).or
        (if key ∈ tokens.flatMap Token.argumentReferences then some (.tag .any) else none) := by
  induction tokens generalizing fields with
  | nil => simp
  | cons token rest ih =>
      rw [List.foldl_cons, ih, get?_requireToken]
      have hmem : key ∈ (token :: rest).filterMap Token.loopId? ↔
          token.loopId? = some key ∨ key ∈ rest.filterMap Token.loopId? := by
        simp [List.mem_filterMap]
      by_cases hrest : key ∈ rest.filterMap Token.loopId?
      · rw [if_pos hrest, if_pos (hmem.2 (.inr hrest))]
      by_cases htoken : token.loopId? = some key
      · rw [if_neg hrest, if_pos htoken, if_pos (hmem.2 (.inl htoken))]
        rfl
      · rw [if_neg hrest, if_neg htoken, if_neg (fun h => (hmem.1 h).elim htoken hrest),
          Option.or_assoc, List.flatMap_cons]
        by_cases hargument : key ∈ token.argumentReferences <;> simp [hargument]

theorem get?_signatureFields (c : Component) (key : String) :
    c.signatureFields.get? key =
      if key ∈ c.loopIds then some (.tag .object)
      else ((c.declaredProps.get? key).map .tag).or
        (if key ∈ c.argumentReferences then some (.tag .any) else none) := by
  rw [signatureFields, get?_foldl_requireToken, Dictionary.get?_mapValues]
  rfl

end Component

end Stencil
