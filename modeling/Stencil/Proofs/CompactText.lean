import Mathlib
import Stencil.Proofs.QuotedText

/-!
# Compact text

The compact text of a value without floats determines the value. The first character tells its kind,
and a comma or a closing bracket tells where a number ends; so the items of an array, and the fields
of an object, are told apart one after the other.
-/

namespace Stencil.Json

mutual

/-- No number in the value is a float. -/
def WithoutFloats : Json → Prop
  | .number (.float _) => False
  | .array items => ItemsWithoutFloats items
  | .object fields => FieldsWithoutFloats fields
  | _ => True

def ItemsWithoutFloats : List Json → Prop
  | [] => True
  | v :: rest => v.WithoutFloats ∧ ItemsWithoutFloats rest

def FieldsWithoutFloats : Fields → Prop
  | [] => True
  | (_, v) :: rest => v.WithoutFloats ∧ FieldsWithoutFloats rest

end

/-- What may stand behind a value: nothing, a comma or a closing bracket. -/
def EndsValue (rest : List Char) : Prop := ∀ c ∈ rest.head?, c ∈ [',', ']', '\x7d']

inductive Kind where
  | null
  | bool (value : Bool)
  | number
  | string
  | array
  | object

def kind : Json → Kind
  | .null => .null
  | .bool value => .bool value
  | .number _ => .number
  | .string _ => .string
  | .array _ => .array
  | .object _ => .object

section OfKind

variable {v : Json}

theorem null_of_kind (h : v.kind = .null) : v = .null := by
  cases v <;> cases h
  rfl

theorem bool_of_kind {value : Bool} (h : v.kind = .bool value) : v = .bool value := by
  cases v <;> cases h
  rfl

theorem number_of_kind (h : v.kind = .number) : ∃ n, v = .number n := by
  cases v <;> cases h
  exact ⟨_, rfl⟩

theorem string_of_kind (h : v.kind = .string) : ∃ s, v = .string s := by
  cases v <;> cases h
  exact ⟨_, rfl⟩

theorem array_of_kind (h : v.kind = .array) : ∃ items, v = .array items := by
  cases v <;> cases h
  exact ⟨_, rfl⟩

theorem object_of_kind (h : v.kind = .object) : ∃ fields, v = .object fields := by
  cases v <;> cases h
  exact ⟨_, rfl⟩

end OfKind

/-- The kind of the value that a text begins with. -/
def kindAhead? : List Char → Option Kind
  | [] => none
  | 'n' :: _ => some .null
  | 't' :: _ => some (.bool true)
  | 'f' :: _ => some (.bool false)
  | '"' :: _ => some .string
  | '[' :: _ => some .array
  | '\x7b' :: _ => some .object
  | c :: _ => if isDigit c || c = '-' then some .number else none

theorem natural_char {n : Nat} {c : Char} (h : c ∈ n.repr.toList) : isDigit c = true := by
  rw [Nat.toList_repr] at h
  exact Nat.isDigit_of_mem_toDigits (by omega) (by omega) h

/-- An integer is written in digits, with a sign at most. -/
theorem integer_char {n : Int} {c : Char} (h : c ∈ (toString n).toList) :
    isDigit c = true ∨ c = '-' := by
  rw [Int.toString_eq_repr, Int.repr_eq_if] at h
  split at h
  · exact .inl (natural_char h)
  · rw [String.toList_append, List.mem_append] at h
    obtain hsign | hdigit := h
    · exact .inr (List.mem_singleton.1 hsign)
    · exact .inl (natural_char hdigit)

theorem integer_exists_cons (n : Int) : ∃ c cs, (toString n).toList = c :: cs := by
  apply List.exists_cons_of_ne_nil
  rw [Int.toString_eq_repr, Int.repr_eq_if]
  split
  · rw [Nat.toList_repr]
    exact Nat.toDigits_ne_nil
  · simp

theorem takeWhile_integer (n : Int) {rest : List Char} (h : EndsValue rest) :
    ((toString n).toList ++ rest).takeWhile (fun c => isDigit c || c == '-') =
      (toString n).toList := by
  rw [List.takeWhile_append_of_pos]
  · obtain _ | ⟨c, rest⟩ := rest
    · simp
    · have hc := h c rfl
      simp only [List.mem_cons, List.not_mem_nil, or_false] at hc
      obtain rfl | rfl | rfl := hc <;> simp [isDigit]
  · intro c hc
    simpa using integer_char hc

/-- A number ends where something else than a digit stands. -/
theorem integer_append_inj {m n : Int} {rest ahead : List Char} (hrest : EndsValue rest)
    (hahead : EndsValue ahead)
    (h : (toString m).toList ++ rest = (toString n).toList ++ ahead) : m = n ∧ rest = ahead := by
  have htext : (toString m).toList = (toString n).toList := by
    rw [← takeWhile_integer m hrest, h, takeWhile_integer n hahead]
  constructor
  · apply Int.repr_injective
    exact String.toList_injective htext
  · rw [htext] at h
    exact List.append_cancel_left h

theorem kindAhead?_number {c : Char} (h : isDigit c = true ∨ c = '-') (rest : List Char) :
    kindAhead? (c :: rest) = some .number := by
  unfold kindAhead?
  split <;> rename_i heq <;> cases heq
  all_goals try exact absurd h (by decide)
  rw [if_pos (by simpa using h)]

theorem kindAhead?_compact {v : Json} (h : v.WithoutFloats) (rest : List Char) :
    kindAhead? (v.compact.toList ++ rest) = some v.kind := by
  cases v with
  | null => rfl
  | bool value => cases value <;> rfl
  | number n =>
      cases n with
      | float value => exact h.elim
      | int n =>
          obtain ⟨c, cs, hcs⟩ := integer_exists_cons n
          have hc := integer_char (hcs ▸ List.mem_cons_self)
          simp only [compact, Number.text, hcs, List.cons_append]
          exact kindAhead?_number hc _
  | string s =>
      simp only [compact, toList_quote]
      rfl
  | array items => simp [compact, kindAhead?, kind]
  | object fields => simp [compact, kindAhead?, kind]

theorem toList_compact_array (items : List Json) (rest : List Char) :
    (compact (.array items)).toList ++ rest =
      '[' :: ((",".intercalate (compactItems items)).toList ++ ']' :: rest) := by
  simp [compact]

theorem toList_compact_object (fields : Fields) (rest : List Char) :
    (compact (.object fields)).toList ++ rest =
      '\x7b' :: ((",".intercalate (compactFields fields)).toList ++ '\x7d' :: rest) := by
  simp [compact]

/-- The items of a list behind commas. -/
def separated (texts : List String) : List Char := texts.flatMap fun text => ',' :: text.toList

theorem toList_intercalate_cons (text : String) (texts : List String) :
    (",".intercalate (text :: texts)).toList = text.toList ++ separated texts := by
  induction texts generalizing text with
  | nil => simp [separated]
  | cons next texts ih =>
      rw [String.intercalate_cons_cons, String.toList_append, ih]
      simp [separated]

theorem endsValue_separated (texts : List String) {c : Char} (hc : c = ']' ∨ c = '\x7d')
    (rest : List Char) : EndsValue (separated texts ++ c :: rest) := by
  intro d hd
  cases texts with
  | nil =>
      cases hd
      exact List.mem_cons_of_mem _ (by simpa using hc)
  | cons text texts =>
      cases hd
      exact List.mem_cons_self

theorem separated_cons (text : String) (texts : List String) (rest : List Char) :
    separated (text :: texts) ++ rest = ',' :: (text.toList ++ (separated texts ++ rest)) := by
  simp [separated]

/-- A text that begins with another character than `c`. -/
def StartsApartFrom (c : Char) (text : String) : Prop := ∃ d ds, text.toList = d :: ds ∧ d ≠ c

/-- Lists with the same text between brackets have the same text behind commas. -/
theorem separated_eq_of_intercalate {texts others : List String} {c : Char} {rest ahead : List Char}
    (htexts : ∀ text ∈ texts, StartsApartFrom c text)
    (hothers : ∀ text ∈ others, StartsApartFrom c text)
    (h : (",".intercalate texts).toList ++ c :: rest =
      (",".intercalate others).toList ++ c :: ahead) :
    separated texts ++ c :: rest = separated others ++ c :: ahead := by
  match texts, others with
  | [], [] => exact h
  | [], other :: _ =>
      obtain ⟨d, ds, hother, hd⟩ := hothers other List.mem_cons_self
      rw [toList_intercalate_cons, hother] at h
      exact absurd (List.head_eq_of_cons_eq h).symm hd
  | text :: _, [] =>
      obtain ⟨d, ds, htext, hd⟩ := htexts text List.mem_cons_self
      rw [toList_intercalate_cons, htext] at h
      exact absurd (List.head_eq_of_cons_eq h) hd
  | text :: texts, other :: others =>
      rw [toList_intercalate_cons, toList_intercalate_cons, List.append_assoc,
        List.append_assoc] at h
      rw [separated_cons, separated_cons, h]

theorem startsApartFrom_of_mem_compactItems {items : List Json} (h : ItemsWithoutFloats items) :
    ∀ text ∈ compactItems items, StartsApartFrom ']' text := by
  induction items with
  | nil => simp [compactItems]
  | cons v items ih =>
      intro text hmem
      obtain rfl | hmem := List.mem_cons.1 hmem
      · have hkind := kindAhead?_compact h.1 []
        rw [List.append_nil] at hkind
        match htext : v.compact.toList with
        | [] =>
            rw [htext] at hkind
            cases hkind
        | d :: ds =>
            refine ⟨d, ds, htext, ?_⟩
            rintro rfl
            rw [htext] at hkind
            cases hkind
      · exact ih h.2 text hmem

theorem startsApartFrom_of_mem_compactFields (fields : Fields) :
    ∀ text ∈ compactFields fields, StartsApartFrom '\x7d' text := by
  induction fields with
  | nil => simp [compactFields]
  | cons field fields ih =>
      intro text hmem
      obtain rfl | hmem := List.mem_cons.1 hmem
      · rw [StartsApartFrom, String.toList_append, String.toList_append, toList_quote]
        exact ⟨'"', _, rfl, by decide⟩
      · exact ih text hmem

mutual

/-- The compact text of a value tells what the value is and where it ends. -/
theorem compact_append_inj {v w : Json} {rest ahead : List Char} (hv : v.WithoutFloats)
    (hw : w.WithoutFloats) (hrest : EndsValue rest) (hahead : EndsValue ahead)
    (h : v.compact.toList ++ rest = w.compact.toList ++ ahead) : v = w ∧ rest = ahead := by
  have hkind : v.kind = w.kind := by
    apply Option.some.inj
    rw [← kindAhead?_compact hv rest, h, kindAhead?_compact hw ahead]
  -- the rest stays general, since a value inside brackets has all that follows it as its rest
  cases v with
  | null =>
      obtain rfl := null_of_kind hkind.symm
      exact ⟨rfl, List.append_cancel_left h⟩
  | bool a =>
      obtain rfl := bool_of_kind hkind.symm
      exact ⟨rfl, List.append_cancel_left h⟩
  | number m =>
      obtain ⟨n, rfl⟩ := number_of_kind hkind.symm
      match m, n with
      | .int m, .int n =>
          obtain ⟨rfl, hrests⟩ := integer_append_inj hrest hahead h
          exact ⟨rfl, hrests⟩
  | string s =>
      obtain ⟨t, rfl⟩ := string_of_kind hkind.symm
      obtain ⟨rfl, hrests⟩ := quote_append_inj h
      exact ⟨rfl, hrests⟩
  | array items =>
      obtain ⟨others, rfl⟩ := array_of_kind hkind.symm
      rw [toList_compact_array, toList_compact_array] at h
      have hseparated := separated_eq_of_intercalate (startsApartFrom_of_mem_compactItems hv)
        (startsApartFrom_of_mem_compactItems hw) (List.tail_eq_of_cons_eq h)
      obtain ⟨rfl, hrests⟩ := separated_items_inj hv hw hseparated
      exact ⟨rfl, hrests⟩
  | object fields =>
      obtain ⟨others, rfl⟩ := object_of_kind hkind.symm
      rw [toList_compact_object, toList_compact_object] at h
      have hseparated := separated_eq_of_intercalate (startsApartFrom_of_mem_compactFields fields)
        (startsApartFrom_of_mem_compactFields others) (List.tail_eq_of_cons_eq h)
      obtain ⟨rfl, hrests⟩ := separated_fields_inj hv hw hseparated
      exact ⟨rfl, hrests⟩

theorem separated_items_inj {items others : List Json} {rest ahead : List Char}
    (hitems : ItemsWithoutFloats items) (hothers : ItemsWithoutFloats others)
    (h : separated (compactItems items) ++ ']' :: rest =
      separated (compactItems others) ++ ']' :: ahead) : items = others ∧ rest = ahead := by
  match items, others with
  | [], [] => exact ⟨rfl, List.tail_eq_of_cons_eq h⟩
  | [], _ :: _ =>
      rw [compactItems, compactItems, separated_cons] at h
      cases h
  | _ :: _, [] =>
      rw [compactItems, compactItems, separated_cons] at h
      cases h
  | v :: items, w :: others =>
      rw [compactItems, compactItems, separated_cons, separated_cons] at h
      obtain ⟨rfl, htails⟩ := compact_append_inj hitems.1 hothers.1
        (endsValue_separated _ (.inl rfl) _) (endsValue_separated _ (.inl rfl) _)
        (List.tail_eq_of_cons_eq h)
      obtain ⟨rfl, hrests⟩ := separated_items_inj hitems.2 hothers.2 htails
      exact ⟨rfl, hrests⟩

theorem separated_fields_inj {fields others : Fields} {rest ahead : List Char}
    (hfields : FieldsWithoutFloats fields) (hothers : FieldsWithoutFloats others)
    (h : separated (compactFields fields) ++ '\x7d' :: rest =
      separated (compactFields others) ++ '\x7d' :: ahead) : fields = others ∧ rest = ahead := by
  match fields, others with
  | [], [] => exact ⟨rfl, List.tail_eq_of_cons_eq h⟩
  | [], (_, _) :: _ =>
      rw [compactFields, compactFields, separated_cons] at h
      cases h
  | (_, _) :: _, [] =>
      rw [compactFields, compactFields, separated_cons] at h
      cases h
  | (k, v) :: fields, (l, w) :: others =>
      rw [compactFields, compactFields, separated_cons, separated_cons] at h
      have hfield := List.tail_eq_of_cons_eq h
      simp only [String.toList_append, List.append_assoc] at hfield
      obtain ⟨rfl, hvalue⟩ := quote_append_inj hfield
      obtain ⟨rfl, htails⟩ := compact_append_inj hfields.1 hothers.1
        (endsValue_separated _ (.inr rfl) _) (endsValue_separated _ (.inr rfl) _)
        (List.append_cancel_left hvalue)
      obtain ⟨rfl, hrests⟩ := separated_fields_inj hfields.2 hothers.2 htails
      exact ⟨rfl, hrests⟩

end

/-- Values without floats that have the same compact text are the same. -/
theorem compact_injective {v w : Json} (hv : v.WithoutFloats) (hw : w.WithoutFloats)
    (h : v.compact = w.compact) : v = w := by
  have hends : EndsValue [] := by
    intro c hc
    cases hc
  exact (compact_append_inj hv hw hends hends (by rw [h])).1

end Stencil.Json
