import Stencil.Proofs.CanonicalText
import Stencil.Proofs.SchemaPlaces

/-!
# JSON forms are read back

Tokens and schemas are written as JSON in three ways: with the tag among the fields, with the tag
beside the content, and with no tag at all. Each is read back to what was written, in whatever order
the fields of objects come. So no two tokens and no two schemas have one form, and a schema with a
key that spells a type is not taken for the type.
-/

namespace Stencil

open Json (Record)

namespace Json

variable {v : Json} {fields others : Fields}

section Inversion

theorem SameUpToOrder.eq_string {s : String} (h : v.SameUpToOrder (.string s)) : v = .string s := by
  cases h
  rfl

/-- What is the same as an array is an array of items that are the same one by one. -/
theorem SameUpToOrder.exists_items {others : List Json} (h : v.SameUpToOrder (.array others)) :
    ∃ items, v = .array items ∧ List.Forall₂ SameUpToOrder items others := by
  induction others generalizing v with
  | nil =>
      cases h
      exact ⟨[], rfl, .nil⟩
  | cons w others ih =>
      cases h with
      | @cons v _ items _ head tail =>
          obtain ⟨_, hitems, hsame⟩ := ih tail
          cases hitems
          exact ⟨v :: items, rfl, .cons head hsame⟩

/-- A field with the same key and the same value. -/
def SameField (e f : String × Json) : Prop := e.1 = f.1 ∧ e.2.SameUpToOrder f.2

theorem forall₂_sameField (keys : fields.map (·.1) = others.map (·.1))
    (values : List.Forall₂ SameUpToOrder (fields.map (·.2)) (others.map (·.2))) :
    List.Forall₂ SameField fields others := by
  induction fields generalizing others with
  | nil =>
      obtain rfl := List.map_eq_nil_iff.1 keys.symm
      exact .nil
  | cons e fields ih =>
      obtain ⟨f, others, rfl, hkey, hkeys⟩ := List.map_eq_cons_iff.1 keys.symm
      obtain ⟨hvalue, hvalues⟩ := List.forall₂_cons.1 values
      exact .cons ⟨hkey.symm, hvalue⟩ (ih hkeys.symm hvalues)

/-- What is the same as an object is an object that has the same fields in some order. -/
theorem SameUpToOrder.exists_fields (h : v.SameUpToOrder (.object others)) :
    ∃ fields middle, v = .object fields ∧ fields.Perm middle ∧
      middle.map (·.1) = others.map (·.1) ∧ List.Forall₂ SameField middle others := by
  cases h with
  | @object fields middle _ perm keys values =>
      obtain ⟨items, hitems, hsame⟩ := values.exists_items
      cases hitems
      exact ⟨fields, middle, rfl, perm, keys, forall₂_sameField keys hsame⟩

theorem lookup_of_forall₂ (h : List.Forall₂ SameField fields others) {key : String} {w : Json}
    (hlookup : others.lookup key = some w) :
    ∃ v, fields.lookup key = some v ∧ v.SameUpToOrder w := by
  induction h with
  | nil => cases hlookup
  | @cons e f fields others hfield tail ih =>
      obtain ⟨k, v⟩ := e
      obtain ⟨_, u⟩ := f
      obtain ⟨rfl, hsame⟩ := hfield
      rw [Dictionary.lookup_cons_ite] at hlookup ⊢
      split at hlookup
      · cases hlookup
        exact ⟨v, if_pos ‹_›, hsame⟩
      · rw [if_neg ‹_›]
        exact ih hlookup

/-- Look-ups by distinct keys do not see the order of the fields, and texts are the same at once. -/
theorem SameUpToOrder.exists_record (h : v.SameUpToOrder (.object others))
    (distinct : (others.map (·.1)).Nodup) :
    ∃ fields, v = .object fields ∧
      (∀ key w, others.lookup key = some w →
        ∃ u, fields.lookup key = some u ∧ u.SameUpToOrder w) ∧
      ∀ key s, others.lookup key = some (.string s) → fields.lookup key = some (.string s) := by
  obtain ⟨fields, middle, rfl, perm, keys, hsame⟩ := h.exists_fields
  have hlookup : ∀ key w, others.lookup key = some w →
      ∃ u, fields.lookup key = some u ∧ u.SameUpToOrder w := by
    intro key w hw
    obtain ⟨u, hu, hvalue⟩ := lookup_of_forall₂ hsame hw
    refine ⟨u, ?_, hvalue⟩
    rw [← hu]
    exact Dictionary.lookup_eq_of_perm ((perm.map _).nodup_iff.2 (keys ▸ distinct)) perm key
  refine ⟨fields, rfl, hlookup, ?_⟩
  intro key s hs
  obtain ⟨u, hu, hvalue⟩ := hlookup key _ hs
  rw [hu, hvalue.eq_string]

theorem SameUpToOrder.array_refl {items : List Json} (h : ∀ v ∈ items, v.SameUpToOrder v) :
    SameUpToOrder (.array items) (.array items) := by
  induction items with
  | nil => exact .nil
  | cons v items ih =>
      obtain ⟨hv, hitems⟩ := List.forall_mem_cons.1 h
      exact .cons hv (ih hitems)

@[refl]
theorem SameUpToOrder.refl (v : Json) : v.SameUpToOrder v := by
  induction v using Json.induction with
  | null => exact .null
  | bool => exact .bool
  | number => exact .number
  | string => exact .string
  | array items ih => exact array_refl ih
  | object fields ih =>
      refine .object (.refl fields) rfl (array_refl ?_)
      intro v hv
      obtain ⟨e, he, rfl⟩ := List.mem_map.1 hv
      exact ih e he

end Inversion

/-- A list is read back from its written items, one by one. -/
theorem mapM_of_forall₂ {α : Type} {write : α → Json} {read : Json → Option α}
    (each : ∀ {a v}, v.SameUpToOrder (write a) → read v = some a) {items : List Json} {list : List α}
    (h : List.Forall₂ SameUpToOrder items (list.map write)) : items.mapM read = some list := by
  induction list generalizing items with
  | nil =>
      cases h
      rfl
  | cons a list ih =>
      rw [List.map_cons, List.forall₂_cons_right_iff] at h
      obtain ⟨v, items, hv, hitems, rfl⟩ := h
      rw [List.mapM_cons, each hv, ih hitems]
      rfl

theorem arrayOf?_of_same {α : Type} {write : α → Json} {read : Json → Option α}
    (each : ∀ {a v}, v.SameUpToOrder (write a) → read v = some a) {list : List α}
    (h : v.SameUpToOrder (.array (list.map write))) : arrayOf? read v = some list := by
  obtain ⟨items, rfl, hsame⟩ := h.exists_items
  exact mapM_of_forall₂ each hsame

namespace Record

variable {name text : String}

theorem tagged?_named (tag? : Json → Option String) {tag : String}
    (htag : tag? (.string tag) = some tag) (h : fields.lookup name = some (.string tag)) :
    (named fields).tagged? tag? name = some (tag, .named fields) := by
  simp only [tagged?, h, htag, Option.bind_eq_bind, Option.bind_some]

theorem text?_named (place : Nat) (h : fields.lookup name = some (.string text)) :
    (named fields).text? place name = some text := by
  simp only [text?, field?, h, Option.bind_eq_bind, Option.bind_some, string?]

end Record

end Json

variable {v : Json}

theorem PropType.ofJson?_of_same {type : PropType} (h : v.SameUpToOrder type.toJson) :
    ofJson? v = some type := by
  rw [h.eq_string]
  exact ofKeyword?_eq_some_iff.2 rfl

theorem PropType.ofField?_of_same {type : PropType} (h : v.SameUpToOrder type.toJson) :
    ofField? v = some type := by
  rw [h.eq_string]
  exact ofKeyword?_eq_some_iff.2 rfl

theorem Fragment.ofJson?_of_same {fragment : Fragment} (h : v.SameUpToOrder fragment.toJson) :
    ofJson? v = some fragment := by
  cases fragment with
  | literal text =>
      obtain ⟨fields, rfl, _, htext⟩ := h.exists_record (by simp)
      simp only [ofJson?, htext "type" _ rfl, htext "value" _ rfl]
      rfl
  | prop name =>
      obtain ⟨fields, rfl, _, htext⟩ := h.exists_record (by simp)
      simp only [ofJson?, htext "type" _ rfl, htext "value" _ rfl]
      rfl

/-- An argument is read back, whichever spellings of its kind are taken, if its own is. -/
theorem Argument.read?_of_same {kind? : Json → Option String}
    (hkind : ∀ kind, kind? (.string kind) = some kind) {argument : Argument}
    (h : v.SameUpToOrder argument.toJson) : read? kind? v = some argument := by
  cases argument with
  | named name fragments =>
      obtain ⟨fields, rfl, hlookup, htext⟩ := h.exists_record (by simp)
      obtain ⟨items, hitems, hsame⟩ := hlookup "fragments" _ rfl
      have htag := Record.tagged?_named kind? (hkind "named") (htext "kind" _ rfl)
      have hname := Record.text?_named 0 (htext "name" _ rfl)
      have hread : Json.arrayOf? Fragment.ofJson? items = some fragments :=
        Json.arrayOf?_of_same Fragment.ofJson?_of_same hsame
      simp only [read?, Record.ofJson?, Record.within?, Record.field?, Option.bind_eq_bind,
        Option.bind_some, htag, hname, hitems, hread]
  | wildcard =>
      obtain ⟨fields, rfl, _, htext⟩ := h.exists_record (by simp)
      have htag := Record.tagged?_named kind? (hkind "wildcard") (htext "kind" _ rfl)
      simp only [read?, Record.ofJson?, Record.within?, Option.bind_eq_bind, Option.bind_some, htag]

theorem Inclusion.ofRecord?_of_same {inclusion : Inclusion} {tag : String}
    (h : v.SameUpToOrder (.object (("type", .string tag) :: inclusion.toFields))) :
    ∃ fields, v = .object fields ∧ fields.lookup "type" = some (.string tag) ∧
      ofRecord? (.named fields) = some inclusion := by
  obtain ⟨fields, rfl, hlookup, htext⟩ := h.exists_record (by simp [toFields])
  refine ⟨fields, rfl, htext "type" _ rfl, ?_⟩
  obtain ⟨items, hitems, hsame⟩ := hlookup "args" _ rfl
  have hname := Record.text?_named 0 (htext "name" _ rfl)
  have hid := Record.text?_named 1 (htext "id" _ rfl)
  have hread : Json.arrayOf? Argument.ofField? items = some inclusion.arguments :=
    Json.arrayOf?_of_same (Argument.read?_of_same fun _ => rfl) hsame
  simp only [ofRecord?, Record.within?, Record.field?, Option.bind_eq_bind, Option.bind_some, hname,
    hid, hitems, hread]

theorem Token.ofJson?_of_same {token : Token} (h : v.SameUpToOrder token.toJson) :
    ofJson? v = some token := by
  cases token with
  | literal text =>
      obtain ⟨fields, rfl, _, htext⟩ := h.exists_record (by simp)
      have htag := Record.tagged?_named Json.string? rfl (htext "type" _ rfl)
      have hread := Record.text?_named 0 (htext "text" _ rfl)
      simp only [ofJson?, Record.ofJson?, Record.within?, Option.bind_eq_bind, Option.bind_some, htag,
        hread]
  | prop name type =>
      obtain ⟨fields, rfl, hlookup, htext⟩ := h.exists_record (by simp)
      obtain ⟨w, hw, hsame⟩ := hlookup "prop_type" _ rfl
      have htag := Record.tagged?_named Json.string? rfl (htext "type" _ rfl)
      have hread := Record.text?_named 0 (htext "name" _ rfl)
      simp only [ofJson?, Record.ofJson?, Record.within?, Record.field?, Option.bind_eq_bind,
        Option.bind_some, htag, hread, hw, PropType.ofField?_of_same hsame]
  | «attribute» name =>
      obtain ⟨fields, rfl, _, htext⟩ := h.exists_record (by simp)
      have htag := Record.tagged?_named Json.string? rfl (htext "type" _ rfl)
      have hread := Record.text?_named 0 (htext "name" _ rfl)
      simp only [ofJson?, Record.ofJson?, Record.within?, Option.bind_eq_bind, Option.bind_some, htag,
        hread]
  | forwarded =>
      obtain ⟨fields, rfl, _, htext⟩ := h.exists_record (by simp)
      have htag := Record.tagged?_named Json.string? rfl (htext "type" _ rfl)
      simp only [ofJson?, Record.ofJson?, Record.within?, Option.bind_eq_bind, Option.bind_some, htag]
  | single inclusion =>
      obtain ⟨fields, rfl, hlookup, hread⟩ := Inclusion.ofRecord?_of_same h
      have htag := Record.tagged?_named Json.string? rfl hlookup
      simp only [ofJson?, Record.ofJson?, Option.bind_eq_bind, Option.bind_some, htag, hread]
  | repeated inclusion =>
      obtain ⟨fields, rfl, hlookup, hread⟩ := Inclusion.ofRecord?_of_same h
      have htag := Record.tagged?_named Json.string? rfl hlookup
      simp only [ofJson?, Record.ofJson?, Option.bind_eq_bind, Option.bind_some, htag, hread]

namespace Schema

variable {schema : Schema} {fields : List (String × Schema)} {forms : Json.Fields}

theorem fieldsToJson_eq (fields : List (String × Schema)) :
    fieldsToJson fields = fields.map fun e => (e.1, e.2.toJson) := by
  induction fields with
  | nil => rfl
  | cons e rest ih =>
      rw [fieldsToJson, ih]
      rfl

/-- A field of a written schema, and the field that it is read as. -/
def ReadAs (form : String × Json) (e : String × Schema) : Prop :=
  form.1 = e.1 ∧ ofJson? form.2 = some e.2

theorem fieldsOfJson?_eq_some (h : List.Forall₂ ReadAs forms fields) :
    fieldsOfJson? forms = some fields := by
  induction h with
  | nil => rfl
  | @cons form e forms fields head tail ih =>
      obtain ⟨key, v⟩ := form
      obtain ⟨_, schema⟩ := e
      obtain ⟨rfl, hread⟩ := head
      rw [fieldsOfJson?, hread, ih]
      rfl

theorem forall₂_readAs (h : List.Forall₂ Json.SameField forms (fieldsToJson fields))
    (each : ∀ e ∈ fields, ∀ v, v.SameUpToOrder e.2.toJson → ofJson? v = some e.2) :
    List.Forall₂ ReadAs forms fields := by
  rw [fieldsToJson_eq, List.forall₂_map_right_iff] at h
  rw [List.forall₂_iff_zip] at h ⊢
  refine ⟨h.1, ?_⟩
  intro form e hmem
  obtain ⟨hkey, hvalue⟩ := h.2 hmem
  exact ⟨hkey, each e (List.of_mem_zip hmem).2 _ hvalue⟩

/-- No value in a written schema is null, so its one key is not taken for a type. -/
theorem not_keyword_of_same (h : (Json.object forms).SameUpToOrder (.object (fieldsToJson fields))) :
    PropType.ofJson? (.object forms) = none := by
  have hword : ∀ key, forms ≠ [(key, .null)] := by
    rintro key rfl
    obtain ⟨_, middle, heq, perm, _, hsame⟩ := h.exists_fields
    cases heq
    rw [List.singleton_perm] at perm
    subst perm
    rw [fieldsToJson_eq, List.forall₂_map_right_iff] at hsame
    obtain ⟨⟨_, written⟩, _, ⟨_, hnull⟩, _⟩ := List.forall₂_cons_left_iff.1 hsame
    cases written <;> rw [toJson] at hnull <;> cases hnull
  have hnone : Json.word? (.object forms) = none := by
    rw [Json.word?]
    · simp
    · intro key hforms
      exact hword key (Json.object.inj hforms)
  rw [PropType.ofJson?, hnone]
  rfl

theorem ofJson?_of_same (hordered : schema.Ordered) (h : v.SameUpToOrder schema.toJson) :
    ofJson? v = some schema := by
  induction schema using Schema.induction generalizing v with
  | tag type =>
      rw [toJson] at h
      have hread := PropType.ofJson?_of_same h
      rw [h.eq_string] at hread ⊢
      rw [ofJson?, hread]
      · rfl
      · intro fields hfields
        cases hfields
  | object fields ih =>
      obtain ⟨hascend, hbelow⟩ := hordered
      rw [toJson] at h
      obtain ⟨forms, middle, rfl, perm, _, hsame⟩ := h.exists_fields
      have hmiddle : List.Forall₂ ReadAs middle fields := by
        apply forall₂_readAs hsame
        intro e he v hv
        exact ih e he (orderedFields_iff.1 hbelow e he) hv
      obtain ⟨read, hread, hperm⟩ := List.perm_comp_forall₂ perm hmiddle
      have hentries : Dictionary.ofList read = ⟨fields, List.pairwise_map.1 hascend⟩ :=
        Dictionary.ofList_eq_of_perm hperm
      rw [ofJson?, not_keyword_of_same h, fieldsOfJson?_eq_some hread]
      exact congrArg (fun d : Dictionary Schema => some (Schema.object d.entries)) hentries

theorem toJson_withoutFloats (schema : Schema) : schema.toJson.WithoutFloats := by
  induction schema using Schema.induction with
  | tag type =>
      rw [toJson]
      trivial
  | object fields ih =>
      rw [toJson, fieldsToJson_eq, Json.WithoutFloats, Json.fieldsWithoutFloats_iff]
      intro form hform
      obtain ⟨e, he, rfl⟩ := List.mem_map.1 hform
      exact ih e he

end Schema

theorem Argument.toJson_withoutFloats (argument : Argument) : argument.toJson.WithoutFloats := by
  cases argument with
  | named name fragments =>
      refine ⟨trivial, trivial, ?_, trivial⟩
      rw [Json.WithoutFloats, Json.itemsWithoutFloats_iff]
      intro form hform
      obtain ⟨fragment, _, rfl⟩ := List.mem_map.1 hform
      cases fragment <;> exact ⟨trivial, trivial, trivial⟩
  | wildcard => exact ⟨trivial, trivial⟩

theorem Inclusion.toFields_withoutFloats (inclusion : Inclusion) :
    Json.FieldsWithoutFloats inclusion.toFields := by
  refine ⟨trivial, trivial, ?_, trivial⟩
  rw [Json.WithoutFloats, Json.itemsWithoutFloats_iff]
  intro form hform
  obtain ⟨argument, _, rfl⟩ := List.mem_map.1 hform
  exact argument.toJson_withoutFloats

theorem Token.toJson_withoutFloats (token : Token) : token.toJson.WithoutFloats := by
  cases token with
  | single inclusion => exact ⟨trivial, inclusion.toFields_withoutFloats⟩
  | repeated inclusion => exact ⟨trivial, inclusion.toFields_withoutFloats⟩
  | prop => exact ⟨trivial, trivial, trivial, trivial⟩
  | forwarded => exact ⟨trivial, trivial⟩
  | _ => exact ⟨trivial, trivial, trivial⟩

/-- What is read back from its form, and has a form without floats, has a text of its own. -/
theorem Json.eq_of_compact_eq {α : Type} {write : α → Json} {read : Json → Option α} {a b : α}
    (ha : read (write a) = some a) (hb : read (write b) = some b)
    (floats : ∀ c, (write c).WithoutFloats) (h : (write a).compact = (write b).compact) : a = b := by
  have hwrite : write a = write b := compact_injective (floats a) (floats b) h
  rw [hwrite, hb] at ha
  exact (Option.some.inj ha).symm

/-- Tokens and schemas are read back from what they are written as, also when the fields of its
objects have been put into another order. So two different ones are never written as the same value,
and not even as the same text. A schema has its keys in ascending order at every level, as schemas
are kept; they may be any texts, those of types among them. -/
theorem json_forms_read_back :
    (∀ token : Token, Token.ofJson? token.toJson = some token ∧
      ∀ v : Json, v.SameUpToOrder token.toJson → Token.ofJson? v = some token) ∧
    (∀ token other : Token, token ≠ other →
      token.toJson ≠ other.toJson ∧ token.toJson.compact ≠ other.toJson.compact) ∧
    (∀ schema : Schema, schema.Ordered → Schema.ofJson? schema.toJson = some schema ∧
      ∀ v : Json, v.SameUpToOrder schema.toJson → Schema.ofJson? v = some schema) ∧
    ∀ schema other : Schema, schema.Ordered → other.Ordered → schema ≠ other →
      schema.toJson ≠ other.toJson ∧ schema.toJson.compact ≠ other.toJson.compact := by
  refine ⟨?_, ?_, ?_, ?_⟩
  · intro token
    exact ⟨Token.ofJson?_of_same (.refl _), fun v h => Token.ofJson?_of_same h⟩
  · intro token other hne
    have htext : token.toJson.compact ≠ other.toJson.compact := by
      intro h
      exact hne (Json.eq_of_compact_eq (Token.ofJson?_of_same (.refl _))
        (Token.ofJson?_of_same (.refl _)) Token.toJson_withoutFloats h)
    exact ⟨fun h => htext (congrArg Json.compact h), htext⟩
  · intro schema hordered
    exact ⟨Schema.ofJson?_of_same hordered (.refl _), fun v h => Schema.ofJson?_of_same hordered h⟩
  · intro schema other hschema hother hne
    have htext : schema.toJson.compact ≠ other.toJson.compact := by
      intro h
      exact hne (Json.eq_of_compact_eq (Schema.ofJson?_of_same hschema (.refl _))
        (Schema.ofJson?_of_same hother (.refl _)) Schema.toJson_withoutFloats h)
    exact ⟨fun h => htext (congrArg Json.compact h), htext⟩

/-- A schema whose keys are keywords, one of them the only key of its object. -/
def keywordSchema : Schema :=
  .object [("any", .tag .number), ("string", .object [("string", .tag .string)])]

/-- A key that spells a type is read as a key, and a text that spells it as the type, in whichever
order the keys come. -/
theorem json_forms_read_back_keywords :
    keywordSchema.Ordered ∧
      Schema.ofJson? (.object [("string", .object [("string", .string "string")]),
        ("any", .string "number")]) = some keywordSchema ∧
      keywordSchema.toJson.compact ≠ (Schema.tag .string).toJson.compact := by
  have hordered : keywordSchema.Ordered := by
    simp only [keywordSchema, Schema.Ordered, Schema.OrderedFields]
    decide
  have hne : keywordSchema ≠ .tag .string := by simp [keywordSchema]
  obtain ⟨_, _, reads, differ⟩ := json_forms_read_back
  refine ⟨hordered, ?_, ?_⟩
  · apply (reads keywordSchema hordered).2
    simp only [keywordSchema, Schema.toJson, Schema.fieldsToJson]
    exact .object (.swap _ _ _) rfl (.cons .string (.cons (.refl _) .nil))
  · exact (differ keywordSchema (.tag .string) hordered trivial hne).2

end Stencil
