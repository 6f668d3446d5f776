import Stencil.Proofs.ScannedTokens
import Stencil.Proofs.SignatureAgreement

/-!
# A check reports the first violation

Of all places where a value departs from a schema, a check reports the first, and its path names the
place as long as no key is empty. A signature has no empty key, since no name, reference or id in a
source is empty.
-/

namespace Stencil

namespace Component

variable {c : Component}

theorem signature_key_ne_empty {key : String} {schema : Schema}
    (h : c.signatureFields.get? key = some schema) : key ≠ "" := by
  obtain ⟨type, rfl⟩ := exists_tag_of_get? h
  obtain ⟨hloop, _⟩ | ⟨token, hmem, hkey, _⟩ := get?_cases h
  · obtain ⟨token, hmem, hid⟩ := List.mem_filterMap.1 hloop
    cases token <;> cases hid
    have hprintable : Inclusion.Printable _ := token_wellFormed hmem
    exact hprintable.id.1
  · exact (Token.reference_avoids (token_wellFormed hmem) hkey).1

theorem signature_ordered (c : Component) : c.signature.Ordered := by
  refine ⟨List.pairwise_map.2 c.signatureFields.ascending, Schema.orderedFields_iff.2 ?_⟩
  rintro ⟨key, schema⟩ hmem
  obtain ⟨type, rfl⟩ := exists_tag_of_get? (Dictionary.get?_eq_some_iff.2 hmem)
  trivial

/-- A signature asks for types only, each under a key that is not empty. -/
theorem signature_noEmptyKeys (c : Component) : c.signature.NoEmptyKeys := by
  apply Schema.noEmptyKeys_object
  rintro ⟨key, schema⟩ hmem
  have hget := Dictionary.get?_eq_some_iff.2 hmem
  obtain ⟨type, rfl⟩ := exists_tag_of_get? hget
  exact ⟨signature_key_ne_empty hget, Schema.noEmptyKeys_tag type⟩

end Component

/-- A check passes exactly the values that have the shape of the schema. For any other value it
reports the first place of the schema where the value departs from it: everything earlier is as the
schema asks, and the path is made of the keys that lead there. Signatures are schemas of this kind. -/
theorem Schema.check_first_violation :
    (∀ schema : Schema, schema.Ordered → schema.NoEmptyKeys → ∀ v : Json,
      (schema.check v = none ↔ schema.Conforms v) ∧
      ∀ violation, schema.check v = some violation →
        ∃ keys sub, violation.path = ".".intercalate keys ∧ violation.expected = sub.type ∧
          schema.FirstDeparture v keys sub violation.missing) ∧
    ∀ c : Component, c.signature.Ordered ∧ c.signature.NoEmptyKeys := by
  constructor
  · intro schema hordered hkeys v
    refine ⟨checkAt_eq_none_iff, ?_⟩
    intro violation h
    obtain ⟨keys, sub, hpath, hexpected, hfirst⟩ := checkAt_eq_some hordered h
    have hempty : "" ∉ keys := hkeys keys sub hfirst.place
    exact ⟨keys, sub, hpath.trans (foldl_pathTo hempty), hexpected, hfirst⟩
  · intro c
    exact ⟨c.signature_ordered, c.signature_noEmptyKeys⟩

/-- A post by an author who has a name and an age. -/
def postSchema : Schema :=
  .object [("author", .object [("age", .tag .number), ("name", .tag .string)]),
    ("tags", .tag .object), ("title", .tag .string)]

/-- The age of the author is missing, which comes before the title that is no text. -/
theorem Schema.check_first_violation_post :
    (∃ keys sub, "author.age" = ".".intercalate keys ∧ PropType.number = sub.type ∧
      postSchema.FirstDeparture (.object [("title", .null), ("tags", .array []),
        ("author", .object [("name", .string "Ann")])]) keys sub true) ∧
    postSchema.Conforms (.object [("title", .string "Post"), ("tags", .array []), ("more", .null),
      ("author", .object [("name", .string "Ann"), ("age", .nat 31)])]) := by
  have hordered : postSchema.Ordered := by
    simp only [postSchema, Schema.Ordered, Schema.OrderedFields]
    decide
  have hkeys : postSchema.NoEmptyKeys := by
    have htag := Schema.noEmptyKeys_tag
    apply Schema.noEmptyKeys_object
    have hauthor : (Schema.object [("age", .tag .number), ("name", .tag .string)]).NoEmptyKeys :=
      Schema.noEmptyKeys_object (by simp [htag])
    simp [htag, hauthor]
  have hcheck := Schema.check_first_violation.1 postSchema hordered hkeys
  constructor
  · exact (hcheck _).2 ⟨"author.age", .number, true⟩ (by decide)
  · exact (hcheck _).1.1 (by decide)

end Stencil
