import Stencil.Proofs.ByteOrder
import Stencil.Proofs.CompactText

/-!
# Canonical text

The canonical text of a value is the compact text of its sorted form. Values have one sorted form if
and only if they differ in nothing but the order of the fields of objects, and compact text tells
values without floats apart. In the sorted form the keys of every object ascend, by code point and
so by the bytes of UTF-8.
-/

namespace Stencil

/-- Under distinct keys a dictionary has the entries of the list, in another order. -/
theorem Dictionary.entries_ofList_perm {α : Type} {entries : List (String × α)}
    (distinct : (entries.map (·.1)).Nodup) : (ofList entries).entries.Perm entries := by
  apply (List.perm_ext_iff_of_nodup (.of_map _ (keys_nodup _)) (.of_map _ distinct)).2
  rintro ⟨k, v⟩
  have hreverse : (entries.reverse.map (·.1)).Nodup := by
    rw [List.map_reverse]
    exact List.nodup_reverse.2 distinct
  rw [← get?_eq_some_iff, get?_ofList, lookup_eq_some_iff hreverse, List.mem_reverse]

/-- Under distinct keys lists with the same entries make the same dictionary. -/
theorem Dictionary.ofList_congr {α : Type} {entries others : List (String × α)}
    (distinct : (entries.map (·.1)).Nodup) (perm : entries.Perm others) :
    ofList entries = ofList others :=
  ofList_eq_of_perm (perm.trans (entries_ofList_perm ((perm.map _).nodup_iff.1 distinct)).symm)

theorem Dictionary.mem_of_mem_ofList {α : Type} {entries : List (String × α)} {e : String × α}
    (h : e ∈ (ofList entries).entries) : e ∈ entries := by
  rw [← get?_eq_some_iff, get?_ofList] at h
  obtain ⟨front, back, hentries, _⟩ := List.lookup_eq_some_iff.1 h
  rw [← List.mem_reverse, hentries]
  simp

namespace Json

/-- Two values are the same up to the order of the fields of objects, at every level: the items of
arrays agree one by one, and fields agree one by one once they are put into a fitting order. -/
inductive SameUpToOrder : Json → Json → Prop
  | null : SameUpToOrder .null .null
  | bool {value} : SameUpToOrder (.bool value) (.bool value)
  | number {n} : SameUpToOrder (.number n) (.number n)
  | string {s} : SameUpToOrder (.string s) (.string s)
  | nil : SameUpToOrder (.array []) (.array [])
  | cons {v w items others} (head : SameUpToOrder v w)
      (tail : SameUpToOrder (.array items) (.array others)) :
      SameUpToOrder (.array (v :: items)) (.array (w :: others))
  | object {fields middle others : Fields} (perm : fields.Perm middle)
      (keys : middle.map (·.1) = others.map (·.1))
      (values : SameUpToOrder (.array (middle.map (·.2))) (.array (others.map (·.2)))) :
      SameUpToOrder (.object fields) (.object others)

/-- In every object of the value the keys stand in ascending order of their bytes. -/
inductive KeysAscend : Json → Prop
  | null : KeysAscend .null
  | bool {value} : KeysAscend (.bool value)
  | number {n} : KeysAscend (.number n)
  | string {s} : KeysAscend (.string s)
  | array {items : List Json} (each : ∀ v ∈ items, KeysAscend v) : KeysAscend (.array items)
  | object {fields : Fields} (ascend : (fields.map fun e => utf8Bytes e.1).Pairwise (· < ·))
      (each : ∀ e ∈ fields, KeysAscend e.2) : KeysAscend (.object fields)

/-- A value is a leaf, an array of values or an object of values that a property may be assumed
of. -/
@[elab_as_elim]
theorem induction {motive : Json → Prop} (null : motive .null) (bool : ∀ b, motive (.bool b))
    (number : ∀ n, motive (.number n)) (string : ∀ s, motive (.string s))
    (array : ∀ items : List Json, (∀ v ∈ items, motive v) → motive (.array items))
    (object : ∀ fields : Fields, (∀ e ∈ fields, motive e.2) → motive (.object fields)) :
    ∀ v, motive v
  | .null => null
  | .bool b => bool b
  | .number n => number n
  | .string s => string s
  | .array items => array items fun v _ => induction null bool number string array object v
  | .object fields => object fields fun e _ => induction null bool number string array object e.2
termination_by v => sizeOf v
decreasing_by
  · have hlt := List.sizeOf_lt_of_mem ‹v ∈ items›
    simp only [Json.array.sizeOf_spec]
    omega
  · have hlt := List.sizeOf_lt_of_mem ‹e ∈ fields›
    obtain ⟨key, value⟩ := e
    simp only [Prod.mk.sizeOf_spec, Json.object.sizeOf_spec] at hlt ⊢
    omega

variable {v w : Json} {items others : List Json} {fields : Fields}

section Lists

theorem sortedItems_eq (items : List Json) : sortedItems items = items.map sorted := by
  induction items with
  | nil => rfl
  | cons v rest ih => rw [sortedItems, ih, List.map_cons]

theorem sortedFields_eq (fields : Fields) :
    sortedFields fields = fields.map fun e => (e.1, e.2.sorted) := by
  induction fields with
  | nil => rfl
  | cons e rest ih => rw [sortedFields, ih, List.map_cons]

theorem keys_sortedFields (fields : Fields) :
    (sortedFields fields).map (·.1) = fields.map (·.1) := by
  rw [sortedFields_eq, List.map_map]
  rfl

theorem distinctItems_iff : DistinctItems items ↔ ∀ v ∈ items, v.Distinct := by
  induction items with
  | nil => simp [DistinctItems]
  | cons v rest ih => rw [DistinctItems, ih, List.forall_mem_cons]

theorem distinctFields_iff : DistinctFields fields ↔ ∀ e ∈ fields, e.2.Distinct := by
  induction fields with
  | nil => simp [DistinctFields]
  | cons e rest ih => rw [DistinctFields, ih, List.forall_mem_cons]

theorem itemsWithoutFloats_iff : ItemsWithoutFloats items ↔ ∀ v ∈ items, v.WithoutFloats := by
  induction items with
  | nil => simp [ItemsWithoutFloats]
  | cons v rest ih => rw [ItemsWithoutFloats, ih, List.forall_mem_cons]

theorem fieldsWithoutFloats_iff : FieldsWithoutFloats fields ↔ ∀ e ∈ fields, e.2.WithoutFloats := by
  induction fields with
  | nil => simp [FieldsWithoutFloats]
  | cons e rest ih => rw [FieldsWithoutFloats, ih, List.forall_mem_cons]

theorem values_sortedFields (fields : Fields) :
    (sortedFields fields).map (·.2) = (fields.map (·.2)).map sorted := by
  rw [sortedFields_eq, List.map_map, List.map_map]
  rfl

/-- Under distinct keys a sorted object has its fields, sorted below, in another order. -/
theorem perm_sortedFields (distinct : (fields.map (·.1)).Nodup) :
    (Dictionary.ofList (sortedFields fields)).entries.Perm (sortedFields fields) := by
  apply Dictionary.entries_ofList_perm
  rwa [keys_sortedFields]

/-- The fields of a sorted object are fields of the object, sorted below. -/
theorem mem_of_mem_sorted {e : String × Json}
    (h : e ∈ (Dictionary.ofList (sortedFields fields)).entries) :
    ∃ f ∈ fields, e = (f.1, f.2.sorted) := by
  have hmem := Dictionary.mem_of_mem_ofList h
  rw [sortedFields_eq] at hmem
  obtain ⟨f, hf, rfl⟩ := List.mem_map.1 hmem
  exact ⟨f, hf, rfl⟩

end Lists

theorem sorted_withoutFloats (h : v.WithoutFloats) : v.sorted.WithoutFloats := by
  induction v using Json.induction with
  | array items ih =>
      have hitems := itemsWithoutFloats_iff.1 h
      rw [sorted, sortedItems_eq]
      apply itemsWithoutFloats_iff.2
      exact List.forall_mem_map.2 fun v hv => ih v hv (hitems v hv)
  | object fields ih =>
      have hfields := fieldsWithoutFloats_iff.1 h
      apply fieldsWithoutFloats_iff.2
      intro e he
      obtain ⟨f, hf, rfl⟩ := mem_of_mem_sorted he
      exact ih f hf (hfields f hf)
  | _ => exact h

theorem sorted_keysAscend (v : Json) : v.sorted.KeysAscend := by
  induction v using Json.induction with
  | null => exact .null
  | bool b => exact .bool
  | number n => exact .number
  | string s => exact .string
  | array items ih =>
      rw [sorted, sortedItems_eq]
      exact .array (List.forall_mem_map.2 ih)
  | object fields ih =>
      apply KeysAscend.object
      · apply List.pairwise_map.2
        exact (Dictionary.ascending _).imp utf8Bytes_lt_of_lt
      · intro e he
        obtain ⟨f, hf, rfl⟩ := mem_of_mem_sorted he
        exact ih f hf

theorem KeysAscend.pairwise (h : (Json.object fields).KeysAscend) :
    fields.Pairwise (·.1 < ·.1) := by
  cases h with
  | object ascend each => exact (List.pairwise_map.1 ascend).imp lt_iff_utf8Bytes_lt.2

theorem KeysAscend.distinct (h : v.KeysAscend) : v.Distinct := by
  induction h with
  | array each ih => exact distinctItems_iff.2 ih
  | object ascend each ih =>
      refine ⟨?_, distinctFields_iff.2 ih⟩
      exact List.pairwise_map.2 ((KeysAscend.object ascend each).pairwise.imp String.ne_of_lt)
  | _ => trivial

/-- Where the keys ascend already, there is nothing to sort. -/
theorem KeysAscend.sorted_eq (h : v.KeysAscend) : v.sorted = v := by
  induction h with
  | array each ih =>
      rw [sorted, sortedItems_eq, List.map_congr_left ih, List.map_id']
  | @object fields ascend each ih =>
      have hfields : sortedFields fields = fields := by
        rw [sortedFields_eq]
        refine (List.map_congr_left fun e he => ?_).trans (List.map_id fields)
        rw [ih e he]
        rfl
      let d : Dictionary Json := ⟨fields, (KeysAscend.object ascend each).pairwise⟩
      have hd : Dictionary.ofList fields = d := Dictionary.ofList_eq_of_perm (.refl fields)
      rw [sorted, hfields, hd]
  | _ => rfl

section Order

theorem sortedFields_eq_zip (fields : Fields) :
    sortedFields fields = (fields.map (·.1)).zip ((fields.map (·.2)).map sorted) := by
  rw [sortedFields_eq, List.map_map, List.zip_map']
  rfl

theorem sorted_eq_of_sameUpToOrder (h : v.SameUpToOrder w) (distinct : v.Distinct) :
    v.sorted = w.sorted := by
  induction h with
  | cons head tail ihHead ihTail =>
      have hhead := ihHead distinct.1
      have htail := Json.array.inj (ihTail distinct.2)
      rw [sorted, sorted, sortedItems, sortedItems, hhead, htail]
  | @object fields middle others perm keys values ih =>
      obtain ⟨hkeys, hfields⟩ := distinct
      have hmiddle : (Json.array (middle.map (·.2))).Distinct := by
        apply distinctItems_iff.2
        intro v hv
        obtain ⟨e, he, rfl⟩ := List.mem_map.1 hv
        exact distinctFields_iff.1 hfields e (perm.mem_iff.2 he)
      have hvalues : (middle.map (·.2)).map sorted = (others.map (·.2)).map sorted := by
        rw [← sortedItems_eq, ← sortedItems_eq]
        exact Json.array.inj (ih hmiddle)
      have hperm : (sortedFields fields).Perm (sortedFields middle) := by
        rw [sortedFields_eq, sortedFields_eq]
        exact perm.map _
      have hdistinct : ((sortedFields fields).map (·.1)).Nodup := by rwa [keys_sortedFields]
      rw [sorted, sorted, Dictionary.ofList_congr hdistinct hperm, sortedFields_eq_zip middle,
        sortedFields_eq_zip others, keys, hvalues]
  | _ => rfl

/-- Arrays are the same up to order if their items are, which may be known where they are sorted
alike. -/
theorem SameUpToOrder.array (h : items.map sorted = others.map sorted)
    (each : ∀ v ∈ items, ∀ w ∈ others, v.sorted = w.sorted → v.SameUpToOrder w) :
    SameUpToOrder (.array items) (.array others) := by
  induction items generalizing others with
  | nil =>
      obtain rfl := List.map_eq_nil_iff.1 h.symm
      exact .nil
  | cons v items ih =>
      obtain ⟨w, others, rfl, hw, hothers⟩ := List.map_eq_cons_iff.1 h.symm
      apply SameUpToOrder.cons
      · exact each v List.mem_cons_self w List.mem_cons_self hw.symm
      · apply ih hothers.symm
        intro a ha b hb
        exact each a (List.mem_cons_of_mem v ha) b (List.mem_cons_of_mem w hb)

theorem sameUpToOrder_of_sorted_eq (h : v.sorted = w.sorted) (hv : v.Distinct) (hw : w.Distinct) :
    v.SameUpToOrder w := by
  induction v using Json.induction generalizing w with
  | null => cases w <;> cases h; exact .null
  | bool b => cases w <;> cases h; exact .bool
  | number n => cases w <;> cases h; exact .number
  | string s => cases w <;> cases h; exact .string
  | array items ih =>
      cases w with
      | array others =>
          have hsorted := Json.array.inj h
          rw [sortedItems_eq, sortedItems_eq] at hsorted
          apply SameUpToOrder.array hsorted
          intro a ha b hb hab
          exact ih a ha hab (distinctItems_iff.1 hv a ha) (distinctItems_iff.1 hw b hb)
      | _ => cases h
  | object fields ih =>
      cases w with
      | object others =>
          have hperm : (sortedFields others).Perm (sortedFields fields) := by
            have hfields := perm_sortedFields hv.1
            rw [Json.object.inj h] at hfields
            exact (perm_sortedFields hw.1).symm.trans hfields
          -- the fields in the order in which the sorted fields are those of the other object
          obtain ⟨middle, hsame, hmiddle⟩ : ∃ middle, sortedFields others = sortedFields middle ∧
              middle.Perm fields := by
            rw [sortedFields_eq, sortedFields_eq] at hperm
            simp only [sortedFields_eq]
            exact (congrFun₂ (List.eq_map_comp_perm _) _ _).mpr hperm
          have hkeys : middle.map (·.1) = others.map (·.1) := by
            rw [← keys_sortedFields, ← hsame, keys_sortedFields]
          have hvalues : (middle.map (·.2)).map sorted = (others.map (·.2)).map sorted := by
            rw [← values_sortedFields, ← values_sortedFields, hsame]
          refine .object hmiddle.symm hkeys (.array hvalues ?_)
          intro a ha b hb hab
          obtain ⟨e, he, rfl⟩ := List.mem_map.1 ha
          obtain ⟨f, hf, rfl⟩ := List.mem_map.1 hb
          have hmem := hmiddle.mem_iff.1 he
          exact ih e hmem hab (distinctFields_iff.1 hv.2 e hmem) (distinctFields_iff.1 hw.2 f hf)
      | _ => cases h

theorem sorted_eq_iff (hv : v.Distinct) (hw : w.Distinct) :
    v.sorted = w.sorted ↔ v.SameUpToOrder w :=
  ⟨fun h => sameUpToOrder_of_sorted_eq h hv hw, fun h => sorted_eq_of_sameUpToOrder h hv⟩

end Order

theorem canonicalText_eq_iff (hv : v.Distinct) (hw : w.Distinct) (floatsV : v.WithoutFloats)
    (floatsW : w.WithoutFloats) : v.canonicalText = w.canonicalText ↔ v.SameUpToOrder w := by
  rw [← sorted_eq_iff hv hw]
  constructor
  · exact compact_injective (sorted_withoutFloats floatsV) (sorted_withoutFloats floatsW)
  · intro h
    rw [canonicalText, h, canonicalText]

/-- Values without floats have one canonical text if and only if they are the same up to the order
of fields. The canonical text is the compact text of such a value in which the keys of all objects
ascend, and without floats it is the compact text of no other. -/
theorem canonicalText_identifies :
    (∀ v w : Json, v.Distinct → w.Distinct → v.WithoutFloats → w.WithoutFloats →
      (v.canonicalText = w.canonicalText ↔ v.SameUpToOrder w)) ∧
    ∀ v : Json, v.Distinct → ∃ written : Json, v.canonicalText = written.compact ∧
      v.SameUpToOrder written ∧ written.KeysAscend ∧
      (v.WithoutFloats → ∀ u : Json, u.WithoutFloats →
        u.compact = v.canonicalText → u = written) := by
  constructor
  · intro v w hv hw floatsV floatsW
    exact canonicalText_eq_iff hv hw floatsV floatsW
  · intro v hv
    have hascend := sorted_keysAscend v
    refine ⟨v.sorted, rfl, ?_, hascend, ?_⟩
    · exact (sorted_eq_iff hv hascend.distinct).1 hascend.sorted_eq.symm
    · intro floats u hu htext
      exact compact_injective hu (sorted_withoutFloats floats) htext

-- Fields stand in the order of their keys, items in their own.
example : (object [("b", .null), ("a", .array [.bool true, .nat 7, .string "x\n"])]).canonicalText =
    "\x7b\"a\":[true,7,\"x\\n\"],\"b\":null\x7d" := by cbv

/-- An object with an object inside of an array, both in an order of keys that does not ascend. -/
def shuffled : Json :=
  .object [("z", .nat 1), ("a", .array [.object [("y", .null), ("b", .string "x")], .bool true])]

/-- The same object with its fields in order. -/
def unshuffled : Json :=
  .object [("a", .array [.object [("b", .string "x"), ("y", .null)], .bool true]), ("z", .nat 1)]

theorem shuffled_sameUpToOrder : shuffled.SameUpToOrder unshuffled := by
  have inner : SameUpToOrder (.object [("y", .null), ("b", .string "x")])
      (.object [("b", .string "x"), ("y", .null)]) :=
    .object (.swap _ _ _) rfl (.cons .string (.cons .null .nil))
  exact .object (.swap _ _ _) rfl (.cons (.cons inner (.cons .bool .nil)) (.cons .number .nil))

/-- The order of fields leaves no trace in the text, the order of items does. -/
theorem canonicalText_identifies_shuffled :
    shuffled.canonicalText = unshuffled.canonicalText ∧
      (Json.array [.nat 1, .nat 2]).canonicalText ≠ (Json.array [.nat 2, .nat 1]).canonicalText ∧
      ∃ written : Json, shuffled.canonicalText = written.compact ∧ written.KeysAscend := by
  have distinct : shuffled.Distinct ∧ unshuffled.Distinct := by
    simp [shuffled, unshuffled, nat, Distinct, DistinctItems, DistinctFields]
  have floats : shuffled.WithoutFloats ∧ unshuffled.WithoutFloats := by
    simp [shuffled, unshuffled, nat, WithoutFloats, ItemsWithoutFloats, FieldsWithoutFloats]
  obtain ⟨identifies, writes⟩ := canonicalText_identifies
  refine ⟨?_, ?_, ?_⟩
  · exact (identifies _ _ distinct.1 distinct.2 floats.1 floats.2).2 shuffled_sameUpToOrder
  · intro h
    have hsame := (identifies (.array [.nat 1, .nat 2]) (.array [.nat 2, .nat 1])
      ⟨trivial, trivial, trivial⟩ ⟨trivial, trivial, trivial⟩ ⟨trivial, trivial, trivial⟩
      ⟨trivial, trivial, trivial⟩).1 h
    cases hsame with
    | cons head tail => cases head
  · obtain ⟨written, htext, _, hascend, _⟩ := writes shuffled distinct.1
    exact ⟨written, htext, hascend⟩

end Json

end Stencil
