import Mathlib
import Stencil.Schema

/-!
# Places in a schema and in a value

A place is a list of keys, read from the root down. What has the shape of a schema has something that
fits at each place of it (`Schema.Conforms.at?`). Places come in the order of their first different
key, each before the places below it, and a check reports the first where nothing fits.
-/

namespace Stencil

namespace Schema

/-- What a schema asks for at a place. -/
def at? : Schema → List String → Option Schema
  | schema, [] => some schema
  | .object fields, key :: keys => (fields.lookup key).bind fun schema => schema.at? keys
  | .tag _, _ :: _ => none

/-- A value has the shape of a schema: it is of the type, or an object with a value of its shape under
each key of the schema. Other keys do not matter. -/
inductive Conforms : Schema → Json → Prop
  | tag {type v} (admitted : PropType.admits type v = true) : Conforms (.tag type) v
  | object {fields props} (present : ∀ e ∈ fields, (List.lookup e.1 props).isSome)
      (each : ∀ e ∈ fields, ∀ v, List.lookup e.1 props = some v → Conforms e.2 v) :
      Conforms (.object fields) (.object props)

/-- A value is what a schema asks for at its root, whatever is below. -/
inductive Fits : Schema → Json → Prop
  | tag {type v} (admitted : PropType.admits type v = true) : Fits (.tag type) v
  | object {fields props} : Fits (.object fields) (.object props)

/-- No key is empty, at whatever level. -/
def NoEmptyKeys (schema : Schema) : Prop := ∀ keys sub, schema.at? keys = some sub → "" ∉ keys

/-- Every key on the way to a place has a property, at whatever level. -/
def EveryKey (P : String → Prop) (schema : Schema) : Prop :=
  ∀ keys sub, schema.at? keys = some sub → ∀ key ∈ keys, P key

end Schema

/-- The value at a place, through objects only. -/
def Json.at? : Json → List String → Option Json
  | v, [] => some v
  | v, key :: keys => (v.field? key).bind fun w => w.at? keys

namespace Schema

/-- At every place before one a value has something that fits, with all its shape unless the place
lies above that one. -/
def FitsBefore (schema : Schema) (v : Json) (keys : List String) : Prop :=
  ∀ before < keys, ∀ s, schema.at? before = some s →
    ∃ w, v.at? before = some w ∧ s.Fits w ∧ (¬ before <+: keys → s.Conforms w)

/-- The first place where a value departs from a schema, which asks for `sub` there. Either the key
itself is missing from an object, or a value stands there that does not fit. -/
structure FirstDeparture (schema : Schema) (v : Json) (keys : List String) (sub : Schema)
    (missing : Bool) : Prop where
  place : schema.at? keys = some sub
  earlier : schema.FitsBefore v keys
  lacking : missing = true → ∃ parent key props, keys = parent ++ [key] ∧
    v.at? parent = some (.object props) ∧ props.lookup key = none
  departing : missing = false → ∃ w, v.at? keys = some w ∧ ¬ sub.Fits w

/-- A schema is a type, or an object of schemas that a property may be assumed of. -/
@[elab_as_elim]
theorem induction {motive : Schema → Prop} (tag : ∀ type, motive (.tag type))
    (object : ∀ fields : List (String × Schema), (∀ e ∈ fields, motive e.2) →
      motive (.object fields)) : ∀ schema, motive schema
  | .tag type => tag type
  | .object fields => object fields fun e _he => induction tag object e.2
termination_by schema => sizeOf schema
decreasing_by
  have hlt := List.sizeOf_lt_of_mem _he
  obtain ⟨key, sub⟩ := e
  simp only [Prod.mk.sizeOf_spec, Schema.object.sizeOf_spec] at hlt ⊢
  omega

variable {path : String} {type : PropType} {schema sub : Schema} {fields : List (String × Schema)}
  {props : Json.Fields} {v w : Json} {keys : List String} {violation : Violation}

section Conforming

theorem checkFields_eq_none_iff : checkFields path fields props = none ↔
    ∀ e ∈ fields, ∃ v, props.lookup e.1 = some v ∧ checkAt (pathTo path e.1) e.2 v = none := by
  induction fields with
  | nil => simp [checkFields]
  | cons e rest ih =>
      obtain ⟨key, schema⟩ := e
      rw [checkFields, List.forall_mem_cons]
      cases hlookup : props.lookup key with
      | none => simp
      | some v =>
          cases hcheck : checkAt (pathTo path key) schema v with
          | none => simp [ih, hcheck]
          | some violation => simp [hcheck]

theorem checkAt_tag_eq_none_iff :
    checkAt path (.tag type) v = none ↔ type.admits v = true := by
  rw [checkAt]
  split <;> simp_all

/-- A check passes exactly the values that have the shape. -/
theorem checkAt_eq_none_iff : checkAt path schema v = none ↔ schema.Conforms v := by
  induction schema using Schema.induction generalizing path v with
  | tag type =>
      rw [checkAt_tag_eq_none_iff]
      constructor
      · exact .tag
      · rintro ⟨admitted⟩
        exact admitted
  | object fields ih =>
      constructor
      · intro h
        cases v with
        | object props =>
            rw [checkAt, checkFields_eq_none_iff] at h
            refine .object ?_ ?_
            · intro e he
              obtain ⟨w, hw, _⟩ := h e he
              rw [hw]
              rfl
            · intro e he u hu
              obtain ⟨w, hw, hcheck⟩ := h e he
              obtain rfl := Option.some.inj (hu.symm.trans hw)
              exact (ih e he).1 hcheck
        | _ => cases h
      · rintro ⟨⟩
        rename_i props present each
        rw [checkAt, checkFields_eq_none_iff]
        intro e he
        obtain ⟨w, hw⟩ := Option.isSome_iff_exists.1 (present e he)
        exact ⟨w, hw, (ih e he).2 (each e he w hw)⟩

theorem Conforms.fits (h : schema.Conforms v) : schema.Fits v := by
  cases h with
  | tag admitted => exact .tag admitted
  | object => exact .object

theorem mem_of_lookup {key : String} (h : fields.lookup key = some sub) : (key, sub) ∈ fields := by
  obtain ⟨front, back, rfl, _⟩ := List.lookup_eq_some_iff.1 h
  exact List.mem_append_right _ List.mem_cons_self

/-- What has the shape of a schema has the shape of each part of it, at its place. -/
theorem Conforms.at? (h : schema.Conforms v) (hplace : schema.at? keys = some sub) :
    ∃ w, v.at? keys = some w ∧ sub.Conforms w := by
  induction keys generalizing schema v with
  | nil =>
      cases hplace
      exact ⟨v, rfl, h⟩
  | cons key keys ih =>
      cases h with
      | tag => cases hplace
      | @object fields props present each =>
          obtain ⟨below, hbelow, hplace⟩ := Option.bind_eq_some_iff.1 hplace
          have hmem := mem_of_lookup hbelow
          obtain ⟨w, hw⟩ := Option.isSome_iff_exists.1 (present _ hmem)
          obtain ⟨u, hu, hconforms⟩ := ih (each _ hmem w hw) hplace
          exact ⟨u, Option.bind_eq_some_iff.2 ⟨w, hw, hu⟩, hconforms⟩

end Conforming

section Departing

theorem orderedFields_iff : OrderedFields fields ↔ ∀ e ∈ fields, e.2.Ordered := by
  induction fields with
  | nil => simp [OrderedFields]
  | cons e rest ih => rw [OrderedFields, List.forall_mem_cons, ih]

/-- A check of fields stops at the first of them that is missing or departs. -/
theorem checkFields_eq_some (h : checkFields path fields props = some violation) :
    ∃ front key sub back, fields = front ++ (key, sub) :: back ∧
      (∀ e ∈ front, ∃ w, props.lookup e.1 = some w ∧ e.2.Conforms w) ∧
      ((props.lookup key = none ∧ violation = ⟨pathTo path key, sub.type, true⟩) ∨
        ∃ w, props.lookup key = some w ∧ checkAt (pathTo path key) sub w = some violation) := by
  induction fields with
  | nil => cases h
  | cons e rest ih =>
      obtain ⟨key, sub⟩ := e
      rw [checkFields] at h
      cases hlookup : props.lookup key with
      | none =>
          rw [hlookup] at h
          cases h
          exact ⟨[], key, sub, rest, rfl, by simp, .inl ⟨hlookup, rfl⟩⟩
      | some w =>
          rw [hlookup] at h
          cases hcheck : checkAt (pathTo path key) sub w with
          | some found =>
              simp only [hcheck, Option.some.injEq] at h
              subst h
              exact ⟨[], key, sub, rest, rfl, by simp, .inr ⟨w, hlookup, hcheck⟩⟩
          | none =>
              simp only [hcheck] at h
              obtain ⟨front, other, below, back, rfl, hfront, hother⟩ := ih h
              refine ⟨(key, sub) :: front, other, below, back, rfl, ?_, hother⟩
              exact List.forall_mem_cons.2 ⟨⟨w, hlookup, checkAt_eq_none_iff.1 hcheck⟩, hfront⟩

/-- In a list of fields with ascending keys, a field with a lower key stands before. -/
theorem mem_front_of_lt {front back : List (String × Schema)} {key lower : String} {s : Schema}
    (h : ((front ++ (key, sub) :: back).map (·.1)).Pairwise (· < ·))
    (hmem : (lower, s) ∈ front ++ (key, sub) :: back) (hlt : lower < key) :
    (lower, s) ∈ front := by
  rw [List.map_append, List.map_cons, List.pairwise_append, List.pairwise_cons] at h
  obtain hfront | hback := List.mem_append.1 hmem
  · exact hfront
  · obtain heq | hback := List.mem_cons.1 hback
    · cases heq
      exact absurd hlt (String.lt_irrefl _)
    · have hgt := h.2.1.1 lower (List.mem_map_of_mem hback)
      exact absurd (String.lt_trans hlt hgt) (String.lt_irrefl _)

theorem fitsBefore_nil (schema : Schema) (v : Json) : schema.FitsBefore v [] := by
  intro before hlt
  exact absurd hlt (List.not_lt_nil before)

/-- At the root nothing is earlier, so a value that does not fit there departs there first. -/
theorem FirstDeparture.root (h : ¬ schema.Fits v) : FirstDeparture schema v [] schema false where
  place := by cases schema <;> rfl
  earlier := fitsBefore_nil schema v
  lacking := nofun
  departing _ := ⟨v, rfl, h⟩

/-- Before a place below a key come the root, all below lower keys, and the places below the same key
before it. -/
theorem fitsBefore_cons {front back : List (String × Schema)} {key : String} {rest : List String}
    (hkeys : ((front ++ (key, sub) :: back).map (·.1)).Pairwise (· < ·))
    (hlookup : (front ++ (key, sub) :: back).lookup key = some sub)
    (hfront : ∀ e ∈ front, ∃ w, props.lookup e.1 = some w ∧ e.2.Conforms w)
    (hbelow : rest = [] ∨ ∃ w, props.lookup key = some w ∧ sub.FitsBefore w rest) :
    (object (front ++ (key, sub) :: back)).FitsBefore (.object props) (key :: rest) := by
  intro before hlt s hplace
  cases before with
  | nil =>
      cases hplace
      exact ⟨_, rfl, .object, fun hnot => absurd List.nil_prefix hnot⟩
  | cons lower below =>
      obtain ⟨top, htop, hsub⟩ := Option.bind_eq_some_iff.1 hplace
      obtain hless | ⟨rfl, hrest⟩ := List.cons_lt_cons_iff.1 hlt
      · obtain ⟨w, hw, hconforms⟩ :=
          hfront _ (mem_front_of_lt hkeys (mem_of_lookup htop) hless)
        obtain ⟨u, hu, hshape⟩ := hconforms.at? hsub
        exact ⟨u, Option.bind_eq_some_iff.2 ⟨w, hw, hu⟩, hshape.fits, fun _ => hshape⟩
      · obtain rfl := Option.some.inj (htop.symm.trans hlookup)
        obtain rfl | ⟨w, hw, hsame⟩ := hbelow
        · exact absurd hrest (List.not_lt_nil below)
        · obtain ⟨u, hu, hfits, hshape⟩ := hsame below hrest s hsub
          refine ⟨u, Option.bind_eq_some_iff.2 ⟨w, hw, hu⟩, hfits, fun hnot => hshape ?_⟩
          rwa [List.prefix_cons_inj] at hnot

/-- A check that fails reports the first departure, with its path from the path that it started at. -/
theorem checkAt_eq_some (hordered : schema.Ordered) (h : checkAt path schema v = some violation) :
    ∃ keys sub, violation.path = keys.foldl pathTo path ∧ violation.expected = sub.type ∧
      FirstDeparture schema v keys sub violation.missing := by
  induction schema using Schema.induction generalizing path v with
  | tag type =>
      rw [checkAt] at h
      split at h
      · cases h
      · rename_i hadmits
        cases h
        refine ⟨[], .tag type, rfl, rfl, .root ?_⟩
        rintro ⟨admitted⟩
        exact hadmits admitted
  | object fields ih =>
      obtain ⟨hkeys, hbelow⟩ := hordered
      have hnodup : (fields.map (·.1)).Nodup := hkeys.imp String.ne_of_lt
      cases v with
      | object props =>
          rw [checkAt] at h
          obtain ⟨front, key, sub, back, rfl, hfront, ⟨hnone, rfl⟩ | ⟨w, hw, hcheck⟩⟩ :=
            checkFields_eq_some h
          · have hlookup : (front ++ (key, sub) :: back).lookup key = some sub :=
              (Dictionary.lookup_eq_some_iff hnodup).2 (by simp)
            refine ⟨[key], sub, rfl, rfl, ⟨?_, ?_, ?_, ?_⟩⟩
            · rw [Schema.at?, hlookup]
              cases sub <;> rfl
            · exact fitsBefore_cons hkeys hlookup hfront (.inl rfl)
            · intro _
              exact ⟨[], key, props, rfl, rfl, hnone⟩
            · intro hmissing
              cases hmissing
          · have hmem : (key, sub) ∈ front ++ (key, sub) :: back := by simp
            have hlookup : (front ++ (key, sub) :: back).lookup key = some sub :=
              (Dictionary.lookup_eq_some_iff hnodup).2 hmem
            obtain ⟨keys, below, hpath, hexpected, hfirst⟩ :=
              ih _ hmem (orderedFields_iff.1 hbelow _ hmem) hcheck
            have hstep : ∀ keys, (Json.object props).at? (key :: keys) = w.at? keys := by
              intro keys
              rw [Json.at?, Json.field?, hw]
              rfl
            refine ⟨key :: keys, below, hpath, hexpected, ⟨?_, ?_, ?_, ?_⟩⟩
            · rw [Schema.at?, hlookup]
              exact hfirst.place
            · exact fitsBefore_cons hkeys hlookup hfront (.inr ⟨w, hw, hfirst.earlier⟩)
            · intro hmissing
              obtain ⟨parent, last, found, rfl, hparent, hnone⟩ := hfirst.lacking hmissing
              exact ⟨key :: parent, last, found, rfl, by rw [hstep, hparent], hnone⟩
            · intro hmissing
              rw [hstep]
              exact hfirst.departing hmissing
      | _ =>
          cases h
          refine ⟨[], .object fields, rfl, rfl, .root ?_⟩
          intro hfits
          cases hfits

theorem foldl_pathTo_of_ne_empty (hpath : path ≠ "") :
    keys.foldl pathTo path = ".".intercalate (path :: keys) := by
  induction keys generalizing path with
  | nil => simp
  | cons key keys ih =>
      have hnext : pathTo path key = path ++ "." ++ key := by simp [pathTo, hpath]
      have hjoin : ".".intercalate ((path ++ "." ++ key) :: keys) =
          ".".intercalate (path :: key :: keys) := by
        rw [String.intercalate_cons_append, String.intercalate_cons_cons]
      rw [List.foldl_cons, hnext, ih (by simp), hjoin]

theorem everyKey_tag {P : String → Prop} (type : PropType) : (tag type).EveryKey P := by
  intro keys sub hplace
  cases keys with
  | nil => simp
  | cons => cases hplace

theorem everyKey_object {P : String → Prop} (h : ∀ e ∈ fields, P e.1 ∧ e.2.EveryKey P) :
    (object fields).EveryKey P := by
  intro keys sub hplace
  cases keys with
  | nil => simp
  | cons key keys =>
      obtain ⟨below, hlookup, hbelow⟩ := Option.bind_eq_some_iff.1 hplace
      obtain ⟨hkey, hkeys⟩ := h _ (mem_of_lookup hlookup)
      exact List.forall_mem_cons.2 ⟨hkey, hkeys keys sub hbelow⟩

theorem noEmptyKeys_iff : schema.NoEmptyKeys ↔ schema.EveryKey (· ≠ "") := by
  constructor
  · intro h keys sub hplace key hkey hempty
    exact h keys sub hplace (hempty ▸ hkey)
  · intro h keys sub hplace hmem
    exact h keys sub hplace "" hmem rfl

theorem noEmptyKeys_tag (type : PropType) : (tag type).NoEmptyKeys :=
  noEmptyKeys_iff.2 (everyKey_tag type)

theorem noEmptyKeys_object (h : ∀ e ∈ fields, e.1 ≠ "" ∧ e.2.NoEmptyKeys) :
    (object fields).NoEmptyKeys := by
  rw [noEmptyKeys_iff]
  apply everyKey_object
  intro e he
  exact ⟨(h e he).1, noEmptyKeys_iff.1 (h e he).2⟩

/-- Without empty keys a path is its keys with dots between them. -/
theorem foldl_pathTo (hkeys : "" ∉ keys) : keys.foldl pathTo "" = ".".intercalate keys := by
  cases keys with
  | nil => rfl
  | cons key keys =>
      have hkey : key ≠ "" := fun h => hkeys (h ▸ List.mem_cons_self)
      exact foldl_pathTo_of_ne_empty hkey

end Departing

end Schema

end Stencil
