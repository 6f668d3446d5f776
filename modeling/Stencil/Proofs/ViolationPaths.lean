import Stencil.Proofs.JoinedTexts
import Stencil.Proofs.SchemaPlaces

/-!
# What the path of a violation says

The path of a violation is made of the keys that lead to it, with dots between them. Where no key
holds a dot the keys can be read off the path again, except for empty keys in front: these leave no
trace, so a path tells two places apart if and only if they differ behind their leading empty keys.
-/

namespace Stencil

theorem Json.at?_append (v : Json) (front back : List String) :
    v.at? (front ++ back) = (v.at? front).bind fun w => w.at? back := by
  induction front generalizing v with
  | nil => rfl
  | cons key front ih =>
      rw [List.cons_append, Json.at?, Json.at?]
      cases v.field? key with
      | none => rfl
      | some w => exact ih w

namespace Schema

/-- No key holds a dot, at whatever level. -/
def NoDottedKeys (schema : Schema) : Prop := schema.EveryKey fun key => '.' ∉ key.toList

/-- The keys of a place from the first on that is not empty. -/
def behindEmpty (keys : List String) : List String := keys.dropWhile (·.isEmpty)

/-- A check of a value gives the violation, and the value departs from the schema first at a place. -/
structure RejectsAt (schema : Schema) (v : Json) (keys : List String) (violation : Violation) :
    Prop where
  rejected : schema.check v = some violation
  place : ∃ sub, schema.FirstDeparture v keys sub violation.missing

variable {schema sub sub' : Schema} {v w : Json} {keys keys' : List String}
variable {violation other : Violation} {missing missing' : Bool}

section Paths

theorem behindEmpty_cons_empty (keys : List String) : behindEmpty ("" :: keys) = behindEmpty keys :=
  rfl

theorem behindEmpty_cons_of_ne {key : String} (h : key ≠ "") (keys : List String) :
    behindEmpty (key :: keys) = key :: keys := by
  rw [behindEmpty, List.dropWhile_cons_of_neg]
  simpa using h

/-- Empty keys in front leave no trace in a path. -/
theorem foldl_pathTo_eq (keys : List String) :
    keys.foldl pathTo "" = ".".intercalate (behindEmpty keys) := by
  induction keys with
  | nil => rfl
  | cons key keys ih =>
      by_cases hkey : key = ""
      · subst hkey
        exact ih
      · rw [behindEmpty_cons_of_ne hkey]
        exact foldl_pathTo_of_ne_empty hkey

theorem behindEmpty_cases (keys : List String) :
    behindEmpty keys = [] ∨ ∃ key rest, behindEmpty keys = key :: rest ∧ key ≠ "" := by
  induction keys with
  | nil => exact .inl rfl
  | cons key keys ih =>
      by_cases hkey : key = ""
      · subst hkey
        rw [behindEmpty_cons_empty]
        exact ih
      · exact .inr ⟨key, keys, behindEmpty_cons_of_ne hkey keys, hkey⟩

theorem behindEmpty_eq_nil_iff : behindEmpty keys = [] ↔ ∀ key ∈ keys, key = "" := by
  simp [behindEmpty, List.dropWhile_eq_nil_iff]

theorem intercalate_behindEmpty_eq_empty_iff :
    ".".intercalate (behindEmpty keys) = "" ↔ behindEmpty keys = [] := by
  constructor
  · intro h
    obtain hnil | ⟨key, rest, hkeys, hkey⟩ := behindEmpty_cases keys
    · exact hnil
    · rw [hkeys] at h
      cases rest with
      | nil => exact absurd h (by simpa using hkey)
      | cons => simp [String.intercalate_cons_cons] at h
  · intro h
    rw [h]
    rfl

theorem intercalate_behindEmpty_inj_iff (hdots : ∀ key ∈ keys, '.' ∉ key.toList)
    (hdots' : ∀ key ∈ keys', '.' ∉ key.toList) :
    ".".intercalate (behindEmpty keys) = ".".intercalate (behindEmpty keys') ↔
      behindEmpty keys = behindEmpty keys' := by
  have hmem : ∀ {keys : List String}, behindEmpty keys ⊆ keys :=
    fun {keys} => (List.dropWhile_sublist _).subset
  constructor
  · intro h
    by_cases hnil : behindEmpty keys = [] ∨ behindEmpty keys' = []
    · rw [← intercalate_behindEmpty_eq_empty_iff, ← intercalate_behindEmpty_eq_empty_iff] at hnil
      have hempty : ".".intercalate (behindEmpty keys) = "" := by
        obtain hnil | hnil := hnil
        · exact hnil
        · rw [h, hnil]
      rw [intercalate_behindEmpty_eq_empty_iff.1 hempty,
        intercalate_behindEmpty_eq_empty_iff.1 (h ▸ hempty)]
    · rw [not_or] at hnil
      exact intercalate_inj rfl hnil.1 hnil.2 (fun key hkey => hdots key (hmem hkey))
        (fun key hkey => hdots' key (hmem hkey)) h
  · intro h
    rw [h]

end Paths

section Places

/-- Where a value departs first, nothing stands that fits. -/
theorem FirstDeparture.not_fits (h : FirstDeparture schema v keys sub missing) :
    ¬ ∃ w, v.at? keys = some w ∧ sub.Fits w := by
  rintro ⟨w, hw, hfits⟩
  cases missing with
  | true =>
      obtain ⟨parent, key, props, rfl, hparent, hnone⟩ := h.lacking rfl
      rw [Json.at?_append, hparent, Option.bind_some, Json.at?, Json.field?, hnone] at hw
      cases hw
  | false =>
      obtain ⟨u, hu, hdeparts⟩ := h.departing rfl
      obtain rfl := Option.some.inj (hw.symm.trans hu)
      exact hdeparts hfits

/-- A value departs from a schema first at one place only. -/
theorem FirstDeparture.place_unique (h : FirstDeparture schema v keys sub missing)
    (h' : FirstDeparture schema v keys' sub' missing') : keys = keys' := by
  obtain hlt | heq | hgt := lt_trichotomy keys keys'
  · obtain ⟨w, hw, hfits, _⟩ := h'.earlier keys hlt sub h.place
    exact absurd ⟨w, hw, hfits⟩ h.not_fits
  · exact heq
  · obtain ⟨w, hw, hfits, _⟩ := h.earlier keys' hgt sub' h'.place
    exact absurd ⟨w, hw, hfits⟩ h'.not_fits

theorem RejectsAt.noDots (h : schema.RejectsAt v keys violation) (hdots : schema.NoDottedKeys) :
    ∀ key ∈ keys, '.' ∉ key.toList := by
  obtain ⟨sub, hfirst⟩ := h.place
  exact hdots keys sub hfirst.place

theorem exists_rejectsAt (hordered : schema.Ordered) (h : schema.check v = some violation) :
    ∃ keys, schema.RejectsAt v keys violation := by
  obtain ⟨keys, sub, _, _, hfirst⟩ := checkAt_eq_some hordered h
  exact ⟨keys, h, sub, hfirst⟩

/-- The path is that of the place, whichever way the place is known. -/
theorem RejectsAt.path_eq (hordered : schema.Ordered) (h : schema.RejectsAt v keys violation) :
    violation.path = ".".intercalate (behindEmpty keys) := by
  obtain ⟨reported, sub, hpath, _, hfirst⟩ := checkAt_eq_some hordered h.rejected
  obtain ⟨sub', hplace⟩ := h.place
  rw [hpath, hfirst.place_unique hplace]
  exact foldl_pathTo_eq keys

end Places

/-- The keys of a place stand in a schema that has no empty key at its root, so none leads it. -/
theorem RejectsAt.behindEmpty_eq (hroot : schema.at? [""] = none)
    (h : schema.RejectsAt v keys violation) : behindEmpty keys = keys := by
  cases keys with
  | nil => rfl
  | cons key rest =>
      apply behindEmpty_cons_of_ne
      rintro rfl
      obtain ⟨sub, hfirst⟩ := h.place
      have hplace := hfirst.place
      cases schema with
      | tag => cases hplace
      | object fields =>
          obtain ⟨below, hbelow, _⟩ := Option.bind_eq_some_iff.1 hplace
          rw [Schema.at?, hbelow] at hroot
          cases below <;> cases hroot

/-- A value that is rejected is rejected at one place, and the path has the keys of that place from the
first on that is not empty. So it is empty if and only if all of them are, and two paths differ if
and only if the places differ behind their leading empty keys. Under a schema without an empty key at
its root these are the places themselves. -/
theorem check_path_tells_place (hordered : schema.Ordered) (hdots : schema.NoDottedKeys) :
    (∀ v violation, schema.check v = some violation →
      ∃! keys, schema.RejectsAt v keys violation) ∧
    ∀ v keys violation, schema.RejectsAt v keys violation →
      violation.path = ".".intercalate (behindEmpty keys) ∧
      (violation.path = "" ↔ ∀ key ∈ keys, key = "") ∧
      (schema.at? [""] = none → (violation.path = "" ↔ keys = [])) ∧
      ∀ w keys' other, schema.RejectsAt w keys' other →
        (violation.path = other.path ↔ behindEmpty keys = behindEmpty keys') ∧
        (schema.at? [""] = none → (violation.path = other.path ↔ keys = keys')) := by
  constructor
  · intro v violation h
    obtain ⟨keys, hrejects⟩ := exists_rejectsAt hordered h
    refine ⟨keys, hrejects, ?_⟩
    intro keys' hrejects'
    obtain ⟨_, hfirst⟩ := hrejects.place
    obtain ⟨_, hfirst'⟩ := hrejects'.place
    exact hfirst'.place_unique hfirst
  · intro v keys violation h
    have hempty : violation.path = "" ↔ behindEmpty keys = [] := by
      rw [h.path_eq hordered, intercalate_behindEmpty_eq_empty_iff]
    refine ⟨h.path_eq hordered, hempty.trans behindEmpty_eq_nil_iff, ?_, ?_⟩
    · intro hroot
      rw [hempty, h.behindEmpty_eq hroot]
    · intro w keys' other h'
      have hpaths : violation.path = other.path ↔ behindEmpty keys = behindEmpty keys' := by
        rw [h.path_eq hordered, h'.path_eq hordered]
        exact intercalate_behindEmpty_inj_iff (h.noDots hdots) (h'.noDots hdots)
      refine ⟨hpaths, ?_⟩
      intro hroot
      rw [hpaths, h.behindEmpty_eq hroot, h'.behindEmpty_eq hroot]

/-- A key under an empty key, and the same key beside it. -/
def twins : Schema := .object [("", .object [("a", .tag .string)]), ("a", .tag .string)]

theorem twins_ordered : twins.Ordered := by
  simp only [twins, Ordered, OrderedFields]
  decide

theorem twins_noDottedKeys : twins.NoDottedKeys := by
  have hinner : (object [("a", .tag .string)]).EveryKey fun key => '.' ∉ key.toList :=
    everyKey_object (by simp [everyKey_tag])
  apply everyKey_object
  simpa [everyKey_tag] using hinner

theorem twins_rejectsAt_below :
    twins.RejectsAt (.object [("", .object [])]) ["", "a"] ⟨"a", .string, true⟩ where
  rejected := by decide
  place := by
    refine ⟨.tag .string, rfl, ?_, fun _ => ⟨[""], "a", [], rfl, rfl, rfl⟩, nofun⟩
    have hinner : (object [("a", .tag .string)]).FitsBefore (.object []) ["a"] :=
      @fitsBefore_cons _ _ [] [] "a" [] (by decide) rfl (by simp) (.inl rfl)
    exact @fitsBefore_cons _ _ [] _ "" ["a"] twins_ordered.1 rfl (by simp)
      (.inr ⟨_, rfl, hinner⟩)

theorem twins_rejectsAt_beside :
    twins.RejectsAt (.object [("", .object [("a", .string "x")])]) ["a"] ⟨"a", .string, true⟩ where
  rejected := by decide
  place := by
    refine ⟨.tag .string, rfl, ?_, fun _ => ⟨[], "a", _, rfl, rfl, rfl⟩, nofun⟩
    have hinner : (object [("a", .tag .string)]).Conforms (.object [("a", .string "x")]) :=
      checkAt_eq_none_iff.1 (show checkAt "" _ _ = none by decide)
    exact @fitsBefore_cons _ _ [("", .object [("a", .tag .string)])] [] "a" []
      twins_ordered.1 rfl (by simpa using hinner) (.inl rfl)

theorem check_path_tells_place_twins :
    (twins.check (.object [("", .object [])])).map (·.path) =
        some (".".intercalate (behindEmpty ["", "a"])) ∧
      behindEmpty ["", "a"] = behindEmpty ["a"] := by
  obtain ⟨_, tells⟩ := check_path_tells_place twins_ordered twins_noDottedKeys
  obtain ⟨hpath, _, _, hother⟩ := tells _ _ _ twins_rejectsAt_below
  refine ⟨?_, (hother _ _ _ twins_rejectsAt_beside).1.1 rfl⟩
  rw [twins_rejectsAt_below.rejected, ← hpath]
  rfl

/-- A path does not always tell the place: an empty key in front of it is left out with its dot. -/
theorem not_check_path_tells_place :
    ¬ ∀ schema : Schema, schema.Ordered → schema.NoDottedKeys →
      ∀ v keys violation, schema.RejectsAt v keys violation →
        violation.path = ".".intercalate keys ∧ (violation.path = "" → keys = []) ∧
        ∀ w keys' other, schema.RejectsAt w keys' other → keys ≠ keys' →
          violation.path ≠ other.path := by
  intro hclaim
  obtain ⟨_, _, hdiffer⟩ := hclaim twins twins_ordered twins_noDottedKeys _ _ _ twins_rejectsAt_below
  exact hdiffer _ _ _ twins_rejectsAt_beside (by decide) rfl

end Schema

end Stencil
