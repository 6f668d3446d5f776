import Stencil.Proofs.CompactText
import Stencil.Proofs.Signature
import Stencil.Registry.Report

/-!
# What a fingerprint identifies

A fingerprint is the hash of one text that holds all names with the hashes of their sources. As long
as no two of the texts that are hashed have the same hash, registries with one fingerprint hold the
same components.
-/

namespace Stencil

/-- No two different texts of the list have the same hash. -/
def Sha256.NoCollision (texts : List String) : Prop :=
  ∀ a ∈ texts, ∀ b ∈ texts, hexOfText a = hexOfText b → a = b

instance (texts : List String) : Decidable (Sha256.NoCollision texts) :=
  inferInstanceAs (Decidable (∀ a ∈ texts, ∀ b ∈ texts, _))

theorem Sha256.NoCollision.of_subset {texts others : List String} (h : NoCollision others)
    (hsubset : texts ⊆ others) : NoCollision texts := by
  intro a ha b hb
  exact h a (hsubset ha) b (hsubset hb)

namespace Json

/-- The fields of an object that holds texts. -/
def textFields (entries : List (String × String)) : Fields :=
  entries.map fun e => (e.1, .string e.2)

variable {entries others : List (String × String)}

theorem withoutFloats_textFields (entries : List (String × String)) :
    (Json.object (textFields entries)).WithoutFloats := by
  induction entries with
  | nil => trivial
  | cons e rest ih => exact ⟨trivial, ih⟩

theorem textFields_injective (h : textFields entries = textFields others) : entries = others := by
  apply List.map_injective_iff.2 _ h
  intro e f hef
  obtain ⟨hkey, hvalue⟩ := Prod.mk.inj hef
  exact Prod.ext hkey (Json.string.inj hvalue)

theorem sortedFields_textFields (entries : List (String × String)) :
    sortedFields (textFields entries) = textFields entries := by
  induction entries with
  | nil => rfl
  | cons e rest ih => exact congrArg (List.cons _) ih

/-- A dictionary of texts is its own sorted form. -/
theorem sorted_textFields (d : Dictionary String) :
    (Json.object (textFields d.entries)).sorted = .object (textFields d.entries) := by
  rw [sorted, sortedFields_textFields]
  exact congrArg (fun e => Json.object e.entries) (Dictionary.ofList_eq_of_perm
    (.refl (d.mapValues .string).entries))

end Json

/-- Dictionaries of texts are told apart by their canonical texts. -/
theorem Dictionary.eq_of_canonicalText_eq {d e : Dictionary String}
    (h : (Json.object (Json.textFields d.entries)).canonicalText =
      (Json.object (Json.textFields e.entries)).canonicalText) : d = e := by
  rw [Json.canonicalText, Json.canonicalText, Json.sorted_textFields, Json.sorted_textFields] at h
  have hobjects := Json.compact_injective (Json.withoutFloats_textFields d.entries)
    (Json.withoutFloats_textFields e.entries) h
  have hentries := Json.textFields_injective (Json.object.inj hobjects)
  obtain ⟨entries, ascending⟩ := d
  cases hentries
  rfl

namespace Registry

variable {registry other : Registry}

def hashes (registry : Registry) : Dictionary String := registry.components.mapValues Component.hash

/-- The text whose hash is the fingerprint. -/
def hashesText (registry : Registry) : String :=
  (Json.object (Json.textFields registry.hashes.entries)).canonicalText

def sources (registry : Registry) : List String :=
  registry.components.entries.map fun e => e.2.source

/-- All texts that are hashed for the fingerprint. -/
def hashed (registry : Registry) : List String := registry.hashesText :: registry.sources

theorem fingerprint_eq (registry : Registry) :
    registry.fingerprint = Sha256.hexOfText registry.hashesText := rfl

theorem source_mem_hashed {name : String} {component : Component}
    (h : registry.get? name = some component) : component.source ∈ registry.hashed := by
  apply List.mem_cons_of_mem
  apply List.mem_map.2
  exact ⟨(name, component), Dictionary.get?_eq_some_iff.1 h, rfl⟩

/-- Registries with one fingerprint hold the same components. -/
theorem components_eq_of_fingerprint_eq
    (noCollision : Sha256.NoCollision (registry.hashed ++ other.hashed))
    (h : registry.fingerprint = other.fingerprint) : registry.components = other.components := by
  have hsame : ∀ a ∈ registry.hashed, ∀ b ∈ other.hashed,
      Sha256.hexOfText a = Sha256.hexOfText b → a = b := by
    intro a ha b hb
    exact noCollision a (List.mem_append_left _ ha) b (List.mem_append_right _ hb)
  have htexts : registry.hashesText = other.hashesText := by
    rw [fingerprint_eq, fingerprint_eq] at h
    exact hsame _ List.mem_cons_self _ List.mem_cons_self h
  have hhashes : registry.hashes = other.hashes := Dictionary.eq_of_canonicalText_eq htexts
  apply Dictionary.ext_get?
  intro name
  have hname : (registry.get? name).map Component.hash = (other.get? name).map Component.hash := by
    calc
      (registry.get? name).map Component.hash = registry.hashes.get? name :=
        (Dictionary.get?_mapValues _ _ _).symm
      _ = other.hashes.get? name := by rw [hhashes]
      _ = (other.get? name).map Component.hash := Dictionary.get?_mapValues _ _ _
  change registry.get? name = other.get? name
  cases hc : registry.get? name with
  | none =>
      rw [hc, Option.map_none] at hname
      exact (Option.map_eq_none_iff.1 hname.symm).symm
  | some component =>
      rw [hc, Option.map_some] at hname
      obtain ⟨found, hfound, hhash⟩ := Option.map_eq_some_iff.1 hname.symm
      have hsource := hsame _ (source_mem_hashed hc) _ (source_mem_hashed hfound) hhash.symm
      rw [hfound, Component.ext_source hsource]

end Registry

end Stencil
