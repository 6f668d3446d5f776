/-!
# Attributes

The attributes that an inclusion hands to a component: text values under distinct keys, in the order
in which the keys were first set.
-/

namespace Stencil

structure Attributes where
  entries : List (String × String)
  distinct : (entries.map (·.1)).Nodup

namespace Attributes

def empty : Attributes := ⟨[], .nil⟩

/-- Change the value of a key in its place, or add the key at the end. -/
def setEntry (key value : String) : List (String × String) → List (String × String)
  | [] => [(key, value)]
  | (k, v) :: rest => if k = key then (key, value) :: rest else (k, v) :: setEntry key value rest

theorem mem_keys_setEntry {key value : String} {entries : List (String × String)} {k : String} :
    k ∈ (setEntry key value entries).map (·.1) ↔ k = key ∨ k ∈ entries.map (·.1) := by
  induction entries with
  | nil => simp [setEntry]
  | cons e rest ih =>
      obtain ⟨j, v⟩ := e
      by_cases h : j = key
      · subst h; simp [setEntry]
      · simp only [setEntry, if_neg h, List.map_cons, List.mem_cons, ih]
        constructor
        · rintro (h | h | h) <;> simp [h]
        · rintro (h | h | h) <;> simp [h]

theorem distinct_setEntry (key value : String) {entries : List (String × String)}
    (h : (entries.map (·.1)).Nodup) : ((setEntry key value entries).map (·.1)).Nodup := by
  induction entries with
  | nil => simp [setEntry]
  | cons e rest ih =>
      obtain ⟨j, v⟩ := e
      have parts := List.nodup_cons.1 h
      by_cases hj : j = key
      · subst hj; simpa [setEntry] using h
      · simp only [setEntry, if_neg hj, List.map_cons]
        refine List.nodup_cons.2 ⟨fun hmem => ?_, ih parts.2⟩
        rcases mem_keys_setEntry.1 hmem with e | e
        · exact hj e
        · exact parts.1 e

def set (a : Attributes) (key value : String) : Attributes :=
  ⟨setEntry key value a.entries, distinct_setEntry key value a.distinct⟩

/-- Set keys one after the other. -/
def setAll (a : Attributes) (entries : List (String × String)) : Attributes :=
  entries.foldl (fun a e => a.set e.1 e.2) a

def ofList (entries : List (String × String)) : Attributes := empty.setAll entries

/-- An attribute as it stands in a tag. -/
def item (key value : String) : String := key ++ "=\"" ++ value ++ "\""

/-- All attributes as they stand in a tag, with single spaces between them. -/
def text (a : Attributes) : String := " ".intercalate (a.entries.map fun e => item e.1 e.2)

end Attributes

end Stencil
