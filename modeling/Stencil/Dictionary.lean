/-!
# Dictionaries

A finite map from text keys to values, kept as its list of entries in strictly ascending key order.
Keys compare by code point, which is also the byte order of their UTF-8 form. The order is part of
the type, so two dictionaries with the same look-ups are equal (`Dictionary.ext_get?`) and the order
in which entries were put in cannot be seen.
-/

namespace Stencil

/-- A finite map whose entries stand in strictly ascending key order. -/
structure Dictionary (α : Type) where
  entries : List (String × α)
  ascending : entries.Pairwise (·.1 < ·.1)

namespace Dictionary

variable {α β : Type}

def empty : Dictionary α := ⟨[], .nil⟩

def keys (d : Dictionary α) : List String := d.entries.map (·.1)

def size (d : Dictionary α) : Nat := d.entries.length

def isEmpty (d : Dictionary α) : Bool := d.entries.isEmpty

def get? (d : Dictionary α) (key : String) : Option α := d.entries.lookup key

def contains (d : Dictionary α) (key : String) : Bool := (d.get? key).isSome

/-- Put an entry into an ascending list, in place of an entry with the same key. -/
def insertEntry (key : String) (value : α) : List (String × α) → List (String × α)
  | [] => [(key, value)]
  | (k, v) :: rest =>
      if key < k then (key, value) :: (k, v) :: rest
      else if key = k then (key, value) :: rest
      else (k, v) :: insertEntry key value rest

theorem mem_insertEntry {key : String} {value : α} {entries : List (String × α)}
    {e : String × α} (h : e ∈ insertEntry key value entries) :
    e = (key, value) ∨ e ∈ entries := by
  induction entries with
  | nil => simpa [insertEntry] using h
  | cons head rest ih =>
      obtain ⟨k, v⟩ := head
      simp only [insertEntry] at h
      split at h
      · simpa using h
      · split at h
        · rcases List.mem_cons.1 h with h | h
          · exact .inl h
          · exact .inr (List.mem_cons_of_mem _ h)
        · rcases List.mem_cons.1 h with h | h
          · exact .inr (h ▸ List.mem_cons_self)
          · rcases ih h with h | h
            · exact .inl h
            · exact .inr (List.mem_cons_of_mem _ h)

/-- Keys that are neither below nor equal are above. -/
theorem key_lt_of_not_lt {a b : String} (h : ¬ a < b) (hne : a ≠ b) : b < a :=
  Decidable.byContradiction fun hb => hne (String.le_antisymm hb h)

theorem insertEntry_ascending (key : String) (value : α) {entries : List (String × α)}
    (h : entries.Pairwise (·.1 < ·.1)) :
    (insertEntry key value entries).Pairwise (·.1 < ·.1) := by
  induction entries with
  | nil => exact List.pairwise_singleton _ _
  | cons head rest ih =>
      obtain ⟨k, v⟩ := head
      have hrest := (List.pairwise_cons.1 h).1
      simp only [insertEntry]
      split
      next hlt =>
        refine List.pairwise_cons.2 ⟨fun e he => ?_, h⟩
        rcases List.mem_cons.1 he with rfl | he
        · exact hlt
        · exact String.lt_trans hlt (hrest e he)
      next hlt =>
        split
        next heq => exact List.pairwise_cons.2 ⟨fun e he => heq ▸ hrest e he, h.of_cons⟩
        next hne =>
          refine List.pairwise_cons.2 ⟨fun e he => ?_, ih h.of_cons⟩
          rcases mem_insertEntry he with rfl | he
          · exact key_lt_of_not_lt hlt hne
          · exact hrest e he

/-- Give the key the value, whatever it had before. -/
def insert (d : Dictionary α) (key : String) (value : α) : Dictionary α :=
  ⟨insertEntry key value d.entries, insertEntry_ascending key value d.ascending⟩

theorem lookup_cons_ite (k j : String) (v : α) (rest : List (String × α)) :
    ((j, v) :: rest).lookup k = if k = j then some v else rest.lookup k := by
  rw [List.lookup_cons]
  by_cases h : k = j
  · simp [h]
  · rw [beq_false_of_ne h, if_neg h]

theorem lookup_insertEntry (key : String) (value : α) (entries : List (String × α)) (k : String) :
    (insertEntry key value entries).lookup k = if k = key then some value else entries.lookup k := by
  induction entries with
  | nil => simp [insertEntry, lookup_cons_ite]
  | cons head rest ih =>
      obtain ⟨j, v⟩ := head
      simp only [insertEntry]
      split
      · rw [lookup_cons_ite]
      · split
        next heq => subst heq; simp only [lookup_cons_ite]; split <;> rfl
        next hne =>
          simp only [lookup_cons_ite, ih]
          by_cases h : k = j
          · subst h; simp [Ne.symm hne]
          · simp [h]

@[simp] theorem get?_insert (d : Dictionary α) (key : String) (value : α) (k : String) :
    (d.insert key value).get? k = if k = key then some value else d.get? k :=
  lookup_insertEntry key value d.entries k

@[simp] theorem get?_empty (k : String) : (empty : Dictionary α).get? k = none := rfl

/-- Under distinct keys the entries and the answers to look-ups are the same thing. -/
theorem lookup_eq_some_iff {entries : List (String × α)} (distinct : (entries.map (·.1)).Nodup)
    {k : String} {v : α} : entries.lookup k = some v ↔ (k, v) ∈ entries := by
  induction entries with
  | nil => simp
  | cons head rest ih =>
      obtain ⟨j, w⟩ := head
      obtain ⟨hhead, hrest⟩ := List.nodup_cons.1 distinct
      by_cases hk : k = j
      · subst hk
        have hnot : ∀ u, (k, u) ∉ rest := fun u hu => hhead (List.mem_map.2 ⟨_, hu, rfl⟩)
        simp [hnot, eq_comm]
      · simp [lookup_cons_ite, hk, ih hrest]

/-- Under distinct keys the order of the entries cannot be seen by look-ups. -/
theorem lookup_eq_of_perm {xs ys : List (String × α)} (distinct : (xs.map (·.1)).Nodup)
    (perm : xs.Perm ys) (k : String) : xs.lookup k = ys.lookup k := by
  apply Option.ext
  intro v
  rw [lookup_eq_some_iff distinct, lookup_eq_some_iff ((perm.map _).nodup_iff.1 distinct),
    perm.mem_iff]

theorem keys_nodup (d : Dictionary α) : (d.entries.map (·.1)).Nodup :=
  List.pairwise_map.2 (d.ascending.imp String.ne_of_lt)

theorem get?_eq_some_iff {d : Dictionary α} {k : String} {v : α} :
    d.get? k = some v ↔ (k, v) ∈ d.entries :=
  lookup_eq_some_iff d.keys_nodup

theorem eq_of_mem_iff {xs ys : List (String × α)} (hx : xs.Pairwise (·.1 < ·.1))
    (hy : ys.Pairwise (·.1 < ·.1)) (h : ∀ e, e ∈ xs ↔ e ∈ ys) : xs = ys := by
  induction xs generalizing ys with
  | nil => exact (List.eq_nil_iff_forall_not_mem.2 fun e he => nomatch (h e).2 he).symm
  | cons x xs ih =>
      cases ys with
      | nil => exact nomatch (h x).1 List.mem_cons_self
      | cons y ys =>
          have hx' := List.pairwise_cons.1 hx
          have hy' := List.pairwise_cons.1 hy
          have head : x = y := by
            rcases List.mem_cons.1 ((h x).1 List.mem_cons_self) with e | e
            · exact e
            · rcases List.mem_cons.1 ((h y).2 List.mem_cons_self) with f | f
              · exact f.symm
              · exact absurd (String.lt_trans (hx'.1 _ f) (hy'.1 _ e)) (String.lt_irrefl _)
          subst head
          congr 1
          refine ih hx'.2 hy'.2 fun e => ⟨fun he => ?_, fun he => ?_⟩
          · rcases List.mem_cons.1 ((h e).1 (List.mem_cons_of_mem _ he)) with rfl | he'
            · exact absurd (hx'.1 _ he) (String.lt_irrefl _)
            · exact he'
          · rcases List.mem_cons.1 ((h e).2 (List.mem_cons_of_mem _ he)) with rfl | he'
            · exact absurd (hy'.1 _ he) (String.lt_irrefl _)
            · exact he'

/-- Dictionaries that answer every look-up alike are equal. -/
theorem ext_get? {d e : Dictionary α} (h : ∀ k, d.get? k = e.get? k) : d = e := by
  have entries : d.entries = e.entries :=
    eq_of_mem_iff d.ascending e.ascending fun ⟨k, v⟩ => by
      rw [← get?_eq_some_iff, ← get?_eq_some_iff, h]
  cases d; cases e; simp_all

/-- The dictionary of a list of entries; of two with one key the later counts. -/
def ofList (entries : List (String × α)) : Dictionary α :=
  entries.foldl (fun d e => d.insert e.1 e.2) empty

theorem lookup_reverse_cons (k : String) (e : String × α) (rest : List (String × α)) :
    (e :: rest).reverse.lookup k =
      (rest.reverse.lookup k).or (if k = e.1 then some e.2 else none) := by
  rw [List.reverse_cons, List.lookup_append]
  exact congrArg _ (lookup_cons_ite _ _ _ _)

/-- The last entry with a key is looked up, before those of the dictionary that they are put into. -/
theorem get?_foldl_insert (entries : List (String × α)) (d : Dictionary α) (k : String) :
    (entries.foldl (fun d e => d.insert e.1 e.2) d).get? k =
      (entries.reverse.lookup k).or (d.get? k) := by
  induction entries generalizing d with
  | nil => rfl
  | cons e rest ih =>
      rw [List.foldl_cons, ih, get?_insert, lookup_reverse_cons, Option.or_assoc]
      split <;> rfl

theorem get?_ofList (entries : List (String × α)) (k : String) :
    (ofList entries).get? k = entries.reverse.lookup k := by
  rw [ofList, get?_foldl_insert, get?_empty, Option.or_none]

/-- Under distinct keys a dictionary does not depend on the order of the entries. -/
theorem ofList_eq_of_perm {d : Dictionary α} {entries : List (String × α)}
    (perm : entries.Perm d.entries) : ofList entries = d := by
  apply ext_get?
  intro k
  have hreverse : entries.reverse.Perm d.entries := entries.reverse_perm.trans perm
  rw [get?_ofList]
  exact (lookup_eq_of_perm d.keys_nodup hreverse.symm k).symm

def mapValues (f : α → β) (d : Dictionary α) : Dictionary β :=
  ⟨d.entries.map fun e => (e.1, f e.2), List.Pairwise.map _ (fun _ _ h => h) d.ascending⟩

theorem get?_mapValues (f : α → β) (d : Dictionary α) (key : String) :
    (d.mapValues f).get? key = (d.get? key).map f := by
  change (d.entries.map fun e => (e.1, f e.2)).lookup key = (d.entries.lookup key).map f
  induction d.entries with
  | nil => rfl
  | cons e rest ih =>
      obtain ⟨k, v⟩ := e
      rw [List.map_cons, lookup_cons_ite, lookup_cons_ite, ih]
      split <;> rfl

theorem keys_mapValues (f : α → β) (d : Dictionary α) : (d.mapValues f).keys = d.keys := by
  rw [keys, mapValues, List.map_map]
  rfl

theorem mapValues_insert (f : α → β) (d : Dictionary α) (key : String) (value : α) :
    (d.insert key value).mapValues f = (d.mapValues f).insert key (f value) := by
  apply ext_get?
  intro k
  rw [get?_mapValues, get?_insert, get?_insert, get?_mapValues, apply_ite (Option.map f)]
  rfl

end Dictionary

end Stencil
