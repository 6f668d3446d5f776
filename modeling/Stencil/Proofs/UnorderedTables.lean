import Mathlib
import Stencil.Proofs.RegistryContents

/-!
# Tables without order

Registrations leave a table whose entries may be met in any order, and in another one after each
registration. Names are sorted before they are used, everything else is looked up by name or put
under names, so what is read off such a table is what the registry has in every order.
-/

namespace Stencil

/-- A table without order, as the list of its entries in the order in which they are met. -/
abbrev Table := List (String × Component)

namespace Table

/-- The names in the order in which they are met, sorted. -/
def names (table : Table) : List String := (table.map (·.1)).mergeSort fun a b => a ≤ b

/-- What is found in the components, one name after the other. -/
def findings {α : Type} (table : Table) (find : Component → List α) : List (String × α) :=
  table.names.flatMap fun name => ((table.lookup name).elim [] find).map fun x => (name, x)

def recovered (table : Table) : List (String × Recovery) := table.findings Component.recovered

def unresolved (table : Table) : List (String × Dependency) :=
  table.findings fun component =>
    component.dependencies.filter fun d => !(table.lookup d.name).isSome

/-- The hash of the canonical text of an object whose fields are put in as they are met. -/
def fingerprint (table : Table) : String :=
  Sha256.hexOfText
    (Json.object (Json.textFields (table.map fun e => (e.1, e.2.hash)))).canonicalText

def report (table : Table) : Report :=
  { components := table.length
    fingerprint := table.fingerprint
    recovered := table.recovered
    unresolved := table.unresolved }

end Table

/-- The tables that registrations can leave. A registration puts its component in place of what is
under the name, and may bring the entries into any order. -/
inductive LeftBy : List (String × String) → Table → Prop
  | start : LeftBy [] []
  | register {registrations table name source next} (before : LeftBy registrations table)
      (order : next.Perm ((name, .ofSource source) :: table.filter (·.1 ≠ name))) :
      LeftBy (registrations ++ [(name, source)]) next

/-- Putting an entry in removes the entry with its key. -/
theorem Dictionary.perm_insertEntry {α : Type} {entries : List (String × α)}
    (ascending : entries.Pairwise (·.1 < ·.1)) (key : String) (value : α) :
    (insertEntry key value entries).Perm ((key, value) :: entries.filter (·.1 ≠ key)) := by
  induction entries with
  | nil => exact .refl _
  | cons e rest ih =>
      obtain ⟨k, v⟩ := e
      obtain ⟨hhead, hrest⟩ := List.pairwise_cons.1 ascending
      have keep (hkey : ∀ e ∈ rest, key < e.1) : rest.filter (·.1 ≠ key) = rest := by
        apply List.filter_eq_self.2
        intro e he
        exact decide_eq_true (String.ne_of_lt (hkey e he)).symm
      rw [insertEntry]
      split
      case isTrue hlt =>
        have hne : k ≠ key := (String.ne_of_lt hlt).symm
        have hkeep := keep fun e he => String.lt_trans hlt (hhead e he)
        rw [List.filter_cons_of_pos (by simpa using hne), hkeep]
      case isFalse hnot =>
        split
        case isTrue heq =>
          subst heq
          rw [List.filter_cons_of_neg (by simp), keep hhead]
        case isFalse hne =>
          rw [List.filter_cons_of_pos (by simpa using Ne.symm hne)]
          exact ((ih hrest).cons _).trans (.swap _ _ _)

namespace Registry

variable {registrations : List (String × String)} {table : Table}

theorem ofRegistrations_append (limit : Nat) (registrations : List (String × String))
    (name source : String) : ofRegistrations limit (registrations ++ [(name, source)]) =
      (ofRegistrations limit registrations).register name source := by
  rw [ofRegistrations, registerAll, List.foldl_append]
  rfl

/-- The entries that are left are those of the registry. -/
theorem perm_entries (left : LeftBy registrations table) (limit : Nat) :
    table.Perm (ofRegistrations limit registrations).components.entries := by
  induction left with
  | start => exact .refl _
  | register before order ih =>
      rw [ofRegistrations_append]
      refine order.trans (.trans ?_ (Dictionary.perm_insertEntry (Dictionary.ascending _) _ _).symm)
      exact (ih.filter _).cons _

/-- What is found in the components, entry by entry, is found by going through the names. -/
theorem flatMap_entries {α : Type} (registry : Registry) (find : Component → List α) :
    (registry.components.entries.flatMap fun e => (find e.2).map fun x => (e.1, x)) =
      registry.names.flatMap fun name =>
        ((registry.get? name).elim [] find).map fun x => (name, x) := by
  rw [names, Dictionary.keys, List.flatMap_map]
  apply List.flatMap_congr
  intro e he
  have hfound : registry.get? e.1 = some e.2 := Dictionary.get?_eq_some_iff.2 he
  rw [hfound]
  rfl

end Registry

namespace Table

variable {registry : Registry} {table : Table}

theorem names_eq (perm : table.Perm registry.components.entries) :
    table.names = registry.names := by
  have hsorted : table.names.Pairwise (· ≤ ·) := by
    have hle : ((table.map (·.1)).mergeSort fun a b => a ≤ b).Pairwise
        fun a b => decide (a ≤ b) = true := by
      apply List.pairwise_mergeSort
      · simpa using fun a b c => String.le_trans
      · simpa using String.le_total
    simpa [names] using hle
  have hascending : registry.names.Pairwise (· ≤ ·) :=
    (List.pairwise_map.2 registry.components.ascending).imp le_of_lt
  apply List.Perm.eq_of_pairwise _ hsorted hascending
  · exact (List.mergeSort_perm _ _).trans (perm.map _)
  · intro a b _ _
    exact String.le_antisymm

theorem lookup_eq (perm : table.Perm registry.components.entries) (name : String) :
    table.lookup name = registry.get? name :=
  (Dictionary.lookup_eq_of_perm registry.components.keys_nodup perm.symm name).symm

theorem findings_eq (perm : table.Perm registry.components.entries) {α : Type}
    (find : Component → List α) : table.findings find =
      registry.components.entries.flatMap fun e => (find e.2).map fun x => (e.1, x) := by
  rw [findings, names_eq perm, Registry.flatMap_entries]
  simp only [lookup_eq perm]

theorem recovered_eq (perm : table.Perm registry.components.entries) :
    table.recovered = registry.recovered :=
  findings_eq perm _

theorem unresolved_eq (perm : table.Perm registry.components.entries) :
    table.unresolved = registry.unresolved := by
  rw [unresolved, findings_eq perm, Registry.unresolved]
  simp only [lookup_eq perm]
  rfl

theorem fingerprint_eq (perm : table.Perm registry.components.entries) :
    table.fingerprint = registry.fingerprint := by
  have hperm : (Json.textFields (table.map fun e => (e.1, e.2.hash))).Perm
      (registry.hashes.mapValues .string).entries := by
    exact (perm.map _).map _
  have hsorted : (Json.object (Json.textFields (table.map fun e => (e.1, e.2.hash)))).sorted =
      (Json.object (Json.textFields registry.hashes.entries)).sorted := by
    rw [Json.sorted_textFields, Json.sorted, Json.sortedFields_textFields,
      Dictionary.ofList_eq_of_perm hperm]
    rfl
  rw [fingerprint, Registry.fingerprint_eq, Registry.hashesText, Json.canonicalText, hsorted]
  rfl

/-- What is read off a table in whatever order it is met is what the registry has. -/
theorem report_eq (perm : table.Perm registry.components.entries) :
    table.report = registry.report := by
  rw [report, Registry.report, fingerprint_eq perm, recovered_eq perm, unresolved_eq perm,
    perm.length_eq]
  rfl

end Table

end Stencil
