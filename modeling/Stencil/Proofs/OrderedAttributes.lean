import Mathlib
import Stencil.Proofs.RenderSteps

/-!
# Attributes in the order of their first setting

Attributes that are set one after the other stand in the order in which their keys came first, each
with the value that came last. Arguments whose props are there set the entries of their expansion,
in which a wildcard stands for the attributes that are handed on.
-/

namespace Stencil

namespace Attributes

variable {key value : String} {entries : List (String × String)}

theorem setEntry_of_not_mem (new : key ∉ entries.map (·.1)) :
    setEntry key value entries = entries ++ [(key, value)] := by
  induction entries with
  | nil => rfl
  | cons e rest ih =>
      rw [List.map_cons, List.mem_cons, not_or] at new
      rw [setEntry, if_neg (Ne.symm new.1), ih new.2, List.cons_append]

theorem keys_setEntry_of_mem (old : key ∈ entries.map (·.1)) :
    (setEntry key value entries).map (·.1) = entries.map (·.1) := by
  induction entries with
  | nil => cases old
  | cons e rest ih =>
      rw [setEntry]
      split
      case isTrue heq => simp [heq]
      case isFalse hne =>
        obtain rfl | hrest := List.mem_cons.1 old
        · exact absurd rfl hne
        · rw [List.map_cons, List.map_cons, ih hrest]

theorem lookup_setEntry (key value : String) (entries : List (String × String)) (k : String) :
    (setEntry key value entries).lookup k = if k = key then some value else entries.lookup k := by
  induction entries with
  | nil => exact Dictionary.lookup_cons_ite _ _ _ _
  | cons e rest ih =>
      obtain ⟨j, v⟩ := e
      rw [setEntry]
      split
      case isTrue heq =>
        subst heq
        rw [Dictionary.lookup_cons_ite, Dictionary.lookup_cons_ite]
        split <;> rfl
      case isFalse hne =>
        rw [Dictionary.lookup_cons_ite, Dictionary.lookup_cons_ite, ih]
        by_cases hk : k = key
        · subst hk
          rw [if_neg (Ne.symm hne), if_pos rfl, if_pos rfl]
        · rw [if_neg hk, if_neg hk]

/-- Nothing changes where a key has the value already. -/
theorem setEntry_of_lookup (h : entries.lookup key = some value) :
    setEntry key value entries = entries := by
  induction entries with
  | nil => cases h
  | cons e rest ih =>
      obtain ⟨j, v⟩ := e
      rw [Dictionary.lookup_cons_ite] at h
      rw [setEntry]
      split at h
      case isTrue heq =>
        cases h
        rw [if_pos heq.symm, heq]
      case isFalse hne => rw [if_neg (Ne.symm hne), ih h]

theorem ext {a b : Attributes} (h : a.entries = b.entries) : a = b := by
  cases a
  cases b
  cases h
  rfl

theorem set_of_lookup {a : Attributes} (h : a.entries.lookup key = some value) :
    a.set key value = a :=
  ext (setEntry_of_lookup h)

theorem setAll_append (a : Attributes) (front back : List (String × String)) :
    a.setAll (front ++ back) = (a.setAll front).setAll back :=
  List.foldl_append

theorem ofList_append (front back : List (String × String)) :
    ofList (front ++ back) = (ofList front).setAll back :=
  setAll_append empty front back

/-- The keys stand in the order in which they came first. -/
theorem keys_ofList (entries : List (String × String)) :
    (ofList entries).entries.map (·.1) = (entries.map (·.1)).eraseDups := by
  induction entries using List.reverseRecOn with
  | nil => rfl
  | append_singleton rest e ih =>
      rw [ofList_append, List.map_append, List.eraseDups_append, ← ih]
      change (setEntry e.1 e.2 (ofList rest).entries).map (·.1) = _
      have hmem : e.1 ∈ (ofList rest).entries.map (·.1) ↔ e.1 ∈ rest.map (·.1) := by
        rw [ih, List.mem_eraseDups]
      by_cases old : e.1 ∈ rest.map (·.1)
      · rw [keys_setEntry_of_mem (hmem.2 old)]
        simp [List.removeAll, old]
      · rw [setEntry_of_not_mem (mt hmem.1 old)]
        simp [List.removeAll, old, List.eraseDups_cons]

/-- Each key has the value that came last. -/
theorem lookup_ofList (entries : List (String × String)) (key : String) :
    (ofList entries).entries.lookup key = entries.reverse.lookup key := by
  induction entries using List.reverseRecOn with
  | nil => rfl
  | append_singleton rest e ih =>
      rw [ofList_append, List.reverse_append, List.reverse_singleton, List.singleton_append,
        Dictionary.lookup_cons_ite, ← ih]
      exact lookup_setEntry _ _ _ _

theorem mem_keys_ofList : key ∈ (ofList entries).entries.map (·.1) ↔ key ∈ entries.map (·.1) := by
  rw [keys_ofList, List.mem_eraseDups]

/-- Entries under keys of their own are added as they stand. -/
theorem entries_setAll_of_new {entries : List (String × String)} (a : Attributes)
    (distinct : ((a.entries ++ entries).map (·.1)).Nodup) :
    (a.setAll entries).entries = a.entries ++ entries := by
  induction entries generalizing a with
  | nil => exact (List.append_nil _).symm
  | cons e rest ih =>
      have hnew : e.1 ∉ a.entries.map (·.1) := by
        intro hmem
        rw [List.map_append, List.map_cons] at distinct
        exact (List.nodup_append.1 distinct).2.2 _ hmem _ List.mem_cons_self rfl
      have hset : (a.set e.1 e.2).entries = a.entries ++ [e] := setEntry_of_not_mem hnew
      change ((a.set e.1 e.2).setAll rest).entries = _
      rw [ih, hset, List.append_assoc, List.singleton_append]
      rwa [hset, List.append_assoc, List.singleton_append]

theorem ofList_entries (a : Attributes) : ofList a.entries = a :=
  ext (entries_setAll_of_new empty a.distinct)

/-- To set attributes once more to what they are changes nothing. -/
theorem setAll_of_mem {a : Attributes} {entries : List (String × String)}
    (h : ∀ e ∈ entries, e ∈ a.entries) : a.setAll entries = a := by
  induction entries with
  | nil => rfl
  | cons e rest ih =>
      obtain ⟨hfirst, hrest⟩ := List.forall_mem_cons.1 h
      change (a.set e.1 e.2).setAll rest = a
      rw [set_of_lookup ((Dictionary.lookup_eq_some_iff a.distinct).2 hfirst), ih hrest]

end Attributes

/-- The text of a fragment, none for a prop that is missing. -/
def Fragment.text (props : Json.Fields) : Fragment → String
  | .literal text => text
  | .prop name => ((props.lookup name).map Json.display).getD ""

/-- The keys with the texts that an argument sets, one after the other. -/
def Argument.expansion (props : Json.Fields) (inherited : Attributes) :
    Argument → List (String × String)
  | .named name fragments => [(name, String.join (fragments.map (Fragment.text props)))]
  | .wildcard => inherited.entries

section Expansion

variable {props : Json.Fields} {inherited : Attributes}

theorem Fragment.evaluateAll_of_present {fragments : List Fragment}
    (present : ∀ x, .prop x ∈ fragments → (props.lookup x).isSome) :
    evaluateAll props fragments = .ok (String.join (fragments.map (text props))) := by
  induction fragments with
  | nil => rfl
  | cons fragment rest ih =>
      have hfirst : fragment.evaluate props = .ok (fragment.text props) := by
        cases fragment with
        | literal text => rfl
        | prop name =>
            obtain ⟨v, hv⟩ := Option.isSome_iff_exists.1 (present name List.mem_cons_self)
            rw [evaluate, lookupProp_eq_ok.2 hv, text, hv]
            rfl
      rw [evaluateAll, hfirst, ih fun x hx => present x (List.mem_cons_of_mem _ hx),
        List.map_cons, String.join_cons]
      rfl

theorem Argument.apply_of_present {argument : Argument} (a : Attributes)
    (present : ∀ x ∈ argument.references, (props.lookup x).isSome) :
    argument.apply props inherited a = .ok (a.setAll (argument.expansion props inherited)) := by
  cases argument with
  | named name fragments =>
      rw [apply, Fragment.evaluateAll_of_present fun x hx => present x (mem_references_named.2 hx)]
      rfl
  | wildcard => rfl

theorem Argument.applyAll_of_present {arguments : List Argument} (a : Attributes)
    (present : ∀ x ∈ arguments.flatMap references, (props.lookup x).isSome) :
    applyAll props inherited a arguments =
      .ok (a.setAll (arguments.flatMap (expansion props inherited))) := by
  induction arguments generalizing a with
  | nil => rfl
  | cons argument rest ih =>
      rw [List.flatMap_cons, List.forall_mem_append] at present
      obtain ⟨hargument, hrest⟩ := present
      rw [applyAll, apply_of_present a hargument, List.flatMap_cons, Attributes.setAll_append]
      exact ih _ hrest

/-- Arguments whose props are there set their expansion. -/
theorem evaluateArguments_of_present {arguments : List Argument}
    (present : ∀ x ∈ arguments.flatMap Argument.references, (props.lookup x).isSome) :
    evaluateArguments arguments props inherited =
      .ok (.ofList (arguments.flatMap (Argument.expansion props inherited))) :=
  Argument.applyAll_of_present .empty present

end Expansion

end Stencil
