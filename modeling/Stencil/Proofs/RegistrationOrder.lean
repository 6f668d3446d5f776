import Stencil.Proofs.ByteOrder
import Stencil.Proofs.SourceOrder
import Stencil.Proofs.UnorderedTables

/-!
# The order of registrations

Registrations can be put into any order, as long as the last one of each name stays the same. What
they leave is then read in the same way, and it is listed by name, whatever came first and in
whatever order a table may hold it.
-/

namespace Stencil

namespace Registry

/-- Nothing that can be asked of the registries tells one from the other. -/
structure SameReads (registry other : Registry) : Prop where
  names : registry.names = other.names
  size : registry.size = other.size
  contains : ∀ name, registry.contains name = other.contains name
  get? : ∀ name, registry.get? name = other.get? name
  recovered : registry.recovered = other.recovered
  unresolved : registry.unresolved = other.unresolved
  fingerprint : registry.fingerprint = other.fingerprint
  report : registry.report = other.report
  render : ∀ name props, registry.renderComponent name props = other.renderComponent name props

/-- The registry holds what was registered last under each name. What is found in it is listed by
name in ascending order, and under a name in the order of the source. -/
structure Lists (registry : Registry) (registrations : List (String × String)) : Prop where
  ascending : registry.names.Pairwise fun a b => utf8Bytes a < utf8Bytes b
  names : ∀ name, name ∈ registry.names ↔ name ∈ registrations.map (·.1)
  components : ∀ name, registry.get? name = (lastSource registrations name).map .ofSource
  sourceOrder : ∀ name component, registry.get? name = some component → component.InSourceOrder
  recovered : registry.recovered = registry.names.flatMap fun name =>
    ((registry.get? name).elim [] Component.recovered).map fun r => (name, r)
  unresolved : registry.unresolved = registry.names.flatMap fun name =>
    ((registry.get? name).elim [] fun component =>
      component.dependencies.filter fun d => d.name ∉ registrations.map (·.1)).map fun d => (name, d)

variable {registrations others : List (String × String)}

theorem maxDepth_registerAll (registry : Registry) (registrations : List (String × String)) :
    (registry.registerAll registrations).maxDepth = registry.maxDepth := by
  induction registrations generalizing registry with
  | nil => rfl
  | cons e rest ih => exact ih (registry.register e.1 e.2)

theorem ofRegistrations_eq (limit : Nat)
    (same : ∀ name, lastSource registrations name = lastSource others name) :
    ofRegistrations limit registrations = ofRegistrations limit others := by
  have hcomponents : (ofRegistrations limit registrations).components =
      (ofRegistrations limit others).components :=
    Dictionary.ext_get? (sameContents_iff.1 ((sameContents_ofRegistrations_iff _ _ _ _).2 same))
  have hlimit (registrations : List (String × String)) : ofRegistrations limit registrations =
      ⟨(ofRegistrations limit registrations).components, limit⟩ :=
    congrArg (Registry.mk _) (maxDepth_registerAll _ _)
  rw [hlimit registrations, hlimit others, hcomponents]

theorem lastSource_isSome {name : String} :
    (lastSource registrations name).isSome ↔ name ∈ registrations.map (·.1) := by
  rw [lastSource, List.lookup_isSome_iff]
  simp only [List.mem_reverse, List.mem_map, beq_iff_eq, @eq_comm _ name]

theorem contains_ofRegistrations (limit : Nat) (registrations : List (String × String))
    (name : String) : (ofRegistrations limit registrations).contains name = true ↔
      name ∈ registrations.map (·.1) := by
  change ((ofRegistrations limit registrations).get? name).isSome = true ↔ _
  rw [get?_ofRegistrations, Option.isSome_map, lastSource_isSome]

theorem ofRegistrations_lists (limit : Nat) (registrations : List (String × String)) :
    (ofRegistrations limit registrations).Lists registrations where
  ascending := (List.pairwise_map.2 (Dictionary.ascending _)).imp lt_iff_utf8Bytes_lt.1
  names _ := mem_names.trans (contains_ofRegistrations limit registrations _)
  components := get?_ofRegistrations limit registrations
  sourceOrder _ component _ := component.inSourceOrder
  recovered := flatMap_entries _ _
  unresolved := by
    have hmissing (d : Dependency) : (!(ofRegistrations limit registrations).contains d.name) =
        decide (d.name ∉ registrations.map (·.1)) := by
      rw [Bool.eq_iff_iff, Bool.not_eq_true', decide_eq_true_iff,
        ← contains_ofRegistrations limit, Bool.not_eq_true]
    rw [Registry.unresolved]
    simp only [hmissing]
    exact flatMap_entries _ fun component =>
      component.dependencies.filter fun d => d.name ∉ registrations.map (·.1)

end Registry

/-- What is read off a table is what the registry gives. -/
structure Table.ReadsAs (table : Table) (registry : Registry) : Prop where
  names : table.names = registry.names
  get? : ∀ name, table.lookup name = registry.get? name
  recovered : table.recovered = registry.recovered
  unresolved : table.unresolved = registry.unresolved
  fingerprint : table.fingerprint = registry.fingerprint
  report : table.report = registry.report

theorem Table.readsAs {table : Table} {registry : Registry}
    (perm : table.Perm registry.components.entries) : table.ReadsAs registry :=
  ⟨names_eq perm, lookup_eq perm, recovered_eq perm, unresolved_eq perm, fingerprint_eq perm,
    report_eq perm⟩

/-- Registrations of the same names that end with the same source under each of them cannot be told
apart, and neither can the tables that they leave in whatever order. The names are those that were
registered, in ascending order of their bytes. Under them stand all recoveries and all inclusions of
names that were not registered, each in the order of its source. -/
theorem Registry.ofRegistrations_order (limit : Nat)
    {registrations others : List (String × String)}
    (same : ∀ name, lastSource registrations name = lastSource others name) :
    (ofRegistrations limit registrations).SameReads (ofRegistrations limit others) ∧
      (ofRegistrations limit registrations).Lists registrations ∧
      ∀ table, LeftBy registrations table → table.ReadsAs (ofRegistrations limit others) := by
  have heq := ofRegistrations_eq limit same
  refine ⟨?_, ofRegistrations_lists limit registrations, ?_⟩
  · rw [heq]
    exact ⟨rfl, rfl, fun _ => rfl, fun _ => rfl, rfl, rfl, rfl, rfl, fun _ _ => rfl⟩
  · intro table left
    rw [← heq]
    exact Table.readsAs (perm_entries left limit)

/-- A component is replaced, and another one is registered between its two sources. -/
def replacing : List (String × String) :=
  [("b", "x"), ("a", "<ez name=\"c\" id=\"i\" />"), ("b", "$\x7bb x\x7d")]

/-- The same two components, the other one first. -/
def settled : List (String × String) :=
  [("a", "<ez name=\"c\" id=\"i\" />"), ("b", "$\x7bb x\x7d")]

/-- A table of the two components that is not in the order of their names. -/
def replacedTable : Table :=
  [("b", .ofSource "$\x7bb x\x7d"), ("a", .ofSource "<ez name=\"c\" id=\"i\" />")]

theorem leftBy_replacedTable : LeftBy replacing replacedTable := by
  have first : LeftBy [("b", "x")] [("b", .ofSource "x")] := .register .start (.refl _)
  have second : LeftBy [("b", "x"), ("a", "<ez name=\"c\" id=\"i\" />")]
      [("b", .ofSource "x"), ("a", .ofSource "<ez name=\"c\" id=\"i\" />")] :=
    .register first (.swap _ _ _)
  exact .register second (.refl _)

theorem Registry.ofRegistrations_order_replaced :
    (ofRegistrations 64 replacing).report = (ofRegistrations 64 settled).report ∧
      replacedTable.names = ["a", "b"] ∧
      replacedTable.recovered = [("b", ⟨.prop, 0, 4, 1, 1, .colonOrEndMissing⟩)] ∧
      replacedTable.unresolved = [("a", ⟨"c", "i", false⟩)] := by
  have same : ∀ name, lastSource replacing name = lastSource settled name := by
    intro name
    simp only [replacing, settled, lastSource, List.reverse_cons, List.reverse_nil,
      List.nil_append, List.cons_append, Dictionary.lookup_cons_ite]
    split <;> rfl
  obtain ⟨reads, _, tables⟩ := ofRegistrations_order 64 same
  have table := tables _ leftBy_replacedTable
  refine ⟨reads.report, table.names.trans ?_, table.recovered.trans ?_, table.unresolved.trans ?_⟩
  · cbv
  · cbv
  · cbv

end Stencil
