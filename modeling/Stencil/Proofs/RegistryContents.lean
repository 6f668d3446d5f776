import Stencil.Proofs.Reloading

/-!
# What registries with one fingerprint have in common

The contents of a registry are its names with a source under each. The last registration of a name
decides, wherever it stands among the others. Fingerprints tell contents apart and nothing else, so
a reload reports a change if and only if what it loads differs from what is live.
-/

namespace Stencil

namespace Registry

variable {registry other : Registry} {registrations others : List (String × String)}

/-- Two registries hold the same names, and under each of them the same source. -/
structure SameContents (registry other : Registry) : Prop where
  names : ∀ name, name ∈ registry.names ↔ name ∈ other.names
  sources : ∀ name component component', registry.get? name = some component →
    other.get? name = some component' → component.source = component'.source

/-- The registry that is built by registrations one after the other. -/
def ofRegistrations (limit : Nat) (registrations : List (String × String)) : Registry :=
  (empty.withMaxDepth limit).registerAll registrations

/-- The source in the last registration of a name. -/
def lastSource (registrations : List (String × String)) (name : String) : Option String :=
  registrations.reverse.lookup name

theorem mem_names {name : String} : name ∈ registry.names ↔ (registry.get? name).isSome := by
  rw [names, Dictionary.keys, List.mem_map, Option.isSome_iff_exists]
  constructor
  · rintro ⟨⟨key, component⟩, hmem, rfl⟩
    exact ⟨component, Dictionary.get?_eq_some_iff.2 hmem⟩
  · rintro ⟨component, found⟩
    exact ⟨(name, component), Dictionary.get?_eq_some_iff.1 found, rfl⟩

theorem sameContents_iff : registry.SameContents other ↔
    ∀ name, registry.get? name = other.get? name := by
  constructor
  · intro h name
    have hsome := h.names name
    rw [mem_names, mem_names] at hsome
    cases hc : registry.get? name with
    | none =>
        rw [hc] at hsome
        cases hd : other.get? name with
        | none => rfl
        | some component' =>
            rw [hd] at hsome
            cases hsome.2 rfl
    | some component =>
        rw [hc] at hsome
        obtain ⟨component', hd⟩ := Option.isSome_iff_exists.1 (hsome.1 rfl)
        rw [hd, Component.ext_source (h.sources name component component' hc hd)]
  · intro h
    constructor
    · intro name
      rw [mem_names, mem_names, h]
    · intro name component component' hc hd
      rw [h, hd] at hc
      cases hc
      rfl

/-- A fingerprint depends on the contents alone, and depends on all of them. -/
theorem fingerprint_eq_iff (noCollision : Sha256.NoCollision (registry.hashed ++ other.hashed)) :
    registry.fingerprint = other.fingerprint ↔ registry.SameContents other := by
  rw [sameContents_iff]
  constructor
  · intro h name
    rw [get?, get?, components_eq_of_fingerprint_eq noCollision h]
  · intro h
    rw [fingerprint, fingerprint, Dictionary.ext_get? h]

/-- A registration is seen unless a later one has the same name. -/
theorem get?_registerAll (registry : Registry) (registrations : List (String × String))
    (name : String) : (registry.registerAll registrations).get? name =
      ((lastSource registrations name).map .ofSource).or (registry.get? name) := by
  induction registrations generalizing registry with
  | nil => rfl
  | cons e rest ih =>
      have hregister : (registry.register e.1 e.2).get? name =
          if name = e.1 then some (.ofSource e.2) else registry.get? name :=
        Dictionary.get?_insert _ _ _ _
      have hlast : lastSource (e :: rest) name =
          (lastSource rest name).or (if name = e.1 then some e.2 else none) :=
        Dictionary.lookup_reverse_cons _ _ _
      change ((registry.register e.1 e.2).registerAll rest).get? name = _
      rw [ih, hregister, hlast]
      cases lastSource rest name with
      | some source => rfl
      | none => by_cases h : name = e.1 <;> simp [h]

theorem get?_ofRegistrations (limit : Nat) (registrations : List (String × String))
    (name : String) : (ofRegistrations limit registrations).get? name =
      (lastSource registrations name).map .ofSource := by
  rw [ofRegistrations, get?_registerAll]
  exact Option.or_none

theorem sameContents_ofRegistrations_iff (limit limit' : Nat)
    (registrations others : List (String × String)) :
    (ofRegistrations limit registrations).SameContents (ofRegistrations limit' others) ↔
      ∀ name, lastSource registrations name = lastSource others name := by
  have hinjective : Function.Injective Component.ofSource := fun _ _ h =>
    congrArg Component.source h
  rw [sameContents_iff]
  apply forall_congr'
  intro name
  rw [get?_ofRegistrations, get?_ofRegistrations]
  exact (Option.map_injective hinjective).eq_iff

end Registry

namespace Engine

variable {engine next : Engine} {tree : FileTree} {outcome : Reload}

theorem reload_changed_iff (h : engine.reload tree = .ok (outcome, next)) :
    ∃ fresh, Registry.load engine.config tree = .ok fresh ∧
      (outcome.changed = true ↔ fresh.fingerprint ≠ engine.registry.fingerprint) := by
  obtain ⟨fresh, hfresh, hreload⟩ := bind_eq_ok.1 h
  obtain ⟨rfl, rfl⟩ := Prod.mk.inj (Except.ok.inj hreload)
  exact ⟨fresh, hfresh, bne_iff_ne⟩

end Engine

/-- Registries that were built by whatever registrations have one fingerprint if and only if they
hold the same names with the same sources, which is to say that the last registrations agree. A
reload reports a change if and only if the contents that it loads are not those of the live
registry. -/
theorem fingerprint_identifies_contents :
    (∀ limit limit' registrations others,
      Sha256.NoCollision ((Registry.ofRegistrations limit registrations).hashed ++
        (Registry.ofRegistrations limit' others).hashed) →
      ((Registry.ofRegistrations limit registrations).fingerprint =
          (Registry.ofRegistrations limit' others).fingerprint ↔
        (Registry.ofRegistrations limit registrations).SameContents
          (Registry.ofRegistrations limit' others)) ∧
      ((Registry.ofRegistrations limit registrations).SameContents
          (Registry.ofRegistrations limit' others) ↔
        ∀ name, Registry.lastSource registrations name = Registry.lastSource others name)) ∧
    ∀ (engine next : Engine) (tree : FileTree) (outcome : Engine.Reload),
      engine.reload tree = .ok (outcome, next) →
      ∃ fresh, Registry.load engine.config tree = .ok fresh ∧
        (Sha256.NoCollision (fresh.hashed ++ engine.registry.hashed) →
          (outcome.changed = true ↔ ¬ fresh.SameContents engine.registry)) := by
  constructor
  · intro limit limit' registrations others noCollision
    exact ⟨Registry.fingerprint_eq_iff noCollision,
      Registry.sameContents_ofRegistrations_iff limit limit' registrations others⟩
  · intro engine next tree outcome hreload
    obtain ⟨fresh, hfresh, hchanged⟩ := Engine.reload_changed_iff hreload
    refine ⟨fresh, hfresh, ?_⟩
    intro noCollision
    rw [hchanged, ne_eq, Registry.fingerprint_eq_iff noCollision]

/-- The registry of a directory with one component. -/
def oneComponent : Registry := Registry.ofRegistrations 64 [("list", "y")]

theorem oneComponent_noCollision :
    Sha256.NoCollision (oneComponent.hashed ++ Registry.empty.hashed) := by
  decide +kernel

/-- A registration that a later one replaces leaves no trace in the fingerprint. A registry without
components has another one, and a reload reports the component that is new to it. -/
theorem fingerprint_identifies_contents_replaced :
    (Registry.ofRegistrations 0 [("list", "x"), ("list", "y")]).fingerprint =
        oneComponent.fingerprint ∧
      oneComponent.fingerprint ≠ (Registry.ofRegistrations 64 []).fingerprint ∧
      ∃ outcome next, Engine.default.reload (Engine.listTree "y") = .ok (outcome, next) ∧
        outcome.changed = true := by
  obtain ⟨identifies, reports⟩ := fingerprint_identifies_contents
  refine ⟨?_, ?_, ?_⟩
  · have noCollision : Sha256.NoCollision
        ((Registry.ofRegistrations 0 [("list", "x"), ("list", "y")]).hashed ++
          oneComponent.hashed) := by
      apply oneComponent_noCollision.of_subset
      exact List.append_subset.2 ⟨List.subset_append_left _ _, List.subset_append_left _ _⟩
    obtain ⟨heq, hlast⟩ := identifies _ _ _ _ noCollision
    apply heq.2
    apply hlast.2
    intro name
    simp only [Registry.lastSource, List.reverse_cons, List.reverse_nil, List.nil_append,
      List.cons_append, Dictionary.lookup_cons_ite]
    split <;> rfl
  · obtain ⟨heq, hlast⟩ := identifies 64 64 [("list", "y")] [] oneComponent_noCollision
    intro h
    exact absurd (hlast.1 (heq.1 h) "list") (by decide)
  · obtain ⟨fresh, hfresh, hloaded⟩ := bind_eq_ok.1 (Engine.listTree_load "y")
    cases hloaded
    have hreload : Engine.default.reload (Engine.listTree "y") = .ok (_, _) :=
      bind_eq_ok.2 ⟨_, hfresh, rfl⟩
    refine ⟨_, _, hreload, ?_⟩
    obtain ⟨loaded, hload, hchanged⟩ := reports _ _ _ _ hreload
    cases hfresh.symm.trans hload
    apply (hchanged oneComponent_noCollision).2
    intro hsame
    exact absurd ((hsame.names "list").1 (by decide)) (by decide)

end Stencil
