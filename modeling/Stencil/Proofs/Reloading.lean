import Stencil.Engine.Basic
import Stencil.Proofs.Fingerprints
import Stencil.Proofs.RenderSteps
import Stencil.Proofs.Walking

/-!
# What a reload leaves behind

After a reload the live registry holds the components that are in the directory. Its limit is that
of the configuration, unless the reload found no change and kept a registry that was put in from
outside.
-/

namespace Stencil

/-- A load keeps the configured limit. -/
theorem Registry.load_maxDepth {config : Config} {tree : FileTree} {registry : Registry}
    (h : load config tree = .ok registry) : registry.maxDepth = config.maxDepth := by
  unfold load at h
  dsimp only at h
  split at h
  · apply FileTree.walk_preserves (P := fun r : Registry => r.maxDepth = config.maxDepth) _ h rfl
    intro s t file htake hs
    rw [← hs]
    dsimp only [addFile] at htake
    split at htake
    · split at htake <;> cases htake
      rfl
    · cases htake
      rfl
  · cases h
    rfl

theorem Registry.eq_withMaxDepth {registry other : Registry}
    (h : registry.components = other.components) :
    registry = other.withMaxDepth registry.maxDepth := by
  obtain ⟨components, maxDepth⟩ := registry
  cases h
  rfl

namespace Engine

variable {engine next : Engine} {tree : FileTree} {outcome : Reload} {swapped : List Registry}

theorem load_eq_ok {config : Config} {loaded : Engine} (h : load config tree = .ok loaded) :
    Registry.load config tree = .ok loaded.registry ∧ loaded.config = config := by
  obtain ⟨registry, hregistry, hloaded⟩ := bind_eq_ok.1 h
  cases hloaded
  exact ⟨hregistry, rfl⟩

/-- A reload loads anew, and keeps the live registry if the fingerprint is the same. -/
theorem reload_eq_ok (h : engine.reload tree = .ok (outcome, next)) :
    ∃ fresh, Registry.load engine.config tree = .ok fresh ∧ outcome.report = fresh.report ∧
      ((outcome.changed = true ∧ next = ⟨engine.config, fresh⟩) ∨
        (outcome.changed = false ∧ fresh.fingerprint = engine.registry.fingerprint ∧
          next = engine)) := by
  obtain ⟨fresh, hfresh, hreload⟩ := bind_eq_ok.1 h
  obtain ⟨rfl, rfl⟩ := Prod.mk.inj (Except.ok.inj hreload)
  refine ⟨fresh, hfresh, rfl, ?_⟩
  by_cases hsame : fresh.fingerprint = engine.registry.fingerprint
  · have hunchanged : (fresh.report.fingerprint != engine.registry.fingerprint) = false := by
      rw [bne_eq_false_iff_eq]
      exact hsame
    exact .inr ⟨hunchanged, hsame, if_neg (by rw [hunchanged]; exact Bool.false_ne_true)⟩
  · have hchanged : (fresh.report.fingerprint != engine.registry.fingerprint) = true :=
      bne_iff_ne.2 hsame
    exact .inl ⟨hchanged, if_pos hchanged⟩

end Engine

/-- The engines of a session with the registries that were put in from outside. A session begins
with a load or with a registry, and a reload that fails is no step. -/
inductive Session : Engine → List Registry → Prop
  | load {config tree engine} (h : Engine.load config tree = .ok engine) : Session engine []
  | ofRegistry (registry : Registry) : Session (.ofRegistry registry) []
  | swap {engine swapped} (earlier : Session engine swapped) (registry : Registry) :
      Session (engine.swap registry).2 (registry :: swapped)
  | reload {engine swapped tree outcome next} (earlier : Session engine swapped)
      (h : engine.reload tree = .ok (outcome, next)) : Session next swapped

/-- The live registry has the configured limit, or else was put in from outside. -/
theorem Session.maxDepth_or_mem {engine : Engine} {swapped : List Registry}
    (h : Session engine swapped) :
    engine.registry.maxDepth = engine.config.maxDepth ∨ engine.registry ∈ swapped := by
  induction h with
  | load hload =>
      obtain ⟨hregistry, hconfig⟩ := Engine.load_eq_ok hload
      rw [hconfig]
      exact .inl (Registry.load_maxDepth hregistry)
  | ofRegistry registry => exact .inl rfl
  | swap earlier registry ih => exact .inr List.mem_cons_self
  | reload earlier hreload ih =>
      obtain ⟨fresh, hfresh, _, ⟨_, rfl⟩ | ⟨_, _, rfl⟩⟩ := Engine.reload_eq_ok hreload
      · exact .inl (Registry.load_maxDepth hfresh)
      · exact ih

namespace Engine

variable {engine next : Engine} {tree : FileTree} {outcome : Reload} {swapped : List Registry}

/-- After a reload the engine renders as one that is freshly loaded, under the limit of the live
registry. That is the configured limit, unless the reload kept a registry that was put in from
outside with another one. -/
theorem reload_renders_as_loaded (session : Session engine swapped)
    (hreload : engine.reload tree = .ok (outcome, next)) :
    ∃ fresh, load engine.config tree = .ok fresh ∧
      (Sha256.NoCollision (fresh.registry.hashed ++ engine.registry.hashed) →
        (∀ name props, next.renderComponent name props =
          (fresh.registry.withMaxDepth next.registry.maxDepth).renderComponent name props) ∧
        ((outcome.changed = false ∧ next.registry ∈ swapped ∧
            next.registry.maxDepth ≠ engine.config.maxDepth) ∨
          ∀ name props, next.renderComponent name props = fresh.renderComponent name props)) := by
  obtain ⟨fresh, hfresh, _, ⟨_, rfl⟩ | ⟨hunchanged, hsame, rfl⟩⟩ := reload_eq_ok hreload
  · refine ⟨⟨engine.config, fresh⟩, bind_eq_ok.2 ⟨fresh, hfresh, rfl⟩, ?_⟩
    intro _
    exact ⟨fun name props => rfl, .inr fun name props => rfl⟩
  · refine ⟨⟨next.config, fresh⟩, bind_eq_ok.2 ⟨fresh, hfresh, rfl⟩, ?_⟩
    intro noCollision
    have hkept : next.registry = fresh.withMaxDepth next.registry.maxDepth := by
      apply Registry.eq_withMaxDepth
      exact (Registry.components_eq_of_fingerprint_eq noCollision hsame).symm
    constructor
    · intro name props
      rw [renderComponent, ← hkept]
    · by_cases hdepth : next.registry.maxDepth = next.config.maxDepth
      · right
        intro name props
        rw [renderComponent, hkept, hdepth, ← Registry.load_maxDepth hfresh]
        rfl
      · left
        have hmem := session.maxDepth_or_mem.resolve_left hdepth
        exact ⟨hunchanged, hmem, hdepth⟩

/-- A directory with one file that the default configuration accepts. -/
def fileTree (content : ByteArray) : FileTree :=
  .directory [("components", .directory [("list.html", .file content)])]

/-- A directory with the text of one component, `list`. -/
def listTree (text : String) : FileTree :=
  .directory [("components", .directory [("list.html", .file text.toUTF8)])]

def listFile (text : String) : FoundFile := ⟨"components/list.html", ["list.html"], text.toUTF8⟩

theorem fileTree_find (content : ByteArray) (manner : FileTree.Manner) :
    (fileTree content).find manner "components" = .ok (.below ["components"], 40) := by
  change (fileTree content).follow manner 40 .top ["components"] = _
  rw [FileTree.follow]
  change (fileTree content).follow manner 40 (.below ["components"]) [] = _
  rw [FileTree.follow]

theorem fileTree_exists (content : ByteArray) :
    (fileTree content).exists? "components" = true := by
  rw [FileTree.exists?, FileTree.target, fileTree_find]
  rfl

theorem fileTree_walk {σ ε : Type} (v : Visitor σ ε) (content : ByteArray) (s : σ) :
    (fileTree content).walk false "components" v s =
      v.take s ⟨"components/list.html", ["list.html"], content⟩ := by
  have hcheck : FileTree.checkPath "components" = .ok () := rfl
  have hjoin : Path.join "components" "list.html" = "components/list.html" := rfl
  rw [FileTree.walk, fileTree_find, fileTree_find]
  change FileTree.visit v (fun _ _ s => .ok s) ⟨"components", [], .below ["components"], []⟩
    (.directory [("list.html", .file content)]) s = _
  simp only [FileTree.visit, FileTree.visitEntries, hcheck, WalkPlace.child, WalkPlace.enter, hjoin,
    List.nil_append]
  split <;> simp_all

theorem listFile_text (text : String) : (listFile text).text = .ok text := by
  have hcheck : FileTree.checkPath "components/list.html" = .ok () := rfl
  have hread : String.fromUTF8? text.toUTF8 = some text := dif_pos text.isValidUTF8
  rw [listFile, FoundFile.text, hcheck, FileTree.decode, hread]
  rfl

theorem list_accepted : Config.default.accepts "components/list.html" = true := by decide +kernel

theorem listTree_load (text : String) :
    load .default (listTree text) = .ok ⟨.default, Registry.empty.register "list" text⟩ := by
  have htake : Registry.empty.addFile .default (listFile text) =
      .ok (Registry.empty.register "list" text) := by
    rw [Registry.addFile, listFile_text]
    exact if_pos list_accepted
  apply bind_eq_ok.2
  refine ⟨_, ?_, rfl⟩
  rw [Registry.load]
  exact (if_pos (fileTree_exists text.toUTF8)).trans ((fileTree_walk _ text.toUTF8 _).trans htake)

/-- A component that includes itself for the items of an array. -/
def repeating : String := "<ez-for name=\"list\" id=\"x\" />"

def deep : Registry := Registry.empty.register "list" repeating

/-- The same component under a limit that allows no inclusion. -/
def shallow : Registry := deep.withMaxDepth 0

/-- An engine whose registry was put in after a load. -/
def kept : Engine := (swap ⟨.default, deep⟩ shallow).2

theorem kept_session : Session kept [shallow] :=
  .swap (.load (listTree_load repeating)) shallow

theorem kept_reload :
    kept.reload (listTree repeating) = .ok (⟨false, deep.report⟩, kept) := by
  obtain ⟨fresh, hfresh, hloaded⟩ := bind_eq_ok.1 (listTree_load repeating)
  cases hloaded
  have hunchanged : (deep.report.fingerprint != kept.registry.fingerprint) = false :=
    bne_self_eq_false _
  apply bind_eq_ok.2
  refine ⟨deep, hfresh, ?_⟩
  dsimp only
  rw [hunchanged]
  rfl

theorem kept_noCollision : Sha256.NoCollision (deep.hashed ++ kept.registry.hashed) := by
  have hdeep : Sha256.NoCollision deep.hashed := by decide +kernel
  apply hdeep.of_subset
  exact List.append_subset.2 ⟨List.Subset.refl _, List.Subset.refl _⟩

theorem reload_renders_as_loaded_kept :
    kept.reload (listTree repeating) = .ok (⟨false, deep.report⟩, kept) ∧
      ∃ fresh, load .default (listTree repeating) = .ok fresh ∧
        ∀ name props, kept.renderComponent name props =
          (fresh.registry.withMaxDepth 0).renderComponent name props := by
  refine ⟨kept_reload, ?_⟩
  obtain ⟨fresh, hfresh, hrenders⟩ := reload_renders_as_loaded kept_session kept_reload
  have hdeep := (Except.ok.inj ((listTree_load repeating).symm.trans hfresh))
  subst hdeep
  exact ⟨_, hfresh, (hrenders kept_noCollision).1⟩

/-- A registry that was put in with another limit is kept by a reload, and renders otherwise. -/
theorem not_reload_renders_as_loaded :
    ¬ ∀ (engine next fresh : Engine) (swapped : List Registry) (tree : FileTree) (outcome : Reload),
      Session engine swapped → engine.reload tree = .ok (outcome, next) →
      load engine.config tree = .ok fresh →
      Sha256.NoCollision (fresh.registry.hashed ++ engine.registry.hashed) →
      ∀ name props, next.renderComponent name props = fresh.renderComponent name props := by
  intro hclaim
  have hsame := hclaim kept kept ⟨.default, deep⟩ [shallow] (listTree repeating) _ kept_session
    kept_reload (listTree_load repeating) kept_noCollision "list" [("x", .array [])]
  have hdeep : renderComponent ⟨.default, deep⟩ "list" [("x", .array [])] = .ok "" := by cbv
  have hshallow : kept.renderComponent "list" [("x", .array [])] =
      .error (.depthExceeded "list" 0) := by
    cbv
  rw [hshallow, hdeep] at hsame
  cases hsame

end Engine

end Stencil
