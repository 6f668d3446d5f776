import Stencil.Proofs.RegistryContents

/-!
# What a reload reports

A reload is written out in the order of its effects on the live engine: it reads the configuration,
loads, reports on what it loaded, compares, and puts the new registry in place only then. A reload
that fails leaves the engine as it was, and what one that succeeds reports is true of the registry
that is live afterwards, be that the new one or the one that was kept.
-/

namespace Stencil

/-- A report says nothing of the limit of its registry. -/
theorem Registry.report_eq_of_components {registry other : Registry}
    (h : registry.components = other.components) : registry.report = other.report := by
  rw [eq_withMaxDepth h]
  rfl

namespace Engine

/-- A computation on a live engine. Its effects stay even if it ends with an error. -/
abbrev Live (α : Type) : Type := ExceptT LoadError (StateM Engine) α

/-- How a computation on an engine ends, and the engine that it leaves. -/
def Live.on {α : Type} (x : Live α) (engine : Engine) : Except LoadError α × Engine :=
  x.run.run engine

/-- Put another registry in place of the live one, which is given back. -/
def swapLive (registry : Registry) : Live Registry := do
  let (previous, next) := (← get).swap registry
  set next
  return previous

/-- Report on a registry, and put it in place if its fingerprint is new. -/
def publishLive (fresh : Registry) : Live Reload := do
  let report := fresh.report
  let changed := report.fingerprint != (← get).registry.fingerprint
  if changed then
    let _ ← swapLive fresh
  return ⟨changed, report⟩

/-- A reload, effect by effect. -/
def reloadLive (tree : FileTree) : Live Reload := do
  let fresh ← liftExcept (Registry.load (← get).config tree)
  publishLive fresh

theorem Live.on_bind {α β : Type} (x : Live α) (f : α → Live β) (engine : Engine) :
    (x >>= f).on engine =
      match x.on engine with
      | (.ok a, next) => (f a).on next
      | (.error e, next) => (.error e, next) := by
  change ExceptT.bindCont f (x.on engine).1 (x.on engine).2 = _
  obtain ⟨result, next⟩ := x.on engine
  cases result <;> rfl

theorem publishLive_on (fresh : Registry) (engine : Engine) :
    (publishLive fresh).on engine =
      (.ok ⟨fresh.fingerprint != engine.registry.fingerprint, fresh.report⟩,
        if fresh.fingerprint != engine.registry.fingerprint then (engine.swap fresh).2
        else engine) := by
  rw [publishLive, Live.on_bind]
  change Live.on (if fresh.fingerprint != engine.registry.fingerprint then _ else _) engine = _
  split <;> rfl

/-- Effect by effect a reload does what it does as a whole, and keeps the engine if it fails. -/
theorem reloadLive_on (engine : Engine) (tree : FileTree) :
    (reloadLive tree).on engine =
      match engine.reload tree with
      | .ok (outcome, next) => (.ok outcome, next)
      | .error e => (.error e, engine) := by
  have hload : (reloadLive tree).on engine =
      (liftExcept (Registry.load engine.config tree) >>= publishLive).on engine := rfl
  rw [hload, Live.on_bind, reload]
  cases Registry.load engine.config tree with
  | error e => rfl
  | ok fresh => exact publishLive_on fresh engine

/-- A reload that fails leaves the engine as it was, whatever engine that is. One that succeeds
reports on the registry that is live then; if it found no change that is the registry it met. -/
theorem reloadLive_atomic (engine : Engine) (tree : FileTree) :
    (∀ e after, (reloadLive tree).on engine = (.error e, after) → after = engine) ∧
    ∀ outcome after, (reloadLive tree).on engine = (.ok outcome, after) →
      (outcome.changed = false → after = engine) ∧
      ∃ fresh, Registry.load engine.config tree = .ok fresh ∧
        (Sha256.NoCollision (fresh.hashed ++ engine.registry.hashed) →
          outcome.report = after.registry.report) := by
  rw [reloadLive_on]
  constructor
  · intro e after h
    split at h <;> cases h
    rfl
  · intro outcome after h
    split at h <;> cases h
    rename_i hreload
    obtain ⟨fresh, hfresh, hreport, ⟨hchanged, rfl⟩ | ⟨hunchanged, hsame, rfl⟩⟩ :=
      reload_eq_ok hreload
    · refine ⟨?_, fresh, hfresh, fun _ => hreport⟩
      rw [hchanged]
      exact nofun
    · refine ⟨fun _ => rfl, fresh, hfresh, ?_⟩
      intro noCollision
      -- the report is on the registry that was dropped, which held the same components
      rw [hreport]
      exact Registry.report_eq_of_components
        (Registry.components_eq_of_fingerprint_eq noCollision hsame)

/-- A directory whose one file is no text. -/
def unreadableTree : FileTree := fileTree ⟨#[0xff]⟩

theorem unreadableTree_load :
    Registry.load .default unreadableTree = .error (.read "components/list.html" .notUtf8) := by
  have hcheck : FileTree.checkPath "components/list.html" = .ok () := rfl
  have hread : String.fromUTF8? ⟨#[0xff]⟩ = none := by decide
  have htext : FoundFile.text ⟨"components/list.html", ["list.html"], ⟨#[0xff]⟩⟩ =
      .error .notUtf8 := by
    rw [FoundFile.text, hcheck, FileTree.decode, hread]
    rfl
  have htake : Registry.empty.addFile .default
      ⟨"components/list.html", ["list.html"], ⟨#[0xff]⟩⟩ =
        .error (.read "components/list.html" .notUtf8) := by
    rw [Registry.addFile, htext]
    exact if_pos list_accepted
  rw [Registry.load]
  exact (if_pos (fileTree_exists _)).trans ((fileTree_walk _ _ _).trans htake)

/-- An engine keeps a registry that was put in when a reload fails, and when a reload finds the same
components, on which it then reports. A reload that finds another component reports on the new
registry. -/
theorem reloadLive_atomic_kept :
    (∃ e after, (reloadLive unreadableTree).on kept = (.error e, after) ∧ after = kept) ∧
    (∃ outcome after, (reloadLive (listTree repeating)).on kept = (.ok outcome, after) ∧
      after = kept ∧ outcome.report = after.registry.report) ∧
    ∃ outcome after, (reloadLive (listTree "y")).on .default = (.ok outcome, after) ∧
      outcome.changed = true ∧ outcome.report = after.registry.report := by
  refine ⟨?_, ?_, ?_⟩
  · have hrun : (reloadLive unreadableTree).on kept =
        (.error (.read "components/list.html" .notUtf8), kept) := by
      have hreload : kept.reload unreadableTree =
          .error (.read "components/list.html" .notUtf8) := by
        have hload : Registry.load kept.config unreadableTree = _ := unreadableTree_load
        rw [reload, hload]
        rfl
      rw [reloadLive_on, hreload]
    exact ⟨_, _, hrun, (reloadLive_atomic kept unreadableTree).1 _ _ hrun⟩
  · have hrun : (reloadLive (listTree repeating)).on kept = (.ok ⟨false, deep.report⟩, kept) := by
      rw [reloadLive_on, kept_reload]
    obtain ⟨hkept, fresh, hfresh, hreport⟩ :=
      (reloadLive_atomic kept (listTree repeating)).2 _ _ hrun
    obtain ⟨_, hdeep, hloaded⟩ := bind_eq_ok.1 (listTree_load repeating)
    cases hloaded
    cases hdeep.symm.trans hfresh
    exact ⟨_, _, hrun, hkept rfl, hreport kept_noCollision⟩
  · obtain ⟨_, hload, hloaded⟩ := bind_eq_ok.1 (listTree_load "y")
    cases hloaded
    have hreload : Engine.default.reload (listTree "y") = .ok (_, _) :=
      bind_eq_ok.2 ⟨_, hload, rfl⟩
    have hrun := reloadLive_on .default (listTree "y")
    rw [hreload] at hrun
    obtain ⟨_, fresh, hfresh, hreport⟩ := (reloadLive_atomic .default (listTree "y")).2 _ _ hrun
    cases hload.symm.trans hfresh
    refine ⟨_, _, hrun, ?_, hreport oneComponent_noCollision⟩
    decide +kernel

end Engine

end Stencil
