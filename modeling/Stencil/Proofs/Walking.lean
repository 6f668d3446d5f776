import Stencil.FileTree.Walk

/-!
# What a walk preserves

A walk changes what it is making only by taking in files, below links too. So two walks that take in
every file alike end alike, and what is kept by every file that is taken in holds of the outcome.
-/

namespace Stencil

variable {σ τ ε δ : Type}

/-- Two outcomes are states that are related, or an error and what is made of it. -/
inductive Corresponds (R : σ → τ → Prop) (E : ε → δ) : Except ε σ → Except δ τ → Prop
  | ok {s t} (related : R s t) : Corresponds R E (.ok s) (.ok t)
  | error {e} : Corresponds R E (.error e) (.error (E e))

/-- A visitor takes in every file as another does, from related states to related ones. -/
structure Visitor.Simulates (w : Visitor τ δ) (v : Visitor σ ε) (R : σ → τ → Prop) (E : ε → δ) :
    Prop where
  take : ∀ {s t}, R s t → ∀ file, Corresponds R E (v.take s file) (w.take t file)
  fault : ∀ e, w.fault e = E (v.fault e)

/-- A property that taking in a file does not break. -/
def Visitor.Preserves (v : Visitor σ ε) (P : σ → Prop) : Prop :=
  ∀ {s t file}, v.take s file = .ok t → P s → P t

namespace FileTree

variable {v : Visitor σ ε} {w : Visitor τ δ} {R : σ → τ → Prop} {E : ε → δ} {P : σ → Prop}
variable {onLink : WalkPlace → String → σ → Except ε σ}
variable {atLink : WalkPlace → String → τ → Except δ τ}

mutual

theorem visit_corresponds (hw : w.Simulates v R E)
    (hlink : ∀ {s t}, R s t → ∀ place target,
      Corresponds R E (onLink place target s) (atLink place target t))
    (place : WalkPlace) (tree : FileTree) {s : σ} {t : τ} (h : R s t) :
    Corresponds R E (visit v onLink place tree s) (visit w atLink place tree t) := by
  match tree with
  | .file content => exact hw.take h _
  | .directory entries =>
      rw [visit, visit]
      split
      · rw [hw.fault]
        exact .error
      · exact visitEntries_corresponds hw hlink _ entries h
  | .link target => exact hlink h _ _

theorem visitEntries_corresponds (hw : w.Simulates v R E)
    (hlink : ∀ {s t}, R s t → ∀ place target,
      Corresponds R E (onLink place target s) (atLink place target t))
    (place : WalkPlace) (entries : List (String × FileTree)) {s : σ} {t : τ} (h : R s t) :
    Corresponds R E (visitEntries v onLink place entries s)
      (visitEntries w atLink place entries t) := by
  match entries with
  | [] => exact .ok h
  | (name, node) :: rest =>
      have hnode := visit_corresponds hw hlink (place.child name) node h
      rw [visitEntries, visitEntries]
      generalize visit v onLink (place.child name) node s = taken at hnode ⊢
      generalize visit w atLink (place.child name) node t = taken' at hnode ⊢
      cases hnode with
      | ok related => exact visitEntries_corresponds hw hlink place rest related
      | error => exact .error

end

theorem visitLink_corresponds (hw : w.Simulates v R E) (tree : FileTree) (links : Nat) {s : σ}
    {t : τ} (h : R s t) (place : WalkPlace) (target : String) :
    Corresponds R E (tree.visitLink v links place target s)
      (tree.visitLink w links place target t) := by
  -- on the number of links that may still be followed
  induction links using Nat.strongRecOn generalizing place target s t with
  | ind links ih =>
      have hfault : ∀ e, Corresponds R E (.error (v.fault e)) (.error (w.fault e)) := by
        intro e
        rw [hw.fault]
        exact .error
      rw [visitLink.eq_def, visitLink.eq_def]
      split
      · exact hfault _
      · exact hfault _
      · split
        · exact hfault _
        · rename_i location left hfollow
          split
          · split
            · exact hfault _
            · apply visitEntries_corresponds hw _ _ _ h
              intro s t h place target
              exact ih left (Nat.lt_succ_of_le (follow_le hfollow)) h place target
          · exact hw.take h _
          · exact hfault _

theorem walk_corresponds (hw : w.Simulates v R E) (tree : FileTree) (followLinks : Bool)
    (path : String) {s : σ} {t : τ} (h : R s t) :
    Corresponds R E (tree.walk followLinks path v s) (tree.walk followLinks path w t) := by
  have hfault : ∀ e, Corresponds R E (.error (v.fault e)) (.error (w.fault e)) := by
    intro e
    rw [hw.fault]
    exact .error
  unfold walk
  split
  · exact hfault _
  · exact hfault _
  · dsimp only
    split
    · split
      · exact hw.take h _
      · exact .ok h
    · apply visit_corresponds hw _ _ _ h
      intro s t h place target
      split
      · exact visitLink_corresponds hw tree _ h place target
      · exact .ok h
    · exact hfault _

theorem walk_preserves (hv : v.Preserves P) {tree : FileTree} {followLinks : Bool} {path : String}
    {s t : σ} (h : tree.walk followLinks path v s = .ok t) (hs : P s) : P t := by
  have hself : v.Simulates v (fun s t => s = t ∧ P s) id := by
    refine ⟨?_, fun e => rfl⟩
    rintro s _ ⟨rfl, hs⟩ file
    cases htake : v.take s file with
    | ok t => exact .ok ⟨rfl, hv htake hs⟩
    | error e => exact .error
  have hwalk := walk_corresponds hself tree followLinks path ⟨rfl, hs⟩
  rw [h] at hwalk
  cases hwalk with
  | ok related => exact related.2

end FileTree

end Stencil
