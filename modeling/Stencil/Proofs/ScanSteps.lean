import Stencil.Template.Machine

/-!
# The steps of a scan

A scan is followed from its start by what it has passed, the state it is in, and what is ahead. An
outcome of a run is a move at a place that the run has reached, so what is kept by every step holds
where a run ends.
-/

namespace Stencil.Machine

variable {σ : Type}

/-- How far a machine comes from a state on a text: the characters that it has passed, its state
then, and the characters ahead. -/
inductive Reaches (m : Machine σ) (s : σ) (cs : List Char) : List Char → σ → List Char → Prop
  | start : Reaches m s cs [] s cs
  | stay {passed t u c ds} (earlier : Reaches m s cs passed t (c :: ds))
      (step : m.step t c ds = .stay u) : Reaches m s cs passed u (c :: ds)
  | pass {passed t u c ds n} (earlier : Reaches m s cs passed t (c :: ds))
      (step : m.step t c ds = .pass n u) :
      Reaches m s cs (passed ++ c :: ds.take n) u (ds.drop n)

variable {m : Machine σ} {s t : σ} {cs ds passed rest : List Char}

/-- Nothing is lost on the way. -/
theorem Reaches.append (h : m.Reaches s cs passed t ds) : passed ++ ds = cs := by
  induction h with
  | start => rfl
  | stay earlier step ih => exact ih
  | pass earlier step ih => simpa using ih

theorem Reaches.found {token : Token} (h : m.Reaches s cs passed t ds)
    (hrun : m.run t ds = .found token rest) :
    ∃ read u c es n, m.Reaches s cs read u (c :: es) ∧ m.step u c es = .accept token n ∧
      rest = (c :: es).drop n := by
  fun_induction run m t ds generalizing passed with
  | case1 t => cases hrun
  | case2 t c ds u hstep ih => exact ih (h.stay hstep) hrun
  | case3 t c ds n u hstep ih => exact ih (h.pass hstep) hrun
  | case4 t c ds accepted n hstep =>
      cases hrun
      exact ⟨passed, t, c, ds, n, h, hstep, rfl⟩
  | case5 t c ds reason hstep => cases hrun

theorem Reaches.stalled {reason : Stall} (h : m.Reaches s cs passed t ds)
    (hrun : m.run t ds = .stalled reason rest) :
    rest = [] ∨
      ∃ read u c es, m.Reaches s cs read u (c :: es) ∧ m.step u c es = .stall reason ∧
        rest = c :: es := by
  fun_induction run m t ds generalizing passed with
  | case1 t =>
      cases hrun
      exact .inl rfl
  | case2 t c ds u hstep ih => exact ih (h.stay hstep) hrun
  | case3 t c ds n u hstep ih => exact ih (h.pass hstep) hrun
  | case4 t c ds accepted n hstep => cases hrun
  | case5 t c ds stalled hstep =>
      cases hrun
      exact .inr ⟨passed, t, c, ds, h, hstep, rfl⟩

end Stencil.Machine
