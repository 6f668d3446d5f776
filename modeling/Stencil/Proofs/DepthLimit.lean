import Stencil.Proofs.Comparison
import Stencil.Proofs.InclusionGraph

/-!
# The limit on the depth of inclusions

A limit cuts a rendering off and changes it in no other way: under a greater limit the result is the
same unless it was an error of the limit, and a limit that the chains of inclusions keep to is never
met. The levels left are the limit less a depth that is counted upwards, also where the counter is a
machine word.
-/

namespace Stencil

/-- The fault of a rendering that the limit has cut off. -/
def RenderError.IsDepthExceeded (e : RenderError) : Prop :=
  ∃ name limit, e = .depthExceeded name limit

/-- A renderer that counts its depth in a machine word, where an increment may wrap. It goes a level
deeper only below the limit; nothing is asked of it at depths beyond. -/
def CountsDepth (registry : Registry) {w : Nat} (limit : BitVec w)
    (render : BitVec w → Renderer) : Prop :=
  ∀ depth ≤ limit, ∀ component props forwarded,
    render depth component props forwarded =
      Render.tokensText registry (if depth < limit then some (render (depth + 1)) else none)
        props forwarded component.tokens

namespace Render

variable {registry : Registry} {component : Component} {props : Json.Fields}
variable {forwarded : Attributes}

/-- Below a limit an increment does not wrap. -/
theorem toNat_succ_depth {w : Nat} {depth limit : BitVec w} (h : depth < limit) :
    (depth + 1).toNat = depth.toNat + 1 := by
  have hlt : depth.toNat < limit.toNat := BitVec.lt_def.1 h
  have hbound : depth.toNat + 1 < 2 ^ w := by
    have hlimit : limit.toNat < 2 ^ w := limit.isLt
    omega
  calc
    (depth + 1).toNat = (depth.toNat + 1 % 2 ^ w) % 2 ^ w := BitVec.toNat_add _ _
    _ = (depth.toNat + 1) % 2 ^ w := Nat.add_mod_mod _ _ _
    _ = depth.toNat + 1 := Nat.mod_eq_of_lt hbound

/-- The levels left at a depth are what the limit exceeds it by. -/
theorem countsDepth_within (registry : Registry) {w : Nat} (limit : BitVec w) :
    CountsDepth registry limit fun depth => within registry (limit.toNat - depth.toNat) := by
  intro depth hdepth component props forwarded
  change within registry (limit.toNat - depth.toNat) component props forwarded = _
  rw [within_eq]
  have hle : depth.toNat ≤ limit.toNat := BitVec.le_def.1 hdepth
  by_cases hlt : depth < limit
  · have hnat : depth.toNat < limit.toNat := BitVec.lt_def.1 hlt
    obtain ⟨n, hn⟩ : ∃ n, limit.toNat - depth.toNat = n + 1 :=
      ⟨limit.toNat - depth.toNat - 1, by omega⟩
    have hnext : limit.toNat - (depth + 1).toNat = n := by
      rw [toNat_succ_depth hlt]
      omega
    change _ = tokensText registry
      (if depth < limit then some (within registry (limit.toNat - (depth + 1).toNat)) else none)
      props forwarded component.tokens
    rw [if_pos hlt, hn, hnext, below?]
  · have hnat : ¬ depth.toNat < limit.toNat := fun h => hlt (BitVec.lt_def.2 h)
    have hzero : limit.toNat - depth.toNat = 0 := by omega
    rw [if_neg hlt, hzero, below?]

/-- A renderer that counts its depth gives at each depth up to the limit what is given with the
levels that are left. -/
theorem eq_within_of_countsDepth {w : Nat} {limit : BitVec w} {render : BitVec w → Renderer}
    (counts : CountsDepth registry limit render) {depth : BitVec w} {levels : Nat}
    (hlevels : depth.toNat + levels = limit.toNat) :
    render depth = within registry levels := by
  -- on the levels left: one deeper the counter is one higher, and one level less is left
  induction levels generalizing depth with
  | zero =>
      have hle : depth ≤ limit := BitVec.le_def.2 (by omega)
      have hlt : ¬ depth < limit := by
        intro h
        have hnat := BitVec.lt_def.1 h
        omega
      funext component props forwarded
      rw [counts depth hle, if_neg hlt, within_eq, below?]
  | succ levels ih =>
      have hle : depth ≤ limit := BitVec.le_def.2 (by omega)
      have hlt : depth < limit := BitVec.lt_def.2 (by omega)
      have hnext : (depth + 1).toNat + levels = limit.toNat := by
        rw [toNat_succ_depth hlt]
        omega
      funext component props forwarded
      rw [counts depth hle, if_pos hlt, ih hnext, within_eq, below?]

/-- With at least as many levels left a rendering gives the same result, unless it was cut off. -/
theorem within_agree {limit limit' levels levels' : Nat} (hlevels : levels ≤ levels') :
    AgreeUnless RenderError.IsDepthExceeded (· = ·)
      (within (registry.withMaxDepth limit) levels component props forwarded)
      (within (registry.withMaxDepth limit') levels' component props forwarded) := by
  induction levels generalizing levels' component props forwarded with
  | zero =>
      rw [within_eq, within_eq]
      apply tokensText_agree
      intro token _ inclusion _
      apply resolve_agree
      · rfl
      · intro _
        exact .inl ⟨_, _, rfl⟩
      · intro render h
        cases h
  | succ levels ih =>
      obtain ⟨n, rfl⟩ : ∃ n, levels' = n + 1 := ⟨levels' - 1, by omega⟩
      rw [within_eq, within_eq]
      apply tokensText_agree
      intro token _ inclusion _
      apply resolve_agree
      · rfl
      · intro h
        cases h
      · intro render h
        cases h
        refine ⟨_, rfl, ?_⟩
        intro child _ props attributes
        exact ih (Nat.le_of_succ_le_succ hlevels)

/-- An error of the limit ends a chain of as many inclusions as the limit allows, with one more
ahead. -/
theorem exists_chain_of_depthExceeded {name : String} {e : RenderError}
    (found : registry.get? name = some component)
    (h : registry.render component props forwarded = .error e)
    (exceeded : e.rootCause.IsDepthExceeded) :
    ∃ names, List.IsChain registry.Includes (name :: names) ∧
      names.length = registry.maxDepth + 1 := by
  obtain ⟨next, limit, hcause⟩ := exceeded
  obtain ⟨_, last, lastProps, hchain, hfault⟩ :=
    within_eq_error (Nat.zero_add registry.maxDepth) h
  obtain ⟨lastName, hlast, hincludes⟩ := hchain.includes found
  rw [hcause, Nat.zero_add] at hfault
  obtain ⟨token, mem, ⟨inclusion, hinclusion, hname⟩, hnext, _, hdepth⟩ := hfault
  obtain ⟨d, hd, hdname⟩ := Component.exists_dependency mem hinclusion
  have hd_next : d.name = next := hdname.trans hname
  have hedge : registry.Includes lastName next := by
    refine ⟨d, ⟨⟨last, hlast, hd⟩, ?_⟩, hd_next⟩
    rw [hd_next]
    exact hnext
  refine ⟨_, hincludes next hedge, ?_⟩
  simp [hdepth]

end Render

namespace Registry

/-- A limit only cuts off. A depth that is counted in a machine word up to the limit gives the same
rendering, whatever would happen at a greater depth. Under a greater limit the result stays what it
was, unless it was an error of the limit, and there is none where the chains of inclusions from the
rendered component have no more edges than the limit allows. -/
theorem render_limit_cuts_off (registry : Registry) (component : Component) (props : Json.Fields)
    (forwarded : Attributes) :
    (∀ (w : Nat) (limit : BitVec w),
      (∃ render, CountsDepth (registry.withMaxDepth limit.toNat) limit render) ∧
      ∀ render, CountsDepth (registry.withMaxDepth limit.toNat) limit render →
        render 0 component props forwarded =
          (registry.withMaxDepth limit.toNat).render component props forwarded) ∧
    (∀ limit limit', limit ≤ limit' →
      (∀ e, (registry.withMaxDepth limit).render component props forwarded = .error e →
        ¬ e.rootCause.IsDepthExceeded) →
      (registry.withMaxDepth limit').render component props forwarded =
        (registry.withMaxDepth limit).render component props forwarded) ∧
    (∀ name limit, registry.get? name = some component →
      (∀ names, List.IsChain registry.Includes (name :: names) → names.length ≤ limit) →
      ∀ e, (registry.withMaxDepth limit).render component props forwarded = .error e →
        ¬ e.rootCause.IsDepthExceeded) := by
  refine ⟨?_, ?_, ?_⟩
  · intro w limit
    constructor
    · exact ⟨_, Render.countsDepth_within _ limit⟩
    · intro render counts
      have hstart : (0 : BitVec w).toNat + limit.toNat = limit.toNat := by simp
      rw [Render.eq_within_of_countsDepth counts hstart]
      rfl
  · intro limit limit' hle regular
    exact ((Render.within_agree hle).eq regular).symm
  · intro name limit found bounded e h exceeded
    have found : (registry.withMaxDepth limit).get? name = some component := found
    obtain ⟨names, hchain, hlength⟩ := Render.exists_chain_of_depthExceeded found h exceeded
    have hle : names.length ≤ limit := bounded names hchain
    change names.length = limit + 1 at hlength
    omega

/-- A page of rows, which includes nothing below its rows. -/
def rows : Registry :=
  (empty.register "row" "<li>$\x7btitle\x7d</li>").register "page"
    "<ez-for name=\"row\" id=\"rows\" />"

theorem rows_chain_length_le {names : List String}
    (h : List.IsChain rows.Includes ("page" :: names)) : names.length ≤ 1 := by
  have page : rows.get? "page" = some (.ofSource "<ez-for name=\"row\" id=\"rows\" />") := rfl
  have row : rows.get? "row" = some (.ofSource "<li>$\x7btitle\x7d</li>") := rfl
  have pageDependencies :
      (Component.ofSource "<ez-for name=\"row\" id=\"rows\" />").dependencies =
        [⟨"row", "rows", true⟩] := by cbv
  have rowDependencies : (Component.ofSource "<li>$\x7btitle\x7d</li>").dependencies = [] := by cbv
  obtain _ | ⟨first, _ | ⟨second, rest⟩⟩ := names
  · exact Nat.zero_le 1
  · exact Nat.le_refl 1
  · obtain ⟨hfirst, hrest⟩ := List.isChain_cons_cons.1 h
    obtain ⟨hsecond, _⟩ := List.isChain_cons_cons.1 hrest
    obtain ⟨d, ⟨⟨component, found, hd⟩, _⟩, rfl⟩ := hfirst
    rw [page] at found
    cases found
    rw [pageDependencies, List.mem_singleton] at hd
    subst hd
    obtain ⟨d, ⟨⟨component, found, hd⟩, _⟩, _⟩ := hsecond
    rw [row] at found
    cases found
    rw [rowDependencies] at hd
    cases hd

theorem render_limit_cuts_off_rows :
    (∃ render : BitVec 8 → Renderer, CountsDepth (rows.withMaxDepth 1) 1 render ∧
      render 0 (.ofSource "<ez-for name=\"row\" id=\"rows\" />")
        [("rows", .array [.object [("title", .string "a")]])] .empty = .ok "<li>a</li>") ∧
    (rows.withMaxDepth 1000000).render (.ofSource "<ez-for name=\"row\" id=\"rows\" />")
        [("rows", .array [.object [("title", .string "a")]])] .empty = .ok "<li>a</li>" ∧
    (∃ e, (rows.withMaxDepth 1).render (.ofSource "<ez-for name=\"row\" id=\"rows\" />")
        [("rows", .array [.object []])] .empty = .error e ∧ ¬ e.rootCause.IsDepthExceeded) := by
  have page : rows.get? "page" = some (.ofSource "<ez-for name=\"row\" id=\"rows\" />") := rfl
  have hrender : (rows.withMaxDepth 1).render (.ofSource "<ez-for name=\"row\" id=\"rows\" />")
      [("rows", .array [.object [("title", .string "a")]])] .empty = .ok "<li>a</li>" := by cbv
  have hfails : (rows.withMaxDepth 1).render (.ofSource "<ez-for name=\"row\" id=\"rows\" />")
      [("rows", .array [.object []])] .empty =
        .error (.nested "row" "rows" (.missingProp "title")) := by cbv
  obtain ⟨counted, cut, _⟩ := rows.render_limit_cuts_off
    (.ofSource "<ez-for name=\"row\" id=\"rows\" />")
    [("rows", .array [.object [("title", .string "a")]])] .empty
  obtain ⟨_, _, bounded⟩ := rows.render_limit_cuts_off
    (.ofSource "<ez-for name=\"row\" id=\"rows\" />") [("rows", .array [.object []])] .empty
  refine ⟨?_, ?_, ?_⟩
  · obtain ⟨⟨render, counts⟩, same⟩ := counted 8 1
    exact ⟨render, counts, (same render counts).trans hrender⟩
  · have regular : ∀ e, (rows.withMaxDepth 1).render
        (.ofSource "<ez-for name=\"row\" id=\"rows\" />")
        [("rows", .array [.object [("title", .string "a")]])] .empty = .error e →
          ¬ e.rootCause.IsDepthExceeded := by
      intro e h
      rw [hrender] at h
      cases h
    exact (cut 1 1000000 (by decide) regular).trans hrender
  · exact ⟨_, hfails, bounded "page" 1 page (fun _ => rows_chain_length_le) _ hfails⟩

end Registry

end Stencil
