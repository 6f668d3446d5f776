import Stencil.Proofs.Comparison
import Stencil.Proofs.Faults
import Stencil.Proofs.PropLookups

/-!
# Forwarded attributes decide nothing

The attributes that a component is handed are written out or handed on, and never looked at. Two
renderings that differ in them alone come to the same steps, so they fail with the same error or do
not fail. They give the same text where nothing writes the attributes out or hands them on.
-/

namespace Stencil

/-- Two results fail alike if both hold a value, or both hold the same error. -/
abbrev FailAlike {α β : Type} (x : Except RenderError α) (y : Except RenderError β) : Prop :=
  AgreeUnless (fun _ => False) (fun _ _ => True) x y

theorem FailAlike.error_iff {α β : Type} {x : Except RenderError α} {y : Except RenderError β}
    (h : FailAlike x y) (e : RenderError) : x = .error e ↔ y = .error e := by
  cases h with
  | ok => simp
  | error d => simp
  | excepted cause => exact cause.elim

section Arguments

variable {props : Json.Fields} {inherited inherited' : Attributes}

theorem Argument.apply_failAlike (argument : Argument) (a a' : Attributes) :
    FailAlike (argument.apply props inherited a) (argument.apply props inherited' a') := by
  cases argument with
  | named name fragments =>
      apply AgreeUnless.bind_same
      intro text _
      exact .ok trivial
  | wildcard => exact .ok trivial

theorem Argument.applyAll_failAlike (arguments : List Argument) (a a' : Attributes) :
    FailAlike (applyAll props inherited a arguments) (applyAll props inherited' a' arguments) := by
  induction arguments generalizing a a' with
  | nil => exact .ok trivial
  | cons argument rest ih =>
      apply AgreeUnless.bind (apply_failAlike argument a a')
      intro next next' _
      exact ih next next'

/-- Without a wildcard the inherited attributes are not seen. -/
theorem Argument.applyAll_of_no_wildcard {arguments : List Argument}
    (named : .wildcard ∉ arguments) (a : Attributes) :
    applyAll props inherited a arguments = applyAll props inherited' a arguments := by
  induction arguments generalizing a with
  | nil => rfl
  | cons argument rest ih =>
      rw [List.mem_cons, not_or] at named
      obtain ⟨hargument, hrest⟩ := named
      have hstep : argument.apply props inherited a = argument.apply props inherited' a := by
        cases argument with
        | named name fragments => rfl
        | wildcard => exact absurd rfl hargument
      rw [applyAll, applyAll, hstep]
      exact congrArg _ (funext (ih hrest))

end Arguments

/-- A component behind an inclusion that fails alike whatever attributes it is handed. -/
def Included.FailsAlike (child : Included) : Prop :=
  ∀ props attributes attributes', FailAlike (child props attributes) (child props attributes')

namespace Render

variable {registry : Registry} {below : Option Renderer} {props : Json.Fields}
variable {forwarded forwarded' : Attributes}

theorem inclusionText_failAlike {inclusion : Inclusion} {child : Included}
    (h : child.FailsAlike) (attributes attributes' : Attributes) :
    FailAlike (inclusionText inclusion child props attributes)
      (inclusionText inclusion child props attributes') := by
  apply AgreeUnless.nested
  exact h props attributes attributes'

theorem elementTexts_failAlike {inclusion : Inclusion} {child : Included}
    (h : child.FailsAlike) (attributes attributes' : Attributes) (index : Nat)
    (objects : List Json.Fields) :
    FailAlike (elementTexts inclusion child attributes index objects)
      (elementTexts inclusion child attributes' index objects) := by
  induction objects generalizing index with
  | nil => exact .ok trivial
  | cons fields rest ih =>
      apply AgreeUnless.bind (inclusionText_failAlike h attributes attributes')
      intro _ _ _
      apply AgreeUnless.bind (ih (index + 1))
      intro _ _ _
      exact .ok trivial

theorem tokenText_failAlike (h : ∀ name child, resolve registry below name = .ok child →
      child.FailsAlike) (token : Token) :
    FailAlike (tokenText registry below props forwarded token)
      (tokenText registry below props forwarded' token) := by
  cases token with
  | literal text => exact .ok trivial
  | prop name type =>
      apply AgreeUnless.bind_same
      intro v _
      split
      · exact .ok trivial
      · exact .error _
  | «attribute» name =>
      apply AgreeUnless.bind_same
      intro v _
      exact .ok trivial
  | forwarded => exact .ok trivial
  | single inclusion =>
      apply AgreeUnless.bind_same
      intro child hchild
      apply AgreeUnless.bind (Argument.applyAll_failAlike _ _ _)
      intro attributes attributes' _
      exact inclusionText_failAlike (h _ child hchild) attributes attributes'
  | repeated inclusion =>
      apply AgreeUnless.bind_same
      intro child hchild
      apply AgreeUnless.bind_same
      intro objects _
      apply AgreeUnless.bind (Argument.applyAll_failAlike _ _ _)
      intro attributes attributes' _
      apply AgreeUnless.bind
        (elementTexts_failAlike (h _ child hchild) attributes attributes' 0 objects)
      intro _ _ _
      exact .ok trivial

theorem within_failsAlike (levels : Nat) (component : Component) :
    Included.FailsAlike (within registry levels component) := by
  -- on the levels: the attributes handed on differ as well, with one level less
  induction levels using Nat.strongRecOn generalizing component with
  | ind levels ih =>
      intro props forwarded forwarded'
      rw [within_eq, within_eq]
      apply tokensText_agree_of_tokens trivial fun _ _ _ _ _ _ => trivial
      intro token _
      apply tokenText_failAlike
      intro name child hchild
      obtain ⟨n, included, rfl, _, rfl⟩ := resolve_below?_eq_ok hchild
      exact ih n (Nat.lt_succ_self n) included

/-- A token that neither writes attributes out nor hands them on gives the same for all. -/
theorem tokenText_of_no_wildcard {token : Token} (written : token ≠ .forwarded)
    (handed : ∀ inclusion, token.inclusion? = some inclusion →
      .wildcard ∉ inclusion.arguments) :
    tokenText registry below props forwarded token =
      tokenText registry below props forwarded' token := by
  cases token with
  | forwarded => exact absurd rfl written
  | single inclusion =>
      have harguments : evaluateArguments inclusion.arguments props forwarded =
          evaluateArguments inclusion.arguments props forwarded' :=
        Argument.applyAll_of_no_wildcard (handed inclusion rfl) .empty
      rw [tokenText, tokenText, harguments]
  | repeated inclusion =>
      have harguments : evaluateArguments inclusion.arguments props forwarded =
          evaluateArguments inclusion.arguments props forwarded' :=
        Argument.applyAll_of_no_wildcard (handed inclusion rfl) .empty
      rw [tokenText, tokenText, harguments]
  | _ => rfl

end Render

/-- Whether a rendering fails, and with what error, does not depend on the attributes that the
component is handed. Nor does its text, if the component neither writes them out nor hands them on
by a wildcard. -/
theorem Registry.render_forwarded_alike (registry : Registry) (component : Component)
    (props : Json.Fields) (forwarded forwarded' : Attributes) :
    (∀ e, registry.render component props forwarded = .error e ↔
      registry.render component props forwarded' = .error e) ∧
    (.forwarded ∉ component.tokens →
      (∀ token ∈ component.tokens, ∀ inclusion, token.inclusion? = some inclusion →
        .wildcard ∉ inclusion.arguments) →
      registry.render component props forwarded =
        registry.render component props forwarded') := by
  constructor
  · exact (Render.within_failsAlike registry.maxDepth component props forwarded
      forwarded').error_iff
  · intro written handed
    unfold Registry.render
    rw [Render.within_eq, Render.within_eq]
    apply Render.tokensText_congr
    intro token mem
    apply Render.tokenText_of_no_wildcard
    · rintro rfl
      exact written mem
    · exact handed token mem

/-- A row with whatever attributes it is handed. -/
def attributedRow : Registry := Registry.empty.register "row" "<li $*>$\x7bt\x7d</li>"

/-- A row without its prop fails below a wildcard too, and attributes of the including component do
not come into a row that is handed others. -/
theorem Registry.render_forwarded_alike_row :
    attributedRow.render (.ofSource "<ez-for name=\"row\" id=\"rows\" $* />")
        [("rows", .array [.object [("t", .string "a")], .object []])]
        (.ofList [("class", "b")]) =
      .error (.nested "row" "rows" (.missingProp "t")) ∧
    attributedRow.render (.ofSource "<ez name=\"row\" id=\"r\" lang=\"x\" />")
        [("r", .object [("t", .string "a")])] (.ofList [("class", "b")]) =
      .ok "<li lang=\"x\">a</li>" := by
  have fails : attributedRow.render (.ofSource "<ez-for name=\"row\" id=\"rows\" $* />")
      [("rows", .array [.object [("t", .string "a")], .object []])] .empty =
        .error (.nested "row" "rows" (.missingProp "t")) := by cbv
  have rendered : attributedRow.render (.ofSource "<ez name=\"row\" id=\"r\" lang=\"x\" />")
      [("r", .object [("t", .string "a")])] .empty = .ok "<li lang=\"x\">a</li>" := by cbv
  have tokens : (Component.ofSource "<ez name=\"row\" id=\"r\" lang=\"x\" />").tokens =
      [.single ⟨"row", "r", [.named "lang" [.literal "x"]]⟩] := by cbv
  constructor
  · obtain ⟨alike, _⟩ := attributedRow.render_forwarded_alike
      (.ofSource "<ez-for name=\"row\" id=\"rows\" $* />")
      [("rows", .array [.object [("t", .string "a")], .object []])] .empty
      (.ofList [("class", "b")])
    exact (alike _).1 fails
  · rw [← rendered]
    apply (attributedRow.render_forwarded_alike _ _ _ _).2
    · rw [tokens]
      decide
    · rw [tokens]
      simp [Token.inclusion?]

end Stencil
