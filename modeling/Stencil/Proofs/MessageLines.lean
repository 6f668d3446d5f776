import Stencil.Proofs.CompactText
import Stencil.Proofs.Faults
import Stencil.Proofs.JoinedTexts
import Stencil.Proofs.ScannedTokens

/-!
# The lines of an error message

No name that a source can hold goes over a line. So the message of a rendering error has one line for
each inclusion on the way to the fault, and a last one for the fault itself. All but the first are
indented, and by the same two blanks however deep the inclusion is.
-/

namespace Stencil

/-- What stands between the newlines of a text. -/
def linesOf (text : String) : List String := (text.toList.splitOn '\n').map String.ofList

def OneLine (text : String) : Prop := '\n' ∉ text.toList

instance (text : String) : Decidable (OneLine text) :=
  inferInstanceAs (Decidable ('\n' ∉ text.toList))

/-- A text that begins with a character other than a blank. -/
def Unindented (text : String) : Prop := ∃ c ∈ text.toList.head?, c ≠ ' '

/-- Lines of which all but the first are indented. -/
def indentedBelow : List String → List String
  | [] => []
  | line :: below => line :: below.map ("  " ++ ·)

theorem OneLine.append {front back : String} (hfront : OneLine front) (hback : OneLine back) :
    OneLine (front ++ back) := by
  rw [OneLine, String.toList_append, List.mem_append, not_or]
  exact ⟨hfront, hback⟩

theorem oneLine_natural (n : Nat) : OneLine (toString n) := by
  intro hmem
  have hdigit := Json.natural_char hmem
  cases hdigit

theorem Unindented.append {front : String} (h : Unindented front) (back : String) :
    Unindented (front ++ back) := by
  obtain ⟨c, hc, hblank⟩ := h
  refine ⟨c, ?_, hblank⟩
  rw [String.toList_append, List.head?_append, hc]
  rfl

theorem length_indentedBelow (lines : List String) :
    (indentedBelow lines).length = lines.length := by
  cases lines <;> simp [indentedBelow]

namespace RenderError

/-- What the message says of an inclusion on the way to the fault. -/
def frameLine (frame : String × String) : String :=
  "error while rendering sub component '" ++ frame.1 ++ "' (id '" ++ frame.2 ++ "'):"

/-- What the message says, line by line. -/
def account (e : RenderError) : List String := e.chain.map frameLine ++ [e.rootCause.message]

theorem account_nested (name id : String) (cause : RenderError) :
    (nested name id cause).account = frameLine (name, id) :: cause.account := rfl

theorem account_ne_nil (e : RenderError) : e.account ≠ [] := by simp [account]

theorem message_nested (name id : String) (cause : RenderError) :
    (nested name id cause).message = frameLine (name, id) ++ "\n" ++ ("  " ++ cause.message) := by
  have hbreak : ∀ front back : String,
      front ++ "'):\n  " ++ back = front ++ "'):" ++ "\n" ++ ("  " ++ back) := by
    intro front back
    simp only [← String.toList_inj, String.toList_append, List.append_assoc]
    rfl
  exact hbreak _ _

theorem message_eq_intercalate (e : RenderError) :
    e.message = "\n".intercalate (indentedBelow e.account) := by
  induction e with
  | nested name id cause ih =>
      obtain ⟨line, below, haccount⟩ := List.exists_cons_of_ne_nil cause.account_ne_nil
      have hindent : "\n".intercalate (("  " ++ line) :: below.map ("  " ++ ·)) =
          "  " ++ "\n".intercalate (line :: below.map ("  " ++ ·)) :=
        String.intercalate_cons_append
      rw [haccount, indentedBelow] at ih
      rw [account_nested, haccount, indentedBelow, List.map_cons, String.intercalate_cons_cons,
        hindent, ← ih, message_nested]
  | _ => exact String.intercalate_singleton.symm

theorem frameLine_unindented (frame : String × String) : Unindented (frameLine frame) :=
  have hopening : Unindented "error while rendering sub component '" := ⟨'e', rfl, by decide⟩
  (((hopening.append _).append _).append _).append _

theorem message_unindented (e : RenderError) : Unindented e.message := by
  have hprop : Unindented "prop '" := ⟨'p', rfl, by decide⟩
  have hunknown : Unindented "unknown component '" := ⟨'u', rfl, by decide⟩
  have hlimit : Unindented "inclusion depth limit of " := ⟨'i', rfl, by decide⟩
  cases e with
  | missingProp => exact (hprop.append _).append _
  | typeMismatch => exact (((hprop.append _).append _).append _).append _
  | unknownComponent => exact (hunknown.append _).append _
  | invalidArrayProp => exact (hprop.append _).append _
  | depthExceeded => exact (((hlimit.append _).append _).append _).append _
  | nested name id cause =>
      rw [message_nested]
      exact ((frameLine_unindented _).append _).append _

theorem account_unindented (e : RenderError) : ∀ line ∈ e.account, Unindented line := by
  rw [account, List.forall_mem_append, List.forall_mem_map, List.forall_mem_singleton]
  exact ⟨fun frame _ => frameLine_unindented frame, e.rootCause.message_unindented⟩

/-- If no line of the account goes over a line, the message splits into them again. -/
theorem linesOf_message {e : RenderError} (h : ∀ line ∈ e.account, OneLine line) :
    linesOf e.message = indentedBelow e.account := by
  obtain ⟨line, below, haccount⟩ := List.exists_cons_of_ne_nil e.account_ne_nil
  have hlines : ∀ text ∈ indentedBelow e.account, '\n' ∉ text.toList := by
    rw [haccount, List.forall_mem_cons] at h
    simpa [haccount, indentedBelow, OneLine] using h
  have hne : indentedBelow e.account ≠ [] := by simp [haccount, indentedBelow]
  rw [linesOf, message_eq_intercalate, splitOn_intercalate rfl hne hlines]
  simp

end RenderError

section Naming

variable {registry : Registry} {props entered : Json.Fields} {component child last : Component}
variable {token : Token} {frame : String × String} {frames : List (String × String)}
variable {name : String} {e : RenderError}

theorem Avoids.oneLine {stops : List Char} (h : Avoids stops name) (newline : '\n' ∈ stops) :
    OneLine name := fun hmem => h.2 _ hmem newline

theorem Inclusion.Printable.oneLine {inclusion : Inclusion} (h : inclusion.Printable) :
    OneLine inclusion.name ∧ OneLine inclusion.id :=
  ⟨h.name.oneLine (by decide), h.id.oneLine (by decide)⟩

theorem Component.inclusion_oneLine (mem : token ∈ component.tokens) {inclusion : Inclusion}
    (h : token.inclusion? = some inclusion) : OneLine inclusion.name ∧ OneLine inclusion.id := by
  have hformed := token_wellFormed mem
  cases token <;> cases h <;> exact Inclusion.Printable.oneLine hformed

theorem Component.reference_oneLine (mem : token ∈ component.tokens)
    (h : name ∈ token.references) : OneLine name :=
  (Token.reference_avoids (token_wellFormed mem) h).oneLine (by decide)

theorem Enters.frame_oneLine (mem : token ∈ component.tokens)
    (h : Enters registry props token frame child entered) : OneLine frame.1 ∧ OneLine frame.2 := by
  cases h <;> exact Component.inclusion_oneLine mem rfl

theorem InclusionChain.frames_oneLine {lastProps : Json.Fields}
    (chain : InclusionChain registry component props frames last lastProps) :
    ∀ frame ∈ frames, OneLine frame.1 ∧ OneLine frame.2 := by
  induction chain with
  | nil => simp
  | cons mem enters tail ih => exact List.forall_mem_cons.2 ⟨enters.frame_oneLine mem, ih⟩

theorem RenderError.frameLine_oneLine (hname : OneLine frame.1) (hid : OneLine frame.2) :
    OneLine (frameLine frame) := by
  have hopening : OneLine "error while rendering sub component '" := by decide
  have hbetween : OneLine "' (id '" := by decide
  have hclosing : OneLine "'):" := by decide
  exact (((hopening.append hname).append hbetween).append hid).append hclosing

/-- The message of a fault holds names that stand in the source, and the rest of it is one line. -/
theorem FaultAt.message_oneLine {depth : Nat} (mem : token ∈ component.tokens)
    (h : FaultAt registry depth props token e) : OneLine e.message := by
  have hprop : OneLine "prop '" := by decide
  have hquote : OneLine "'" := by decide
  cases e with
  | missingProp name =>
      have hname := Component.reference_oneLine mem h.1
      exact (hprop.append hname).append (by decide)
  | typeMismatch name type =>
      obtain ⟨rfl, _⟩ := h
      have hname := Component.reference_oneLine mem (List.mem_singleton_self name)
      have htype : OneLine type.keyword := by cases type <;> decide
      exact (((hprop.append hname).append (by decide)).append htype).append hquote
  | unknownComponent name =>
      obtain ⟨⟨inclusion, htoken, rfl⟩, _⟩ := h
      have hopening : OneLine "unknown component '" := by decide
      have hname := (Component.inclusion_oneLine mem htoken).1
      exact (hopening.append hname).append hquote
  | invalidArrayProp id =>
      obtain ⟨⟨inclusion, rfl, rfl⟩, _⟩ := h
      have hid := (Component.inclusion_oneLine mem rfl).2
      exact (hprop.append hid).append (by decide)
  | depthExceeded name limit =>
      obtain ⟨⟨inclusion, htoken, rfl⟩, _⟩ := h
      have hopening : OneLine "inclusion depth limit of " := by decide
      have hname := (Component.inclusion_oneLine mem htoken).1
      exact (((hopening.append (oneLine_natural limit)).append (by decide)).append hname).append
        hquote
  | nested => exact h.elim

theorem Render.account_oneLine {forwarded : Attributes}
    (h : registry.render component props forwarded = .error e) :
    ∀ line ∈ e.account, OneLine line := by
  obtain ⟨_, last, lastProps, hchain, token, mem, hfault⟩ :=
    within_eq_error (Nat.zero_add registry.maxDepth) h
  rw [RenderError.account, List.forall_mem_append, List.forall_mem_map, List.forall_mem_singleton]
  refine ⟨?_, hfault.message_oneLine mem⟩
  intro frame hframe
  obtain ⟨hname, hid⟩ := hchain.frames_oneLine frame hframe
  exact RenderError.frameLine_oneLine hname hid

end Naming

/-- The message of a rendering error splits at its newlines into one line for each inclusion of the
chain, in its order, and one for the root cause. Two blanks stand before each but the first, and no
line has blanks of its own in front. -/
theorem Registry.render_error_lines {registry : Registry} {component : Component}
    {props : Json.Fields} {forwarded : Attributes} {e : RenderError}
    (h : registry.render component props forwarded = .error e) :
    linesOf e.message =
        indentedBelow (e.chain.map RenderError.frameLine ++ [e.rootCause.message]) ∧
      (linesOf e.message).length = e.chain.length + 1 ∧
      ∀ line ∈ e.chain.map RenderError.frameLine ++ [e.rootCause.message], Unindented line := by
  have hlines := RenderError.linesOf_message (Render.account_oneLine h)
  refine ⟨hlines, ?_, e.account_unindented⟩
  rw [hlines, length_indentedBelow, RenderError.account, List.length_append, List.length_map]
  rfl

/-- A page with a list of rows, each of which asks for a title. -/
def listing : Registry :=
  (Registry.empty.register "list" "<ez-for name=\"row\" id=\"rows\" />").register "row"
    "$\x7btitle\x7d"

theorem Registry.render_error_lines_row :
    ∃ e, listing.render (.ofSource "<ez name=\"list\" id=\"l\" />")
        [("l", .object [("rows", .array [.object []])])] .empty = .error e ∧
      linesOf e.message =
        ["error while rendering sub component 'list' (id 'l'):",
          "  error while rendering sub component 'row' (id 'rows'):",
          "  prop 'title' missing in props"] := by
  have h : listing.render (.ofSource "<ez name=\"list\" id=\"l\" />")
      [("l", .object [("rows", .array [.object []])])] .empty =
        .error (.nested "list" "l" (.nested "row" "rows" (.missingProp "title"))) := by cbv
  exact ⟨_, h, (Registry.render_error_lines h).1⟩

end Stencil
