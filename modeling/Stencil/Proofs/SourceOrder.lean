import Stencil.Proofs.EscapedPlaceholders
import Stencil.Component

/-!
# Findings in source order

Recoveries and inclusions of a component are read off the segments of its source, one after the
other. No segment is empty, so each begins further on than the one before.
-/

namespace Stencil

namespace Segment

/-- Segments with the byte offsets at which they begin, the first of them at a given one. -/
def placed (offset : Nat) : List Segment → List (Nat × Segment)
  | [] => []
  | segment :: rest => (offset, segment) :: placed (offset + bytes [segment]) rest

/-- Kind and reason of a segment that was given up, with the byte offsets of its bounds. -/
def recovery? : Nat × Segment → Option (Construct × Stall × Nat × Nat)
  | (offset, .recovered kind reason text) =>
      some (kind, reason, offset, offset + bytes [.recovered kind reason text])
  | _ => none

/-- The inclusion that a segment is. -/
def dependency? (e : Nat × Segment) : Option Dependency := e.2.token?.bind Dependency.ofToken?

variable {segments : List Segment} {offset : Nat}

theorem bytes_singleton (segment : Segment) :
    bytes [segment] = (String.ofList segment.source).utf8ByteSize := by
  simp [bytes]

theorem bytes_pos {segment : Segment} (h : segment.source ≠ []) : 0 < bytes [segment] := by
  obtain ⟨c, cs, hsource⟩ := List.exists_cons_of_ne_nil h
  rw [bytes_singleton, hsource, String.ofList_cons, String.utf8ByteSize_append,
    String.utf8ByteSize_singleton]
  exact Nat.add_pos_left c.utf8Size_pos _

theorem le_of_mem_placed {e : Nat × Segment} (h : e ∈ placed offset segments) : offset ≤ e.1 := by
  induction segments generalizing offset with
  | nil => cases h
  | cons segment rest ih =>
      obtain rfl | h := List.mem_cons.1 h
      · exact le_rfl
      · exact (Nat.le_add_right _ _).trans (ih h)

theorem placed_ascending (nonempty : ∀ s ∈ segments, s.source ≠ []) :
    (placed offset segments).Pairwise (·.1 < ·.1) := by
  induction segments generalizing offset with
  | nil => exact .nil
  | cons segment rest ih =>
      obtain ⟨hfirst, hrest⟩ := List.forall_mem_cons.1 nonempty
      refine List.pairwise_cons.2 ⟨fun e he => ?_, ih hrest⟩
      exact (Nat.lt_add_of_pos_right (bytes_pos hfirst)).trans_le (le_of_mem_placed he)

end Segment

theorem Division.source_ne_nil_of_mem {context : TagContext} {before : Option Char}
    {cs : List Char} {segments : List Segment} (h : Division context before cs segments)
    {segment : Segment} (mem : segment ∈ segments) : segment.source ≠ [] := by
  obtain ⟨front, back, rfl⟩ := List.append_of_mem mem
  obtain ⟨_, _, hback⟩ := h.drop
  exact hback.source_ne_nil

namespace Lexed

theorem recoveriesOf_placed (segments : List Segment) (p : Position) :
    (recoveriesOf p segments).map Recovery.span =
      (Segment.placed p.offset segments).filterMap Segment.recovery? := by
  induction segments generalizing p with
  | nil => rfl
  | cons segment rest ih =>
      have hnext : (p.advance segment.source).offset = p.offset + Segment.bytes [segment] := by
        rw [Position.advance_offset, Segment.bytes_singleton]
      have htail := ih (p.advance segment.source)
      rw [hnext] at htail
      cases segment with
      | recovered kind reason text =>
          simp only [recoveriesOf, Segment.placed, List.map_cons, List.filterMap_cons,
            Segment.recovery?, Recovery.span, htail, hnext]
      | _ => simpa only [recoveriesOf, Segment.placed, List.filterMap_cons, Segment.recovery?]
          using htail

theorem filterMap_flush (text : String) :
    (flush text).filterMap Dependency.ofToken? = [] := by
  unfold flush
  split <;> rfl

/-- Literals are no inclusions, whatever text waits to become one. -/
theorem tokensOf_placed (segments : List Segment) (pending : String) (offset : Nat) :
    (tokensOf pending segments).filterMap Dependency.ofToken? =
      (Segment.placed offset segments).filterMap Segment.dependency? := by
  induction segments generalizing pending offset with
  | nil => exact filterMap_flush pending
  | cons segment rest ih =>
      rw [tokensOf, Segment.placed, List.filterMap_cons]
      cases htoken : segment.token? with
      | none =>
          have hnone : Segment.dependency? (offset, segment) = none := by
            rw [Segment.dependency?, htoken]
            rfl
          rw [hnone]
          exact ih _ _
      | some token =>
          have hsome : Segment.dependency? (offset, segment) = Dependency.ofToken? token := by
            rw [Segment.dependency?, htoken]
            rfl
          rw [hsome, List.filterMap_append, filterMap_flush, List.nil_append, List.filterMap_cons,
            ih]

end Lexed

/-- What is found in a component stands in the order of its places in the source. -/
structure Component.InSourceOrder (component : Component) : Prop where
  ascending : (Segment.placed 0 (segments component.source)).Pairwise (·.1 < ·.1)
  recovered : component.recovered.map Recovery.span =
    (Segment.placed 0 (segments component.source)).filterMap Segment.recovery?
  dependencies : component.dependencies =
    (Segment.placed 0 (segments component.source)).filterMap Segment.dependency?

theorem Component.inSourceOrder (component : Component) : component.InSourceOrder := by
  obtain ⟨source, lexed, rfl⟩ := component
  constructor
  · apply Segment.placed_ascending
    intro segment mem
    exact (Segment.division_all _ _ _).source_ne_nil_of_mem mem
  · exact Lexed.recoveriesOf_placed _ _
  · exact Lexed.tokensOf_placed _ _ _

end Stencil
