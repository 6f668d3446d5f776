import Mathlib
import Stencil.Proofs.Segmentation
import Stencil.Render.Basic

/-!
# Lexing loses nothing

Tokens and recoveries hold all that is in the segments of a source: the text of every run between
two constructs stands in one literal, and a recovery has the byte offsets where its segment begins
and ends. A source without constructs and escapes is rendered as it stands.
-/

namespace Stencil

namespace Segment

/-- What a segment contributes to the text around it: an escape the two characters behind its
backslash, a construct nothing, and any other segment what it covers of the source. -/
def contributed : Segment → List Char
  | .escape => ['$', '\x7b']
  | .construct _ _ => []
  | segment => segment.source

/-- Lexing adds to a literal what a segment contributes. -/
theorem literal_eq_contributed (s : Segment) : s.literal = s.contributed := by
  cases s <;> rfl

/-- The text that a run of segments contributes to the literal around them. -/
def textOf (run : List Segment) : String := String.ofList (run.flatMap contributed)

/-- The number of bytes of source that segments cover. -/
def bytes (segments : List Segment) : Nat :=
  (String.ofList (segments.flatMap source)).utf8ByteSize

/-- Kind and reason of the recovered segment at an index, with the byte offsets of its bounds. -/
def span? (segments : List Segment) : Segment × Nat → Option (Construct × Stall × Nat × Nat)
  | (.recovered kind reason _, i) =>
      some (kind, reason, bytes (segments.take i), bytes (segments.take (i + 1)))
  | _ => none

/-- The recovered segments in source order. -/
def spans (segments : List Segment) : List (Construct × Stall × Nat × Nat) :=
  segments.zipIdx.filterMap (span? segments)

end Segment

def Recovery.span (r : Recovery) : Construct × Stall × Nat × Nat :=
  (r.construct, r.reason, r.start, r.stop)

theorem Segment.token?_eq_some {segment : Segment} {token : Token}
    (h : segment.token? = some token) : ∃ text, segment = .construct token text := by
  cases segment <;> cases h
  exact ⟨_, rfl⟩

/-- The tokens of constructs in order, with a literal for every maximal run of other segments that
adds text. -/
inductive Interleaved : List Segment → List Token → Prop
  | run {run} (other : ∀ s ∈ run, s.token? = none) :
      Interleaved run (Lexed.flush (Segment.textOf run))
  | construct {run token text segments tokens} (other : ∀ s ∈ run, s.token? = none)
      (tail : Interleaved segments tokens) :
      Interleaved (run ++ .construct token text :: segments)
        (Lexed.flush (Segment.textOf run) ++ token :: tokens)

/-- What the segments of a source make of it. -/
structure Segmentation (source : String) (lexed : Lexed) (segments : List Segment) : Prop where
  division : Division .outside none source.toList segments
  whole : segments.flatMap Segment.source = source.toList
  constructs : ∀ token text, .construct token text ∈ segments → token.isLiteral = false
  tokens : Interleaved segments lexed.tokens
  noEmpty : .literal "" ∉ lexed.tokens
  noAdjacent : lexed.tokens.IsChain fun a b => ¬ (a.isLiteral = true ∧ b.isLiteral = true)
  recovered : lexed.recovered.map Recovery.span = Segment.spans segments

/-- The sources of the segments are the text one behind the other. -/
theorem Division.source {context : TagContext} {before : Option Char} {cs : List Char}
    {segments : List Segment} (h : Division context before cs segments) :
    segments.flatMap Segment.source = cs := by
  induction h with
  | done => rfl
  | plain _ _ _ _ ih => simp [Segment.source, ih]
  | escape _ ih => simp [Segment.source, ih]
  | forwarded _ ih => simp [Segment.source, ih]
  | construct _ _ _ ih => simp [Segment.source, ih]
  | recovered _ _ _ ih => simp [Segment.source, ih]

theorem Division.not_literal {context : TagContext} {before : Option Char} {cs : List Char}
    {segments : List Segment} (h : Division context before cs segments) :
    ∀ token text, .construct token text ∈ segments → token.isLiteral = false := by
  induction h with
  | done => intro token text hmem; cases hmem
  | plain _ _ _ _ ih => simpa using ih
  | escape _ ih => simpa using ih
  | forwarded _ ih =>
      intro token text hmem
      obtain heq | hmem := List.mem_cons.1 hmem
      · cases heq; rfl
      · exact ih token text hmem
  | construct _ scan _ ih =>
      intro token text hmem
      obtain heq | hmem := List.mem_cons.1 hmem
      · cases heq; exact Segment.opening?_not_literal scan
      · exact ih token text hmem
  | recovered _ _ _ ih => simpa using ih

namespace Lexed

theorem empty_not_mem_flush (text : String) : .literal "" ∉ flush text := by
  unfold flush
  split
  case isTrue => exact List.not_mem_nil
  case isFalse hne =>
    intro hmem
    exact hne (by simp [← Token.literal.inj (List.mem_singleton.1 hmem)])

/-- With a run of other segments pending, the tokens are those of the run and what follows it. -/
theorem interleaved_tokensOf (run segments : List Segment) (other : ∀ s ∈ run, s.token? = none) :
    Interleaved (run ++ segments) (tokensOf (Segment.textOf run) segments) := by
  induction segments generalizing run with
  | nil =>
      rw [List.append_nil]
      exact .run other
  | cons segment rest ih =>
      cases htoken : segment.token? with
      | some token =>
          obtain ⟨text, rfl⟩ := Segment.token?_eq_some htoken
          apply Interleaved.construct other
          exact ih [] (by simp)
      | none =>
          have hrun : ∀ s ∈ run ++ [segment], s.token? = none := by
            intro s hs
            obtain hs | hs := List.mem_append.1 hs
            · exact other s hs
            · rw [List.mem_singleton.1 hs, htoken]
          have htext : Segment.textOf (run ++ [segment]) =
              Segment.textOf run ++ String.ofList segment.literal := by
            simp [Segment.textOf, Segment.literal_eq_contributed]
          have hnext := ih (run ++ [segment]) hrun
          rw [htext, List.append_assoc, List.singleton_append] at hnext
          simpa only [tokensOf, htoken] using hnext

end Lexed

namespace Interleaved

theorem noEmpty {segments : List Segment} {tokens : List Token} (h : Interleaved segments tokens)
    (constructs : ∀ token text, .construct token text ∈ segments → token.isLiteral = false) :
    .literal "" ∉ tokens := by
  induction h with
  | run other => exact Lexed.empty_not_mem_flush _
  | @construct run token text segments tokens other tail ih =>
      intro hmem
      obtain hmem | hmem := List.mem_append.1 hmem
      · exact Lexed.empty_not_mem_flush _ hmem
      · obtain heq | hmem := List.mem_cons.1 hmem
        · have hliteral := constructs token text (by simp)
          rw [← heq] at hliteral
          cases hliteral
        · exact ih (fun token text h => constructs token text (by simp [h])) hmem

theorem noAdjacent {segments : List Segment} {tokens : List Token}
    (h : Interleaved segments tokens)
    (constructs : ∀ token text, .construct token text ∈ segments → token.isLiteral = false) :
    tokens.IsChain fun a b => ¬ (a.isLiteral = true ∧ b.isLiteral = true) := by
  induction h with
  | @run run other =>
      unfold Lexed.flush
      split
      · exact .nil
      · exact .singleton _
  | @construct run token text segments tokens other tail ih =>
      have hliteral := constructs token text (by simp)
      have hrest : (token :: tokens).IsChain fun a b =>
          ¬ (a.isLiteral = true ∧ b.isLiteral = true) := by
        apply List.isChain_cons.2
        constructor
        · intro b _
          simp [hliteral]
        · apply ih
          intro token text h
          exact constructs token text (by simp [h])
      unfold Lexed.flush
      split
      · exact hrest
      · apply List.isChain_cons.2
        refine ⟨?_, hrest⟩
        intro b hb
        cases hb
        simp [hliteral]

/-- Tokens that are all literals leave no construct among the segments. -/
theorem token?_eq_none {segments : List Segment} {tokens : List Token}
    (h : Interleaved segments tokens)
    (constructs : ∀ token text, .construct token text ∈ segments → token.isLiteral = false)
    (literals : ∀ token ∈ tokens, token.isLiteral = true) : ∀ s ∈ segments, s.token? = none := by
  cases h with
  | run other => exact other
  | @construct run token text segments tokens other tail =>
      have htrue := literals token (by simp)
      rw [constructs token text (by simp)] at htrue
      cases htrue

theorem eq_flush {segments : List Segment} {tokens : List Token} (h : Interleaved segments tokens)
    (other : ∀ s ∈ segments, s.token? = none) :
    tokens = Lexed.flush (Segment.textOf segments) := by
  cases h with
  | run _ => rfl
  | @construct run token text segments tokens _ tail =>
      exact nomatch other (.construct token text) (by simp)

end Interleaved

/-- Passing over a text moves the offset by the bytes of the text. -/
theorem Position.advance_offset (p : Position) (text : List Char) :
    (p.advance text).offset = p.offset + (String.ofList text).utf8ByteSize := by
  induction text generalizing p with
  | nil => simp
  | cons c cs ih =>
      change ((p.step c).advance cs).offset = _
      rw [ih, String.ofList_cons, String.utf8ByteSize_append, String.utf8ByteSize_singleton]
      simp only [Position.step, Nat.add_assoc]

/-- The recoveries of the segments behind `passed` are the recovered ones among them. -/
theorem Lexed.recoveriesOf_spans (passed segments : List Segment) (p : Position)
    (hp : p.offset = Segment.bytes passed) :
    (recoveriesOf p segments).map Recovery.span =
      (segments.zipIdx passed.length).filterMap (Segment.span? (passed ++ segments)) := by
  induction segments generalizing passed p with
  | nil => rfl
  | cons segment rest ih =>
      have hnext : (p.advance segment.source).offset = Segment.bytes (passed ++ [segment]) := by
        rw [Position.advance_offset, hp]
        simp [Segment.bytes]
      have htail := ih (passed ++ [segment]) (p.advance segment.source) hnext
      rw [List.length_append, List.length_singleton, List.append_assoc,
        List.singleton_append] at htail
      rw [List.zipIdx_cons]
      cases segment with
      | recovered kind reason text =>
          have hstop : Segment.bytes ((passed ++ .recovered kind reason text :: rest).take
              (passed.length + 1)) = Segment.bytes (passed ++ [.recovered kind reason text]) := by
            rw [List.take_length_add_append]
            rfl
          simp only [recoveriesOf, List.map_cons, htail, List.filterMap_cons, Segment.span?,
            Recovery.span, hp, hnext, List.take_left, hstop]
      | _ => simpa only [recoveriesOf, List.filterMap_cons, Segment.span?] using htail

theorem segmentation_segments (source : String) :
    Segmentation source (lex source) (segments source) where
  division := Segment.division_all _ _ _
  whole := (Segment.division_all _ _ _).source
  constructs := (Segment.division_all _ _ _).not_literal
  tokens := Lexed.interleaved_tokensOf [] (segments source) (by simp)
  noEmpty := (Lexed.interleaved_tokensOf [] (segments source) (by simp)).noEmpty
    (Segment.division_all _ _ _).not_literal
  noAdjacent := (Lexed.interleaved_tokensOf [] (segments source) (by simp)).noAdjacent
    (Segment.division_all _ _ _).not_literal
  recovered := Lexed.recoveriesOf_spans [] (segments source) .start rfl

namespace Segment

theorem contributed_eq_source {s : Segment} (other : s.token? = none) (plain : s ≠ .escape) :
    s.contributed = s.source := by
  cases s with
  | construct token text => cases other
  | escape => exact absurd rfl plain
  | _ => rfl

theorem textOf_eq_source {run : List Segment} (other : ∀ s ∈ run, s.token? = none)
    (plain : .escape ∉ run) : textOf run = String.ofList (run.flatMap source) := by
  have hcontributed : run.flatMap contributed = run.flatMap source := by
    apply List.flatMap_congr
    intro s hs
    apply contributed_eq_source (other s hs)
    rintro rfl
    exact plain hs
  rw [textOf, hcontributed]

/-- An escape among the segments stands in the source. -/
theorem escape_infix {segments : List Segment} (h : .escape ∈ segments) :
    ['\\', '$', '\x7b'] <:+: segments.flatMap source := by
  obtain ⟨before, after, rfl⟩ := List.append_of_mem h
  exact ⟨before.flatMap source, after.flatMap source, by simp [source]⟩

end Segment

/-- Nothing is added to a literal that stands alone. -/
theorem Render.tokensText_flush (registry : Registry) (below : Option Renderer)
    (props : Json.Fields) (forwarded : Attributes) (text : String) :
    tokensText registry below props forwarded (Lexed.flush text) = .ok text := by
  unfold Lexed.flush
  split
  case isTrue hempty => rw [String.isEmpty_iff.1 hempty]; rfl
  case isFalse => exact congrArg Except.ok (String.append_empty)

theorem Registry.render_of_tokens_eq_flush {component : Component} {text : String}
    (h : component.tokens = Lexed.flush text) (registry : Registry) (props : Json.Fields)
    (forwarded : Attributes) : registry.render component props forwarded = .ok text := by
  unfold Registry.render
  cases registry.maxDepth with
  | zero => rw [Render.within, h, Render.tokensText_flush]
  | succ levels => rw [Render.within, h, Render.tokensText_flush]

/-- Lexing a source is one division of it into segments, of which tokens and recoveries say all. A
source without constructs and escapes is rendered as it stands. -/
theorem lex_segmentation (source : String) :
    (∃! segments, Segmentation source (lex source) segments) ∧
      ((∀ token ∈ (lex source).tokens, token.isLiteral = true) →
        ¬ ['\\', '$', '\x7b'] <:+: source.toList →
        ∀ (registry : Registry) (props : Json.Fields) (forwarded : Attributes),
          registry.render (.ofSource source) props forwarded = .ok source) := by
  have hsegments := segmentation_segments source
  constructor
  · refine ⟨segments source, hsegments, ?_⟩
    intro other h
    exact (Segment.all_eq_iff.2 h.division).symm
  · intro literals noEscape registry
    have other := hsegments.tokens.token?_eq_none hsegments.constructs literals
    have plain : .escape ∉ segments source := by
      intro h
      apply noEscape
      rw [← hsegments.whole]
      exact Segment.escape_infix h
    have htokens : (Component.ofSource source).tokens = Lexed.flush source := by
      change (lex source).tokens = _
      rw [hsegments.tokens.eq_flush other, Segment.textOf_eq_source other plain,
        hsegments.whole, String.ofList_toList]
    exact registry.render_of_tokens_eq_flush htokens

theorem lex_segmentation_recovered :
    Registry.empty.render (.ofSource "b$\x7ba b\x7d") [] .empty = .ok "b$\x7ba b\x7d" := by
  have htokens : (lex "b$\x7ba b\x7d").tokens = [.literal "b$\x7ba b\x7d"] := by cbv
  have literals : ∀ token ∈ (lex "b$\x7ba b\x7d").tokens, token.isLiteral = true := by
    rw [htokens]
    simp [Token.isLiteral]
  have htext : "b$\x7ba b\x7d".toList = ['b', '$', '\x7b', 'a', ' ', 'b', '\x7d'] := rfl
  have noEscape : ¬ ['\\', '$', '\x7b'] <:+: "b$\x7ba b\x7d".toList := by
    rw [htext]
    decide
  exact (lex_segmentation "b$\x7ba b\x7d").2 literals noEscape .empty [] .empty

end Stencil
