import Stencil.Proofs.ByteTagScanner
import Stencil.Proofs.ClosedBoundary

/-!
# Lexing by bytes

Lexing goes over the bytes of a source and cuts each text of its tokens, and the text before each
recovery, out of the source. There is no result where a text is cut at an offset that is no bound of
a character, behind the end of the source, or before its own beginning. There always is one, and it
is the lexed source (`ByteLexer.lex_eq`).
-/

namespace Stencil.ByteLexer

/-- What is known at an offset. Of the literal that is pending, `literal` is what stands before the
offset `run`; from there on it is the source itself. -/
structure State where
  tokens : List Token
  recovered : List Recovery
  literal : String
  run : Nat
  inTag : Bool
  quote : Option Char
  deriving DecidableEq, Repr

namespace State

def start : State := ⟨[], [], "", 0, false, none⟩

def flushLiteral (s : State) : State :=
  { s with tokens := s.tokens ++ Lexed.flush s.literal, literal := "" }

def emit (s : State) (token : Token) : State :=
  { s.flushLiteral with tokens := s.flushLiteral.tokens ++ [token] }

/-- The state behind a byte that opens nothing. -/
def pass (s : State) (c : Char) (next : Option Char) : State :=
  if (c == '"' || c == '\'') && s.inTag then
    match s.quote with
    | none => { s with quote := some c }
    | some mark => if mark == c then { s with quote := none } else s
  else if c == '<' && s.quote.isNone then { s with inTag := next.any isLetter }
  else if c == '>' && s.quote.isNone then { s with inTag := false }
  else s

end State

variable (source : String)

/-- Copy the source up to an offset into the literal that is pending. -/
def flushRun (s : State) (stop : Nat) : Option State :=
  (slice? source s.run stop).map fun text => { s with literal := s.literal ++ text, run := stop }

def recovery (kind : Construct) (start stop : Nat) (reason : Stall) : Option Recovery :=
  (slice? source 0 start).map fun before =>
    { construct := kind
      start := start
      stop := stop
      line := before.toList.count '\n' + 1
      column := (before.toList.reverse.takeWhile (· ≠ '\n')).length + 1
      reason := reason }

/-- Take over the end of a scan that was begun at an offset, and the offset to go on at. -/
def commit (s : State) (start : Nat) (kind : Construct) : ByteOutcome → Option (State × Nat)
  | .found token stop =>
      (flushRun source s start).map fun t => ({ t.emit token with run := stop }, stop)
  | .stalled reason stop =>
      (recovery source kind start stop reason).map fun r =>
        ({ s with recovered := s.recovered ++ [r] }, max stop (start + 1))

/-- The construct that opens at an offset, with the end of its scan. -/
def opening? (s : State) (before : Option Char) (i : Nat) :
    List Char → Option (Construct × Option ByteOutcome)
  | '$' :: '\x7b' :: cs => some (.prop, Placeholder.byteScan source (i + 2) cs)
  | '$' :: c :: cs =>
      if isIdent c ∧ s.inTag = true ∧ s.quote = none ∧ before.any isBlank then
        some (.attribute, Shorthand.byteScan source (i + 1) (c :: cs))
      else none
  | '<' :: 'e' :: 'z' :: '-' :: 'f' :: 'o' :: 'r' :: c :: cs =>
      if isBlank c then some (.repeated, InclusionTag.byteScan .repeated source (i + 8) cs)
      else none
  | '<' :: 'e' :: 'z' :: c :: cs =>
      if isBlank c then some (.single, InclusionTag.byteScan .single source (i + 4) cs) else none
  | _ => none

/-- The state behind what stands at an offset, and the offset to go on at. -/
def step (s : State) (before : Option Char) (i : Nat) (c : Char) (cs : List Char) :
    Option (State × Nat) :=
  match c, cs with
  | '\\', '$' :: '\x7b' :: _ =>
      (flushRun source s i).map fun t =>
        ({ t with literal := t.literal ++ "$\x7b", run := i + 3 }, i + 3)
  | '$', '*' :: _ =>
      (flushRun source s i).map fun t => ({ t.emit .forwarded with run := i + 2 }, i + 2)
  | _, _ =>
      match opening? source s before i (c :: cs) with
      | some (kind, outcome) => outcome.bind (commit source s i kind)
      | none => some (s.pass c cs.head?, i + 1)

section Progress

variable {source} {s t : State} {before : Option Char} {i next : Nat} {c : Char}
variable {cs text : List Char} {kind : Construct}

theorem opening?_cases {outcome : Option ByteOutcome}
    (h : opening? source s before i text = some (kind, outcome)) :
    (∃ cs, text = '$' :: '\x7b' :: cs ∧ kind = .prop ∧
      outcome = Placeholder.byteScan source (i + 2) cs) ∨
    (∃ c cs, text = '$' :: c :: cs ∧ isIdent c = true ∧ s.inTag = true ∧ s.quote = none ∧
      before.any isBlank = true ∧ kind = .attribute ∧
      outcome = Shorthand.byteScan source (i + 1) (c :: cs)) ∨
    (∃ c cs, text = '<' :: 'e' :: 'z' :: '-' :: 'f' :: 'o' :: 'r' :: c :: cs ∧ isBlank c = true ∧
      kind = .repeated ∧ outcome = InclusionTag.byteScan .repeated source (i + 8) cs) ∨
    (∃ c cs, text = '<' :: 'e' :: 'z' :: c :: cs ∧ isBlank c = true ∧
      kind = .single ∧ outcome = InclusionTag.byteScan .single source (i + 4) cs) := by
  unfold opening? at h
  split at h
  case h_1 cs =>
    obtain ⟨rfl, rfl⟩ := Prod.mk.inj (Option.some.inj h)
    exact .inl ⟨cs, rfl, rfl, rfl⟩
  case h_2 c cs _ =>
    split at h
    case isTrue hc =>
      obtain ⟨rfl, rfl⟩ := Prod.mk.inj (Option.some.inj h)
      exact .inr (.inl ⟨c, cs, rfl, hc.1, hc.2.1, hc.2.2.1, hc.2.2.2, rfl, rfl⟩)
    case isFalse => cases h
  case h_3 c cs =>
    split at h
    case isTrue hc =>
      obtain ⟨rfl, rfl⟩ := Prod.mk.inj (Option.some.inj h)
      exact .inr (.inr (.inl ⟨c, cs, rfl, hc, rfl, rfl⟩))
    case isFalse => cases h
  case h_4 c cs _ =>
    split at h
    case isTrue hc =>
      obtain ⟨rfl, rfl⟩ := Prod.mk.inj (Option.some.inj h)
      exact .inr (.inr (.inr ⟨c, cs, rfl, hc, rfl, rfl⟩))
    case isFalse => cases h
  case h_5 => cases h

/-- A scan is begun behind the offset at which its construct opens, and so ends behind it. -/
theorem lt_stop_of_opening {outcome : ByteOutcome}
    (h : opening? source s before i text = some (kind, some outcome)) : i < outcome.stop := by
  obtain ⟨cs, _, _, hscan⟩ | ⟨c, cs, _, _, _, _, _, _, hscan⟩ | ⟨c, cs, _, _, _, hscan⟩ |
    ⟨c, cs, _, _, _, hscan⟩ := opening?_cases h
  all_goals
    have hstop := ByteMachine.le_stop hscan.symm
    omega

theorem lt_of_commit {start : Nat} {outcome : ByteOutcome} (hlt : start < outcome.stop)
    (h : commit source s start kind outcome = some (t, next)) : start < next := by
  cases outcome with
  | found token stop =>
      obtain ⟨_, _, hnext⟩ := Option.map_eq_some_iff.1 h
      obtain ⟨_, rfl⟩ := Prod.mk.inj hnext
      exact hlt
  | stalled reason stop =>
      obtain ⟨_, _, hnext⟩ := Option.map_eq_some_iff.1 h
      obtain ⟨_, rfl⟩ := Prod.mk.inj hnext
      omega

/-- Lexing goes on behind the offset it was at. -/
theorem lt_of_step (h : step source s before i c cs = some (t, next)) : i < next := by
  unfold step at h
  split at h
  · obtain ⟨_, _, hnext⟩ := Option.map_eq_some_iff.1 h
    obtain ⟨_, rfl⟩ := Prod.mk.inj hnext
    omega
  · obtain ⟨_, _, hnext⟩ := Option.map_eq_some_iff.1 h
    obtain ⟨_, rfl⟩ := Prod.mk.inj hnext
    omega
  · split at h
    case h_1 kind outcome hopen =>
      obtain ⟨outcome, rfl, hcommit⟩ := Option.bind_eq_some_iff.1 h
      exact lt_of_commit (lt_stop_of_opening hopen) hcommit
    case h_2 =>
      obtain ⟨_, rfl⟩ := Prod.mk.inj (Option.some.inj h)
      omega

end Progress

/-- Lexing from an offset up to the end of the bytes. -/
def loop (bytes : List Char) (s : State) (i : Nat) : Option State :=
  match _hbytes : bytes.drop i with
  | [] => some s
  | c :: cs =>
      match _hstep : step source s (bytes.take i).getLast? i c cs with
      | none => none
      | some (t, next) => loop bytes t next
termination_by bytes.length - i
decreasing_by
  have hlt := lt_of_step _hstep
  have hlength := congrArg List.length _hbytes
  rw [List.length_drop, List.length_cons] at hlength
  omega

/-- The result at the end of the source. -/
def finish (stop : Nat) (s : State) : Option Lexed :=
  (flushRun source s stop).map fun t => ⟨t.flushLiteral.tokens, t.recovered⟩

/-- Lexing by bytes, each of them read as the character with its code. -/
def lex : Option Lexed :=
  let bytes := (utf8Bytes source).map Char.ofUInt8
  (loop source bytes .start 0).bind (finish source bytes.length)

variable {source} {context : TagContext} {s t : State} {front text cs : List Char} {c : Char}

/-- The flags of a context. A quote is open only in a tag. -/
inductive State.InContext (s : State) : TagContext → Prop
  | outside (noTag : s.inTag = false) (noQuote : s.quote = none) : s.InContext .outside
  | inside (tag : s.inTag = true) (noQuote : s.quote = none) : s.InContext .inside
  | quoted {mark} (tag : s.inTag = true) (quote : s.quote = some mark)
      (isMark : mark = '"' ∨ mark = '\'') : s.InContext (.quoted mark)

theorem State.pass_of_not_ascii (h : ¬ Ascii c) (next : Option Char) : s.pass c next = s := by
  simp (disch := decide) [State.pass, beq_of_not_ascii h]

/-- Of the character ahead it matters only whether it is a letter. -/
theorem State.pass_head?_bytesOf (cs : List Char) :
    s.pass c (bytesOf cs).head? = s.pass c cs.head? := by
  rw [State.pass, State.pass, any_head?_bytesOf fun _ => ascii_of_isLetter]

@[simp] theorem State.pass_tokens (next : Option Char) : (s.pass c next).tokens = s.tokens := by
  unfold State.pass
  (repeat' split) <;> rfl

@[simp] theorem State.pass_recovered (next : Option Char) :
    (s.pass c next).recovered = s.recovered := by
  unfold State.pass
  (repeat' split) <;> rfl

@[simp] theorem State.pass_literal (next : Option Char) : (s.pass c next).literal = s.literal := by
  unfold State.pass
  (repeat' split) <;> rfl

@[simp] theorem State.pass_run (next : Option Char) : (s.pass c next).run = s.run := by
  unfold State.pass
  (repeat' split) <;> rfl

theorem State.InContext.inside_iff (h : s.InContext context) :
    context = .inside ↔ s.inTag = true ∧ s.quote = none := by
  cases h with
  | outside noTag noQuote => simp [noTag]
  | inside tag noQuote => simp [tag, noQuote]
  | quoted tag quote isMark => simp [quote]

theorem State.InContext.congr (h : s.InContext context) (htag : t.inTag = s.inTag)
    (hquote : t.quote = s.quote) : t.InContext context := by
  cases h with
  | outside noTag noQuote => exact .outside (htag.trans noTag) (hquote.trans noQuote)
  | inside tag noQuote => exact .inside (htag.trans tag) (hquote.trans noQuote)
  | quoted tag quote isMark => exact .quoted (htag.trans tag) (hquote.trans quote) isMark

theorem State.InContext.pass (h : s.InContext context) (c : Char) (next : Option Char) :
    (s.pass c next).InContext (context.step c next) := by
  cases h with
  | outside noTag noQuote =>
      by_cases hopen : c = '<'
      · subst hopen
        cases hletter : next.any isLetter
        · have hpass : s.pass '<' next = { s with inTag := false } := by
            simp [State.pass, noTag, noQuote, hletter]
          rw [hpass, TagContext.step, if_neg (by simp [hletter])]
          exact .outside rfl noQuote
        · have hpass : s.pass '<' next = { s with inTag := true } := by
            simp [State.pass, noTag, noQuote, hletter]
          rw [hpass, TagContext.step, if_pos ⟨rfl, hletter⟩]
          exact .inside rfl noQuote
      · have hpass : s.pass c next = s ∨ s.pass c next = { s with inTag := false } := by
          by_cases hclose : c = '>' <;> simp [State.pass, noTag, noQuote, hopen, hclose]
        rw [TagContext.step, if_neg fun hboth => hopen hboth.1]
        obtain hpass | hpass := hpass <;> rw [hpass]
        · exact .outside noTag noQuote
        · exact .outside rfl noQuote
  | inside tag noQuote =>
      by_cases hquote : c = '"' ∨ c = '\''
      · have hpass : s.pass c next = { s with quote := some c } := by
          simp [State.pass, tag, noQuote, hquote]
        rw [hpass, TagContext.step, if_pos hquote]
        exact .quoted tag rfl hquote
      · by_cases hopen : c = '<'
        · subst hopen
          have hpass : s.pass '<' next = { s with inTag := next.any isLetter } := by
            simp [State.pass, noQuote]
          rw [hpass, TagContext.step, if_neg hquote, if_pos rfl]
          cases hletter : next.any isLetter
          · exact .outside rfl noQuote
          · exact .inside rfl noQuote
        · by_cases hclose : c = '>'
          · subst hclose
            have hpass : s.pass '>' next = { s with inTag := false } := by
              simp [State.pass, noQuote]
            rw [hpass]
            exact .outside rfl noQuote
          · have hpass : s.pass c next = s := by
              simp [State.pass, hquote, hopen, hclose]
            rw [hpass, TagContext.step, if_neg hquote, if_neg hopen, if_neg hclose]
            exact .inside tag noQuote
  | @quoted mark tag quote isMark =>
      by_cases hmark : c = mark
      · subst hmark
        have hpass : s.pass c next = { s with quote := none } := by
          simp [State.pass, tag, quote, isMark]
        rw [hpass, TagContext.step, if_pos rfl]
        exact .inside tag rfl
      · have hpass : s.pass c next = s := by
          simp [State.pass, quote, Ne.symm hmark]
        rw [hpass, TagContext.step, if_neg hmark]
        exact .quoted tag quote isMark

theorem ascii_of_openingWord {before : Option Char} {word : List Char} {kind : Construct}
    {scan : List Char → Outcome} (h : Segment.OpeningWord context before word kind scan) :
    ∀ c ∈ word, Ascii c := by
  cases h with
  | placeholder => simp [Ascii]
  | shorthand ident inside behind =>
      simp only [List.forall_mem_cons]
      exact ⟨by decide, ascii_of_isIdent ident, by simp⟩
  | repeated blank =>
      simp only [List.forall_mem_cons]
      exact ⟨by decide, by decide, by decide, by decide, by decide, by decide, by decide,
        ascii_of_isBlank blank, by simp⟩
  | single blank =>
      simp only [List.forall_mem_cons]
      exact ⟨by decide, by decide, by decide, ascii_of_isBlank blank, by simp⟩

/-- A construct opens in the bytes where it opens in the text, and its scan ends at the offset
behind which the rest of the text stands. -/
theorem opening?_eq (htext : source.toList = front ++ text) (h : s.InContext context) :
    opening? source s (bytesOf front).getLast? (bytesOf front).length (bytesOf text) =
      (Segment.opening? context front.getLast? text).map fun opened =>
        (opened.1, some (opened.2.atOffset (bytesOf source.toList).length)) := by
  have hblank := any_getLast?_bytesOf (fun _ => ascii_of_isBlank) front
  cases hopen : Segment.opening? context front.getLast? text with
  | some opened =>
      obtain ⟨kind, outcome⟩ := opened
      obtain ⟨word, scan, cs, hword, rfl, rfl⟩ := Segment.opening?_eq_some_iff.1 hopen
      have ascii := ascii_of_openingWord hword
      have hlength := length_bytesOf_word front ascii
      rw [← List.append_assoc] at htext
      rw [bytesOf_word ascii cs]
      cases hword with
      | placeholder =>
          have hscan := Placeholder.byteScan_eq htext
          rw [hlength] at hscan
          exact congrArg (fun outcome => some (Construct.prop, outcome)) hscan
      | @shorthand c ident inside blank =>
          have hbrace : c ≠ '\x7b' := ne_of_apply_ne isIdent (by rw [ident]; decide)
          have hopens : isIdent c ∧ s.inTag = true ∧ s.quote = none ∧
              (bytesOf front).getLast?.any isBlank :=
            ⟨ident, (h.inside_iff.1 inside).1, (h.inside_iff.1 inside).2, hblank.trans blank⟩
          have hscan : Shorthand.byteScan source ((bytesOf front).length + 1) (c :: bytesOf cs) =
              some ((Shorthand.scan (c :: cs)).atOffset (bytesOf source.toList).length) := by
            have hname : source.toList = (front ++ ['$']) ++ c :: cs := by
              rw [htext, List.append_assoc, List.append_assoc]
              rfl
            rw [← bytesOf_cons (ascii_of_isIdent ident), ← Shorthand.byteScan_eq hname,
              length_bytesOf_word front (by simp [Ascii])]
            rfl
          simp [opening?, hopens, hscan]
      | repeated blank =>
          have hscan := InclusionTag.byteScan_eq .repeated htext
          rw [hlength] at hscan
          simpa [opening?, blank] using hscan
      | @single c blank =>
          have hdash : c ≠ '-' := ne_of_apply_ne isBlank (by rw [blank]; decide)
          have hscan := InclusionTag.byteScan_eq .single htext
          rw [hlength] at hscan
          simpa [opening?, hdash, blank] using hscan
  | none =>
      have notAhead {word : List Char} {kind : Construct} {scan : List Char → Outcome}
          (hword : Segment.OpeningWord context front.getLast? word kind scan) {cs : List Char} :
          bytesOf text ≠ word ++ cs := by
        intro hcs
        obtain ⟨rest, rfl⟩ := (prefix_bytesOf (ascii_of_openingWord hword)).1 ⟨cs, hcs.symm⟩
        have hopens := hword.opening? rest
        rw [hopen] at hopens
        cases hopens
      cases hbytes : opening? source s (bytesOf front).getLast? (bytesOf front).length
          (bytesOf text) with
      | none => rfl
      | some opened =>
          exfalso
          obtain ⟨cs, hcs, _⟩ | ⟨c, cs, hcs, ident, tag, noQuote, blank, _⟩ |
            ⟨c, cs, hcs, blank, _⟩ | ⟨c, cs, hcs, blank, _⟩ := opening?_cases hbytes
          · exact notAhead .placeholder hcs
          · rw [hblank] at blank
            exact notAhead (.shorthand ident (h.inside_iff.2 ⟨tag, noQuote⟩) blank) hcs
          · exact notAhead (.repeated blank) hcs
          · exact notAhead (.single blank) hcs

section Steps

variable {before : Option Char} {i next : Nat} {kind : Construct}

theorem step_of_opening {outcome : Option ByteOutcome}
    (h : opening? source s before i (c :: cs) = some (kind, outcome)) :
    step source s before i c cs = outcome.bind (commit source s i kind) := by
  unfold step
  split
  · simp [opening?] at h
  · simp [opening?, isIdent, isLetter, isDigit] at h
  · rw [h]

theorem step_of_none (noEscape : ¬ ['\\', '$', '\x7b'] <+: c :: cs)
    (noForward : ¬ ['$', '*'] <+: c :: cs) (h : opening? source s before i (c :: cs) = none) :
    step source s before i c cs = some (s.pass c cs.head?, i + 1) := by
  unfold step
  split
  · exact absurd ⟨_, rfl⟩ noEscape
  · exact absurd ⟨_, rfl⟩ noForward
  · rw [h]

/-- No byte of a longer character opens anything or is markup. -/
theorem step_of_not_ascii (h : ¬ Ascii c) : step source s before i c cs = some (s, i + 1) := by
  have hhead {d : Char} {word : List Char} (hd : Ascii d) : ¬ d :: word <+: c :: cs := by
    intro hprefix
    exact h ((List.cons_prefix_cons.1 hprefix).1 ▸ hd)
  have hopen : opening? source s before i (c :: cs) = none := by
    cases hopen : opening? source s before i (c :: cs) with
    | none => rfl
    | some opened =>
        obtain ⟨_, hcs, _⟩ | ⟨_, _, hcs, _⟩ | ⟨_, _, hcs, _⟩ | ⟨_, _, hcs, _⟩ :=
          opening?_cases hopen
        all_goals
          cases hcs
          exact absurd (by decide) h
  rw [step_of_none (hhead (by decide)) (hhead (by decide)) hopen, s.pass_of_not_ascii h]

variable {bytes : List Char}

theorem loop_end (h : bytes.drop i = []) : loop source bytes s i = some s := by
  rw [loop]
  split <;> simp_all

theorem loop_step (h : bytes.drop i = c :: cs)
    (hstep : step source s (bytes.take i).getLast? i c cs = some (t, next)) :
    loop source bytes s i = loop source bytes t next := by
  rw [loop]
  split
  case h_1 hnil =>
    rw [h] at hnil
    cases hnil
  case h_2 hcons =>
    rw [h] at hcons
    cases hcons
    split
    case h_1 hnone =>
      rw [hstep] at hnone
      cases hnone
    case h_2 hsome =>
      rw [hstep] at hsome
      cases hsome
      rfl

/-- The bytes of a longer character are passed one by one. -/
theorem loop_longer {front passed rest : List Char} (h : ∀ d ∈ passed, ¬ Ascii d)
    (hbytes : bytes = front ++ (passed ++ rest)) :
    loop source bytes s front.length = loop source bytes s (front ++ passed).length := by
  induction passed generalizing front with
  | nil => rw [List.append_nil]
  | cons d passed ih =>
      have hdrop : bytes.drop front.length = d :: (passed ++ rest) := by
        rw [hbytes, List.drop_left, List.cons_append]
      have hnext : bytes = (front ++ [d]) ++ (passed ++ rest) := by
        rw [hbytes, List.append_assoc, List.singleton_append, List.cons_append]
      have htail := ih (fun e he => h e (List.mem_cons_of_mem d he)) hnext
      rw [List.length_append, List.length_singleton, List.append_assoc,
        List.singleton_append] at htail
      rw [loop_step hdrop (step_of_not_ascii (h d List.mem_cons_self)), htail]

/-- The step behind a beginning of the source. -/
theorem loop_at (htext : source.toList = front ++ text) (hbytes : bytesOf text = c :: cs)
    (hstep : step source s (bytesOf front).getLast? (bytesOf front).length c cs = some (t, next)) :
    loop source (bytesOf source.toList) s (bytesOf front).length =
      loop source (bytesOf source.toList) t next := by
  have hwhole : bytesOf source.toList = bytesOf front ++ c :: cs := by
    rw [htext, bytesOf_append, hbytes]
  apply loop_step
  · rw [hwhole, List.drop_left]
  · rw [hwhole, List.take_left]
    exact hstep

end Steps

/-- A text is pending: in the literal up to the offset `run`, and from there on in the source up to
where lexing is. -/
def Pending (s : State) (front : List Char) (text : String) : Prop :=
  ∃ read, text = s.literal ++ read ∧ ReadFrom front s.run read

variable {pending : String}

theorem Pending.append (h : Pending s front pending) (text : List Char) :
    Pending s (front ++ text) (pending ++ String.ofList text) := by
  obtain ⟨read, rfl, hread⟩ := h
  exact ⟨read ++ String.ofList text, String.append_assoc, hread.append text⟩

/-- Where the offset `run` has come to where lexing is, all that is pending is in the literal. -/
theorem pending_literal (h : s.run = (bytesOf front).length) : Pending s front s.literal := by
  refine ⟨"", String.append_empty.symm, ?_⟩
  rw [h]
  exact .empty front

theorem pending_pass (h : Pending s front pending) (next : Option Char) :
    Pending (s.pass c next) (front ++ [c]) (pending ++ String.ofList [c]) := by
  rw [Pending, State.pass_literal, State.pass_run]
  exact h.append [c]

theorem flushRun_eq (htext : source.toList = front ++ text) (h : Pending s front pending) :
    flushRun source s (bytesOf front).length =
      some { s with literal := pending, run := (bytesOf front).length } := by
  obtain ⟨read, rfl, hread⟩ := h
  rw [flushRun, hread.slice? htext]
  rfl

/-- The text before a recovery is cut out of the source, and gives its line and column. -/
theorem recovery_eq (htext : source.toList = front ++ text) (kind : Construct) (stop : Nat)
    (reason : Stall) :
    recovery source kind (bytesOf front).length stop reason =
      some ⟨kind, (Position.start.advance front).offset, stop,
        (Position.start.advance front).line, (Position.start.advance front).column, reason⟩ := by
  have hslice : slice? source 0 (bytesOf front).length = some (String.ofList front) :=
    @slice?_eq_some source [] front text htext
  rw [recovery, hslice, Position.advance_line, Position.start_advance_column,
    Position.start_advance_offset, ← length_bytesOf, Option.map_some, String.toList_ofList,
    Nat.add_comm (front.count '\n')]
  rfl

/-! ## The loop over a segment -/

theorem loop_plain (htext : source.toList = front ++ c :: cs) (hcontext : s.InContext context)
    (noEscape : ¬ ['\\', '$', '\x7b'] <+: c :: cs) (noForward : ¬ ['$', '*'] <+: c :: cs)
    (noOpening : Segment.opening? context front.getLast? (c :: cs) = none) :
    loop source (bytesOf source.toList) s (bytesOf front).length =
      loop source (bytesOf source.toList) (s.pass c cs.head?) (bytesOf (front ++ [c])).length := by
  by_cases hc : Ascii c
  · have hnone := opening?_eq htext hcontext
    rw [noOpening, bytesOf_cons hc] at hnone
    have hahead {word : List Char} (ascii : ∀ d ∈ word, Ascii d) (h : ¬ word <+: c :: cs) :
        ¬ word <+: c :: bytesOf cs := by
      rw [← bytesOf_cons hc, prefix_bytesOf ascii]
      exact h
    have hstep := step_of_none (hahead (by simp [Ascii]) noEscape)
      (hahead (by simp [Ascii]) noForward) hnone
    rw [State.pass_head?_bytesOf] at hstep
    rw [loop_at htext (bytesOf_cons hc cs) hstep,
      length_bytesOf_word front (List.forall_mem_singleton.2 hc), List.length_singleton]
  · have hbytes : bytesOf source.toList = bytesOf front ++ (bytesOf [c] ++ bytesOf cs) := by
      rw [htext, bytesOf_append, ← bytesOf_append [c] cs]
      rfl
    rw [State.pass_of_not_ascii hc, bytesOf_append]
    exact loop_longer (fun d hd => not_ascii_of_mem_bytesOf hc hd) hbytes

theorem loop_escape (htext : source.toList = front ++ '\\' :: '$' :: '\x7b' :: cs)
    (hpending : Pending s front pending) :
    loop source (bytesOf source.toList) s (bytesOf front).length =
      loop source (bytesOf source.toList)
        { s with
          literal := pending ++ "$\x7b"
          run := (bytesOf (front ++ ['\\', '$', '\x7b'])).length }
        (bytesOf (front ++ ['\\', '$', '\x7b'])).length := by
  have ascii : ∀ d ∈ ['\\', '$', '\x7b'], Ascii d := by simp [Ascii]
  rw [length_bytesOf_word front ascii]
  apply loop_at htext (bytesOf_word ascii cs)
  simp only [step, flushRun_eq htext hpending, Option.map_some]
  rfl

/-- The state behind a token that ends at an offset, where the text before it was pending. -/
def State.behind (s : State) (pending : String) (token : Token) (stop : Nat) : State :=
  { s with tokens := s.tokens ++ Lexed.flush pending ++ [token], literal := "", run := stop }

theorem loop_forwarded (htext : source.toList = front ++ '$' :: '*' :: cs)
    (hpending : Pending s front pending) :
    loop source (bytesOf source.toList) s (bytesOf front).length =
      loop source (bytesOf source.toList)
        (s.behind pending .forwarded (bytesOf (front ++ ['$', '*'])).length)
        (bytesOf (front ++ ['$', '*'])).length := by
  have ascii : ∀ d ∈ ['$', '*'], Ascii d := by simp [Ascii]
  rw [length_bytesOf_word front ascii]
  apply loop_at htext (bytesOf_word ascii cs)
  simp only [step, flushRun_eq htext hpending, Option.map_some]
  rfl

section Opening

variable {kind : Construct} {rest : List Char}

/-- Where a construct opens, lexing goes on at the end of its scan. -/
theorem loop_opening {outcome : Outcome}
    (htext : source.toList = front ++ text) (hcontext : s.InContext context)
    (hopen : Segment.opening? context front.getLast? text = some (kind, outcome)) :
    (bytesOf front).length < (outcome.atOffset (bytesOf source.toList).length).stop ∧
    ∀ {t next}, commit source s (bytesOf front).length kind
        (outcome.atOffset (bytesOf source.toList).length) = some (t, next) →
      loop source (bytesOf source.toList) s (bytesOf front).length =
        loop source (bytesOf source.toList) t next := by
  have hopens := opening?_eq htext hcontext
  rw [hopen, Option.map_some] at hopens
  refine ⟨lt_stop_of_opening hopens, ?_⟩
  intro t next hcommit
  cases hbytes : bytesOf text with
  | nil =>
      rw [hbytes] at hopens
      cases hopens
  | cons c cs =>
      rw [hbytes] at hopens
      apply loop_at htext hbytes
      rw [step_of_opening hopens]
      exact hcommit

theorem loop_found {token : Token} (htext : source.toList = front ++ (text ++ rest))
    (hcontext : s.InContext context) (hpending : Pending s front pending)
    (hopen : Segment.opening? context front.getLast? (text ++ rest) =
      some (kind, .found token rest)) :
    loop source (bytesOf source.toList) s (bytesOf front).length =
      loop source (bytesOf source.toList)
        (s.behind pending token (bytesOf (front ++ text)).length)
        (bytesOf (front ++ text)).length := by
  apply (loop_opening htext hcontext hopen).2
  have hrest : source.toList = (front ++ text) ++ rest := by rw [htext, List.append_assoc]
  rw [Outcome.atOffset, ByteMachine.offset_eq hrest, commit, flushRun_eq htext hpending]
  rfl

theorem loop_stalled {reason : Stall} (htext : source.toList = front ++ (text ++ rest))
    (hcontext : s.InContext context)
    (hopen : Segment.opening? context front.getLast? (text ++ rest) =
      some (kind, .stalled reason rest)) :
    loop source (bytesOf source.toList) s (bytesOf front).length =
      loop source (bytesOf source.toList)
        { s with
          recovered := s.recovered ++
            Lexed.recoveriesOf (Position.start.advance front) [.recovered kind reason text] }
        (bytesOf (front ++ text)).length := by
  obtain ⟨hlt, hloop⟩ := loop_opening htext hcontext hopen
  apply hloop
  have hrest : source.toList = (front ++ text) ++ rest := by rw [htext, List.append_assoc]
  have hstop : (bytesOf (front ++ text)).length =
      ((Position.start.advance front).advance text).offset := by
    rw [← Position.advance_append, Position.start_advance_offset, length_bytesOf]
  rw [Outcome.atOffset, ByteMachine.offset_eq hrest] at hlt ⊢
  rw [commit, recovery_eq htext, Option.map_some, max_eq_left hlt, hstop]
  rfl

end Opening

/-! ## The loop over a division -/

/-- What is left to lex adds its tokens and recoveries to those of the state. -/
def LexesTo (source : String) (s : State) (front : List Char) (pending : String)
    (segments : List Segment) : Prop :=
  (loop source (bytesOf source.toList) s (bytesOf front).length).bind
      (finish source (bytesOf source.toList).length) =
    some ⟨s.tokens ++ Lexed.tokensOf pending segments,
      s.recovered ++ Lexed.recoveriesOf (Position.start.advance front) segments⟩

theorem LexesTo.cons {segment : Segment} {segments : List Segment} {pending' : String}
    (htail : LexesTo source t (front ++ segment.source) pending' segments)
    (hloop : loop source (bytesOf source.toList) s (bytesOf front).length =
      loop source (bytesOf source.toList) t (bytesOf (front ++ segment.source)).length)
    (htokens : t.tokens ++ Lexed.tokensOf pending' segments =
      s.tokens ++ Lexed.tokensOf pending (segment :: segments))
    (hrecovered : t.recovered ++
        Lexed.recoveriesOf ((Position.start.advance front).advance segment.source) segments =
      s.recovered ++ Lexed.recoveriesOf (Position.start.advance front) (segment :: segments)) :
    LexesTo source s front pending (segment :: segments) := by
  rw [LexesTo, Position.advance_append, htokens, hrecovered] at htail
  rw [LexesTo, hloop, htail]

theorem tokens_behind (token : Token) (text : List Char) (stop : Nat) (segments : List Segment) :
    (s.behind pending token stop).tokens ++ Lexed.tokensOf "" segments =
      s.tokens ++ Lexed.tokensOf pending (.construct token text :: segments) := by
  simp [State.behind, Lexed.tokensOf, Segment.token?]

theorem lexesTo_of_division {before : Option Char} {segments : List Segment}
    (h : Division context before text segments) (htext : source.toList = front ++ text)
    (hbefore : before = front.getLast?) (hcontext : s.InContext context)
    (hpending : Pending s front pending) : LexesTo source s front pending segments := by
  induction h generalizing front s pending with
  | done =>
      have hend : (bytesOf source.toList).drop (bytesOf front).length = [] := by
        rw [htext, List.append_nil, List.drop_length]
      have hstop : (bytesOf source.toList).length = (bytesOf front).length := by
        rw [htext, List.append_nil]
      rw [LexesTo, loop_end hend, Option.bind_some, finish, hstop, flushRun_eq htext hpending]
      simp [State.flushLiteral, Lexed.tokensOf, Lexed.recoveriesOf]
  | @plain context before c cs segments noEscape noForward noOpening tail ih =>
      subst hbefore
      have hnext : source.toList = (front ++ [c]) ++ cs := by
        rw [htext, List.append_assoc, List.singleton_append]
      have htail := ih hnext List.getLast?_concat.symm (hcontext.pass c cs.head?)
        (pending_pass hpending cs.head?)
      apply LexesTo.cons htail (loop_plain htext hcontext noEscape noForward noOpening)
      · rw [State.pass_tokens]
        rfl
      · rw [State.pass_recovered]
        rfl
  | @escape context before cs segments tail ih =>
      have hnext : source.toList = (front ++ ['\\', '$', '\x7b']) ++ cs := by
        rw [htext, List.append_assoc]
        rfl
      let t : State :=
        { s with
          literal := pending ++ "$\x7b"
          run := (bytesOf (front ++ ['\\', '$', '\x7b'])).length }
      have htail : LexesTo source t _ (pending ++ "$\x7b") segments :=
        ih hnext (by simp) (hcontext.congr rfl rfl) (pending_literal rfl)
      exact LexesTo.cons htail (loop_escape htext hpending) rfl rfl
  | @forwarded context before cs segments tail ih =>
      have hnext : source.toList = (front ++ ['$', '*']) ++ cs := by
        rw [htext, List.append_assoc]
        rfl
      have htail : LexesTo source (s.behind pending .forwarded _) _ "" segments :=
        ih hnext (by simp) (hcontext.congr rfl rfl) (pending_literal rfl)
      exact LexesTo.cons htail (loop_forwarded htext hpending) (tokens_behind _ _ _ _) rfl
  | @construct context before kind token text rest segments nonempty scan tail ih =>
      subst hbefore
      have hnext : source.toList = (front ++ text) ++ rest := by rw [htext, List.append_assoc]
      have hlast : text.getLast? = (front ++ text).getLast? :=
        (List.getLast?_append_of_ne_nil front nonempty).symm
      have htail : LexesTo source (s.behind pending token _) _ "" segments :=
        ih hnext hlast (hcontext.congr rfl rfl) (pending_literal rfl)
      exact LexesTo.cons htail (loop_found htext hcontext hpending scan) (tokens_behind _ _ _ _) rfl
  | @recovered context before kind reason text rest segments nonempty scan tail ih =>
      subst hbefore
      have hnext : source.toList = (front ++ text) ++ rest := by rw [htext, List.append_assoc]
      have hlast : text.getLast? = (front ++ text).getLast? :=
        (List.getLast?_append_of_ne_nil front nonempty).symm
      let t : State :=
        { s with
          recovered := s.recovered ++
            Lexed.recoveriesOf (Position.start.advance front) [.recovered kind reason text] }
      have htail : LexesTo source t _ (pending ++ String.ofList text) segments :=
        ih hnext hlast (hcontext.congr rfl rfl) (hpending.append text)
      apply LexesTo.cons htail (loop_stalled htext hcontext scan)
      · rfl
      · simp [Lexed.recoveriesOf, Segment.source]

/-- Lexing by bytes never cuts a text where there is none, and gives the lexed source. -/
theorem lex_eq (source : String) : lex source = some (Stencil.lex source) := by
  have hdivision := (segmentation_segments source).division
  have hlexes : LexesTo source .start [] "" (segments source) :=
    lexesTo_of_division hdivision rfl rfl (.outside rfl rfl) (@pending_literal .start [] rfl)
  rw [lex, ← bytesOf_toList]
  exact hlexes

end Stencil.ByteLexer
