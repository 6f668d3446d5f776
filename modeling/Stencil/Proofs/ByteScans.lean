import Stencil.Proofs.ByteSlices
import Stencil.Template.Machine

/-!
# Scanning by bytes

A construct can also be scanned byte by byte. Such a machine holds no text while it reads one, only
the offset at which the text begins, and cuts the text out of the source where it ends. It has no
next move where there is no such text. A machine of this kind that follows a machine on characters
(`ByteMachine.Follows`) never comes to such a place, and finds the same (`run_eq`).
-/

namespace Stencil

/-- How a run over bytes ends, and at which offset. -/
inductive ByteOutcome where
  | found (token : Token) (stop : Nat)
  | stalled (reason : Stall) (stop : Nat)
  deriving DecidableEq, Repr

def ByteOutcome.stop : ByteOutcome → Nat
  | found _ stop => stop
  | stalled _ stop => stop

/-- The same end, told by the offset of the rest in a source of so many bytes. -/
def Outcome.atOffset (size : Nat) : Outcome → ByteOutcome
  | found token rest => .found token (size - (bytesOf rest).length)
  | stalled reason rest => .stalled reason (size - (bytesOf rest).length)

/-- A machine that is shown a byte with its offset and the bytes behind it. -/
structure ByteMachine (τ : Type) where
  step : τ → Nat → Char → List Char → Option (Move τ)
  rank : τ → Nat
  settles : ∀ {t i c cs u}, step t i c cs = some (.stay u) → rank u < rank t

/-- A text that ends behind a beginning of a source and begins at an offset. -/
def ReadFrom (front : List Char) (start : Nat) (read : String) : Prop :=
  ∃ before, front = before ++ read.toList ∧ start = (bytesOf before).length

namespace ReadFrom

variable {source : String} {front rest : List Char} {start : Nat} {read : String}

theorem empty (front : List Char) : ReadFrom front (bytesOf front).length "" :=
  ⟨front, (List.append_nil front).symm, rfl⟩

theorem append (h : ReadFrom front start read) (text : List Char) :
    ReadFrom (front ++ text) start (read ++ String.ofList text) := by
  obtain ⟨before, rfl, hstart⟩ := h
  refine ⟨before, ?_, hstart⟩
  rw [String.toList_append, String.toList_ofList, List.append_assoc]

/-- Behind a word of single bytes begins a text at the offset that the word is long. -/
theorem behind (front : List Char) {word : List Char} (h : ∀ c ∈ word, Ascii c) :
    ReadFrom (front ++ word) ((bytesOf front).length + word.length) "" := by
  rw [← length_bytesOf_word front h]
  exact empty (front ++ word)

theorem push (h : ReadFrom front start read) (c : Char) :
    ReadFrom (front ++ [c]) start (read.push c) := by
  obtain ⟨before, rfl, hstart⟩ := h
  exact ⟨before, by rw [String.toList_push, List.append_assoc], hstart⟩

theorem slice? (h : ReadFrom front start read) (htext : source.toList = front ++ rest) :
    slice? source start (bytesOf front).length = some read := by
  obtain ⟨before, rfl, rfl⟩ := h
  rw [slice?_eq_some htext, String.ofList_toList]

/-- The text is empty if it begins where it ends. -/
theorem beq_start (h : ReadFrom front start read) :
    ((bytesOf front).length == start) = read.isEmpty := by
  obtain ⟨before, rfl, rfl⟩ := h
  rw [Bool.eq_iff_iff, beq_iff_eq, String.isEmpty_iff, ← String.utf8ByteSize_eq_zero_iff,
    bytesOf_append, List.length_append, length_bytesOf_toList]
  omega

end ReadFrom

namespace ByteMachine

variable {σ τ : Type}

/-- The run from an offset; there is no outcome where the machine comes to have no move. -/
def run (b : ByteMachine τ) (t : τ) (offset : Nat) (bytes : List Char) : Option ByteOutcome :=
  match bytes with
  | [] => some (.stalled .endOfInput offset)
  | c :: cs =>
      match _h : b.step t offset c cs with
      | none => none
      | some (.stay u) => b.run u offset (c :: cs)
      | some (.pass more u) => b.run u (offset + 1 + more) (cs.drop more)
      | some (.accept token used) => some (.found token (offset + used))
      | some (.stall reason) => some (.stalled reason offset)
termination_by (bytes.length, b.rank t)
decreasing_by
  · exact Prod.Lex.right _ (b.settles ‹_›)
  · exact Prod.Lex.left _ _ (by simp only [List.length_drop, List.length_cons]; omega)

variable {b : ByteMachine τ} {t u : τ} {offset n : Nat} {c : Char} {cs : List Char}

theorem run_stay (h : b.step t offset c cs = some (.stay u)) :
    b.run t offset (c :: cs) = b.run u offset (c :: cs) := by
  rw [run]; split <;> simp_all

theorem run_pass (h : b.step t offset c cs = some (.pass n u)) :
    b.run t offset (c :: cs) = b.run u (offset + 1 + n) (cs.drop n) := by
  rw [run]; split <;> simp_all

theorem run_accept {token : Token} (h : b.step t offset c cs = some (.accept token n)) :
    b.run t offset (c :: cs) = some (.found token (offset + n)) := by
  rw [run]; split <;> simp_all

theorem run_stall {reason : Stall} (h : b.step t offset c cs = some (.stall reason)) :
    b.run t offset (c :: cs) = some (.stalled reason offset) := by
  rw [run]; split <;> simp_all

/-- A run ends at no offset before the one at which it begins. -/
theorem le_stop {outcome : ByteOutcome} {bytes : List Char}
    (h : b.run t offset bytes = some outcome) : offset ≤ outcome.stop := by
  fun_induction run b t offset bytes with
  | case1 t offset =>
      cases h
      exact Nat.le_refl offset
  | case2 t offset c cs hstep => cases h
  | case3 t offset c cs u hstep ih => exact ih h
  | case4 t offset c cs n u hstep ih => exact Nat.le_trans (by omega) (ih h)
  | case5 t offset c cs token n hstep =>
      cases h
      exact Nat.le_add_right offset n
  | case6 t offset c cs reason hstep =>
      cases h
      exact Nat.le_refl offset

/-- Bytes that a state passes without a change are behind it. -/
theorem run_passed {passed : List Char}
    (h : ∀ d ∈ passed, ∀ offset ds, b.step t offset d ds = some (.pass 0 t)) (offset : Nat)
    (rest : List Char) :
    b.run t offset (passed ++ rest) = b.run t (offset + passed.length) rest := by
  induction passed generalizing offset with
  | nil => rfl
  | cons d passed ih =>
      rw [List.cons_append, run_pass (h d List.mem_cons_self offset _), List.drop_zero,
        ih fun e he => h e (List.mem_cons_of_mem d he), List.length_cons]
      congr 1
      omega

/-- The two machines make the same move at a single byte `c`, behind which they are related again.
They pass no longer character, and stop before none. -/
inductive SameMove (related : List Char → σ → τ → Prop) (front : List Char) (c : Char)
    (cs : List Char) : Move σ → Move τ → Prop
  | stay {s t} (next : related front s t) : SameMove related front c cs (.stay s) (.stay t)
  | pass {word rest s t} (ahead : cs = word ++ rest) (ascii : ∀ d ∈ word, Ascii d)
      (next : related (front ++ c :: word) s t) :
      SameMove related front c cs (.pass word.length s) (.pass word.length t)
  | accept {word rest token} (ahead : c :: cs = word ++ rest) (ascii : ∀ d ∈ word, Ascii d) :
      SameMove related front c cs (.accept token word.length) (.accept token word.length)
  | stall {reason} : SameMove related front c cs (.stall reason) (.stall reason)

theorem SameMove.pass_one {related : List Char → σ → τ → Prop} {front : List Char} {s : σ}
    (next : related (front ++ [c]) s t) : SameMove related front c cs (.pass 0 s) (.pass 0 t) :=
  @SameMove.pass _ _ _ _ _ _ [] cs _ _ rfl (by simp) next

/-- A word of single bytes is passed, behind which a text begins. -/
theorem SameMove.pass_word {related : List Char → σ → τ → Prop} {front : List Char} {s : σ}
    (word rest : List Char) (ascii : ∀ d ∈ c :: word, Ascii d)
    (next : ReadFrom (front ++ c :: word) ((bytesOf front).length + (c :: word).length) "" →
      related (front ++ c :: word) s t) :
    SameMove related front c (word ++ rest) (.pass word.length s) (.pass word.length t) :=
  .pass rfl (fun d hd => ascii d (List.mem_cons_of_mem c hd)) (next (.behind front ascii))

theorem SameMove.accept_one {related : List Char → σ → τ → Prop} {front : List Char} {token : Token}
    (hc : Ascii c) : SameMove related front c cs (.accept token 1) (.accept token 1) :=
  @SameMove.accept _ _ _ _ _ _ [c] cs token rfl (by simpa using hc)

/-- At a longer character the byte machine stays or stalls at the first byte, or it passes all the
bytes in one state. -/
inductive MoveOver (b : ByteMachine τ) (related : List Char → σ → τ → Prop) (front : List Char)
    (c : Char) (t : τ) : Move σ → Prop
  | stay {s u} (next : related front s u)
      (step : ∀ d ds, ¬ Ascii d → b.step t (bytesOf front).length d ds = some (.stay u)) :
      MoveOver b related front c t (.stay s)
  | pass {s} (next : related (front ++ [c]) s t)
      (step : ∀ offset d ds, ¬ Ascii d → b.step t offset d ds = some (.pass 0 t)) :
      MoveOver b related front c t (.pass 0 s)
  | stall {reason}
      (step : ∀ d ds, ¬ Ascii d → b.step t (bytesOf front).length d ds = some (.stall reason)) :
      MoveOver b related front c t (.stall reason)

/-- A byte machine follows a machine on characters: from related states, behind the same beginning
of the source, the two make the same move. -/
structure Follows (b : ByteMachine τ) (m : Machine σ) (source : String)
    (related : List Char → σ → τ → Prop) : Prop where
  single : ∀ {front c cs s t}, source.toList = front ++ c :: cs → related front s t → Ascii c →
    ∃ move, b.step t (bytesOf front).length c (bytesOf cs) = some move ∧
      SameMove related front c cs (m.step s c cs) move
  longer : ∀ {front c cs s t}, source.toList = front ++ c :: cs → related front s t → ¬ Ascii c →
    MoveOver b related front c t (m.step s c cs)

/-- From one pair of states the two machines move alike at `c`, be it a single byte or not. -/
structure MovesAlike (b : ByteMachine τ) (m : Machine σ) (related : List Char → σ → τ → Prop)
    (front : List Char) (c : Char) (cs : List Char) (s : σ) (t : τ) : Prop where
  single : Ascii c → ∃ move, b.step t (bytesOf front).length c (bytesOf cs) = some move ∧
    SameMove related front c cs (m.step s c cs) move
  longer : ¬ Ascii c → MoveOver b related front c t (m.step s c cs)

/-- It is enough to look at one pair of related states at a time. -/
theorem follows_of_movesAlike {m : Machine σ} {source : String}
    {related : List Char → σ → τ → Prop}
    (h : ∀ {front c cs s t}, source.toList = front ++ c :: cs → related front s t →
      MovesAlike b m related front c cs s t) : Follows b m source related where
  single htext hrelated := (h htext hrelated).single
  longer htext hrelated := (h htext hrelated).longer

theorem offset_eq {source : String} {front rest : List Char} (h : source.toList = front ++ rest) :
    (bytesOf source.toList).length - (bytesOf rest).length = (bytesOf front).length := by
  rw [h, bytesOf_append, List.length_append, Nat.add_sub_cancel]

namespace Follows

variable {m : Machine σ} {source : String} {related : List Char → σ → τ → Prop}
variable {front : List Char} {s s' : σ}

/-! What the run over the bytes does where the machine on characters makes a move. -/

theorem run_stay (h : Follows b m source related) (htext : source.toList = front ++ c :: cs)
    (hrelated : related front s t) (hstep : m.step s c cs = .stay s') :
    ∃ u, related front s' u ∧ b.run t (bytesOf front).length (bytesOf (c :: cs)) =
      b.run u (bytesOf front).length (bytesOf (c :: cs)) := by
  by_cases hc : Ascii c
  · obtain ⟨move, hmove, hsame⟩ := h.single htext hrelated hc
    rw [hstep] at hsame
    cases hsame with
    | @stay _ u next => exact ⟨u, next, by rw [bytesOf_cons hc, ByteMachine.run_stay hmove]⟩
  · have hover := h.longer htext hrelated hc
    rw [hstep] at hover
    cases hover with
    | @stay _ u next step =>
        obtain ⟨d, ds, hbytes, hd⟩ := exists_bytesOf_cons hc cs
        exact ⟨u, next, by rw [hbytes, ByteMachine.run_stay (step d ds hd)]⟩

theorem run_pass (h : Follows b m source related) (htext : source.toList = front ++ c :: cs)
    (hrelated : related front s t) (hstep : m.step s c cs = .pass n s') :
    ∃ word rest u, cs = word ++ rest ∧ word.length = n ∧ related (front ++ c :: word) s' u ∧
      b.run t (bytesOf front).length (bytesOf (c :: cs)) =
        b.run u (bytesOf (front ++ c :: word)).length (bytesOf rest) := by
  by_cases hc : Ascii c
  · obtain ⟨move, hmove, hsame⟩ := h.single htext hrelated hc
    rw [hstep] at hsame
    cases hsame with
    | @pass word rest _ u ahead ascii next =>
        refine ⟨word, rest, u, ahead, rfl, next, ?_⟩
        have hoffset : (bytesOf front).length + 1 + word.length =
            (bytesOf (front ++ c :: word)).length := by
          rw [length_bytesOf_word front (List.forall_mem_cons.2 ⟨hc, ascii⟩), List.length_cons]
          omega
        rw [bytesOf_cons hc, ByteMachine.run_pass hmove, hoffset, ahead, bytesOf_word ascii,
          List.drop_left]
  · have hover := h.longer htext hrelated hc
    rw [hstep] at hover
    cases hover with
    | pass next step =>
        refine ⟨[], cs, t, rfl, rfl, next, ?_⟩
        have hbytes : bytesOf (c :: cs) = bytesOf [c] ++ bytesOf cs := bytesOf_append [c] cs
        have hpassed : ∀ d ∈ bytesOf [c], ∀ offset ds, b.step t offset d ds = some (.pass 0 t) :=
          fun d hd offset ds => step offset d ds (not_ascii_of_mem_bytesOf hc hd)
        rw [hbytes, run_passed hpassed, bytesOf_append, List.length_append]

theorem run_accept {token : Token} (h : Follows b m source related)
    (htext : source.toList = front ++ c :: cs) (hrelated : related front s t)
    (hstep : m.step s c cs = .accept token n) :
    ∃ word rest, c :: cs = word ++ rest ∧ word.length = n ∧
      b.run t (bytesOf front).length (bytesOf (c :: cs)) =
        some (.found token (bytesOf (front ++ word)).length) := by
  by_cases hc : Ascii c
  · obtain ⟨move, hmove, hsame⟩ := h.single htext hrelated hc
    rw [hstep] at hsame
    cases hsame with
    | @accept word rest _ ahead ascii =>
        refine ⟨word, rest, ahead, rfl, ?_⟩
        rw [bytesOf_cons hc, ByteMachine.run_accept hmove, length_bytesOf_word front ascii]
  · have hover := h.longer htext hrelated hc
    rw [hstep] at hover
    cases hover

theorem run_stall {reason : Stall} (h : Follows b m source related)
    (htext : source.toList = front ++ c :: cs) (hrelated : related front s t)
    (hstep : m.step s c cs = .stall reason) :
    b.run t (bytesOf front).length (bytesOf (c :: cs)) =
      some (.stalled reason (bytesOf front).length) := by
  by_cases hc : Ascii c
  · obtain ⟨move, hmove, hsame⟩ := h.single htext hrelated hc
    rw [hstep] at hsame
    cases hsame with
    | stall => rw [bytesOf_cons hc, ByteMachine.run_stall hmove]
  · have hover := h.longer htext hrelated hc
    rw [hstep] at hover
    cases hover with
    | stall step =>
        obtain ⟨d, ds, hbytes, hd⟩ := exists_bytesOf_cons hc cs
        rw [hbytes, ByteMachine.run_stall (step d ds hd)]

/-- The run over the bytes has an outcome, which is that of the run over the characters. -/
theorem run_eq (h : Follows b m source related) (htext : source.toList = front ++ cs)
    (hrelated : related front s t) :
    b.run t (bytesOf front).length (bytesOf cs) =
      some ((m.run s cs).atOffset (bytesOf source.toList).length) := by
  fun_induction Machine.run m s cs generalizing front t with
  | case1 s => rw [Outcome.atOffset, offset_eq htext, bytesOf_nil, run]
  | case2 s c cs s' hstep ih =>
      obtain ⟨u, next, hrun⟩ := h.run_stay htext hrelated hstep
      rw [hrun]
      exact ih htext next
  | case3 s c cs n s' hstep ih =>
      obtain ⟨word, rest, u, rfl, rfl, next, hrun⟩ := h.run_pass htext hrelated hstep
      rw [List.drop_left] at ih ⊢
      rw [hrun]
      exact ih (by rw [htext, List.append_assoc, List.cons_append]) next
  | case4 s c cs token n hstep =>
      obtain ⟨word, rest, ahead, rfl, hrun⟩ := h.run_accept htext hrelated hstep
      rw [ahead, ← List.append_assoc] at htext
      rw [hrun, ahead, List.drop_left, Outcome.atOffset, offset_eq htext]
  | case5 s c cs reason hstep =>
      rw [h.run_stall htext hrelated hstep, Outcome.atOffset, offset_eq htext]

end Follows

end ByteMachine

end Stencil
