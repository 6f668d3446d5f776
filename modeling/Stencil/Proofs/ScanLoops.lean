import Mathlib
import Stencil.Proofs.Printing

/-!
# Loops of a scan

In most of its states a machine passes one character after the other as long as they are of one
class, and keeps the word that they make. The loop is left at the first character of another class
(`Machine.run_takeWhile`). A scan that finds a construct does not end in such a loop, so the word
stands in the text, with that character behind it. Names are words of this kind that one character
closes (`Machine.ReadsName`).
-/

namespace Stencil

theorem push_append_ofList (read : String) (c : Char) (cs : List Char) :
    read.push c ++ String.ofList cs = read ++ String.ofList (c :: cs) := by
  rw [← String.toList_inj]
  simp

/-- A text of blanks, which may be empty. -/
def Blanks (text : List Char) : Prop := ∀ c ∈ text, c ∈ blankCharacters

instance : DecidablePred Blanks := fun text =>
  List.decidableBAll (fun c => c ∈ blankCharacters) text

/-- Behind blanks comes what they stand before, so a blank or that character is ahead. -/
theorem Blanks.exists_head {blanks : List Char} (h : Blanks blanks) (c : Char) (cs : List Char) :
    ∃ d ds, blanks ++ c :: cs = d :: ds ∧ (isBlank d = true ∨ d = c) := by
  cases blanks with
  | nil => exact ⟨c, cs, rfl, .inr rfl⟩
  | cons d ds => exact ⟨d, ds ++ c :: cs, rfl, .inl (isBlank_iff.2 (h d List.mem_cons_self))⟩

namespace Machine

variable {σ : Type}

theorem run_chars (m : Machine σ) (state : String → σ) {chars : List Char}
    (hstep : ∀ read, ∀ c ∈ chars, ∀ cs, m.step (state read) c cs = .pass 0 (state (read.push c)))
    (read : String) (rest : List Char) :
    m.run (state read) (chars ++ rest) = m.run (state (read ++ String.ofList chars)) rest := by
  induction chars generalizing read with
  | nil => simp
  | cons c cs ih =>
      have hfirst := hstep read c List.mem_cons_self (cs ++ rest)
      have hrest := ih fun read d hd => hstep read d (List.mem_cons_of_mem c hd)
      rw [List.cons_append, m.run_pass hfirst, List.drop_zero, hrest, push_append_ofList]

/-- A state that takes each character of a word into what it has read reads the whole word. -/
theorem run_word (m : Machine σ) (state : String → σ) {word : String}
    (hstep : ∀ read, ∀ c ∈ word.toList, ∀ cs,
      m.step (state read) c cs = .pass 0 (state (read.push c)))
    (rest : List Char) : m.run (state "") (word.toList ++ rest) = m.run (state word) rest := by
  have hchars := m.run_chars state hstep "" rest
  rw [String.empty_append, String.ofList_toList] at hchars
  exact hchars

variable {m : Machine σ} {p : Char → Bool} {token : Token} {cs rest : List Char}

/-- A state that passes the characters of a class passes the longest word of them. -/
theorem run_takeWhile {state : String → σ}
    (hstep : ∀ read c cs, p c = true → m.step (state read) c cs = .pass 0 (state (read.push c)))
    (read : String) (cs : List Char) :
    m.run (state read) cs =
      m.run (state (read ++ String.ofList (cs.takeWhile p))) (cs.dropWhile p) := by
  have hword : ∀ read, ∀ c ∈ cs.takeWhile p, ∀ ds,
      m.step (state read) c ds = .pass 0 (state (read.push c)) := by
    intro read c hc ds
    exact hstep read c ds (List.mem_takeWhile_imp hc)
  rw [← m.run_chars state hword, List.takeWhile_append_dropWhile]

/-- The word that a scan has read where it leaves a loop and still finds a construct. -/
theorem run_loop_found {state : String → σ}
    (hstep : ∀ read c cs, p c = true → m.step (state read) c cs = .pass 0 (state (read.push c)))
    (h : m.run (state "") cs = .found token rest) :
    ∃ word c ds, cs = word.toList ++ c :: ds ∧ (∀ d ∈ word.toList, p d = true) ∧ p c = false ∧
      m.run (state word) (c :: ds) = .found token rest := by
  rw [run_takeWhile hstep, String.empty_append] at h
  cases hrest : cs.dropWhile p with
  | nil =>
      rw [hrest, run] at h
      cases h
  | cons c ds =>
      rw [hrest] at h
      refine ⟨String.ofList (cs.takeWhile p), c, ds, ?_, ?_, ?_, h⟩
      · rw [String.toList_ofList, ← hrest, List.takeWhile_append_dropWhile]
      · intro d hd
        rw [String.toList_ofList] at hd
        exact List.mem_takeWhile_imp hd
      · have hhead := List.head_dropWhile_not p (by rw [hrest]; exact List.cons_ne_nil c ds)
        simpa [hrest] using hhead

/-- A word is not empty if the first character ahead is of its class. -/
theorem word_ne_empty {word : String} {c d : Char} {ds : List Char} (hc : p c = true)
    (hd : p d = false) (htext : c :: cs = word.toList ++ d :: ds) : word ≠ "" := by
  rintro rfl
  cases htext
  rw [hc] at hd
  cases hd

variable {s : σ} (hskip : ∀ c cs, isBlank c = true → m.step s c cs = .pass 0 s)
include hskip

theorem run_blanks {blanks : List Char} (h : Blanks blanks) (cs : List Char) :
    m.run s (blanks ++ cs) = m.run s cs :=
  m.run_chars (fun _ => s) (fun _ c hc cs => hskip c cs (isBlank_iff.2 (h c hc))) "" cs

theorem run_blanks_found (h : m.run s cs = .found token rest) :
    ∃ blanks c ds, cs = blanks ++ c :: ds ∧ Blanks blanks ∧ isBlank c = false ∧
      m.run s (c :: ds) = .found token rest := by
  obtain ⟨blanks, c, ds, htext, hblanks, hc, hrun⟩ :=
    @run_loop_found _ _ _ _ _ _ (fun _ => s) (fun _ => hskip) h
  exact ⟨blanks.toList, c, ds, htext, fun d hd => isBlank_iff.1 (hblanks d hd), hc, hrun⟩

end Machine

/-- A machine reads a name that holds none of the characters `stops` up to the character `close`, and
gives up at any other of them and where the name is empty. -/
structure Machine.ReadsName {σ : Type} (m : Machine σ) (stops : List Char) (close : Char)
    (state next : String → σ) : Prop where
  step_pass : ∀ read, ∀ c ∉ stops, ∀ cs, m.step (state read) c cs = .pass 0 (state (read.push c))
  step_close : ∀ name cs, name ≠ "" → m.step (state name) close cs = .pass 0 (next name)
  step_stall : ∀ name, ∀ c ∈ stops, ∀ cs, (c = close → name = "") →
    ∃ reason, m.step (state name) c cs = .stall reason

namespace Machine.ReadsName

variable {σ : Type} {m : Machine σ} {stops : List Char} {close : Char} {state next : String → σ}
  (h : m.ReadsName stops close state next)
include h

theorem run {name : String} (hname : Avoids stops name) (rest : List Char) :
    m.run (state "") (name.toList ++ close :: rest) = m.run (next name) rest := by
  have hword := m.run_word state (fun read c hc => h.step_pass read c (hname.2 c hc))
    (close :: rest)
  rw [hword, m.run_pass (h.step_close name rest hname.1), List.drop_zero]

theorem found {token : Token} {cs rest : List Char}
    (hrun : m.run (state "") cs = .found token rest) :
    ∃ name after, Avoids stops name ∧ cs = name.toList ++ close :: after ∧
      m.run (next name) after = .found token rest := by
  have hpass : ∀ read c cs, decide (c ∉ stops) = true →
      m.step (state read) c cs = .pass 0 (state (read.push c)) := by
    intro read c cs hc
    exact h.step_pass read c (of_decide_eq_true hc) cs
  obtain ⟨name, c, after, htext, hname, hc, hend⟩ := run_loop_found hpass hrun
  by_cases hclose : c = close → name = ""
  · obtain ⟨reason, hstall⟩ := h.step_stall name c (by simpa using hc) after hclose
    rw [m.run_stall hstall] at hend
    cases hend
  · obtain ⟨rfl, hne⟩ := Classical.not_imp.1 hclose
    rw [m.run_pass (h.step_close name after hne), List.drop_zero] at hend
    refine ⟨name, after, ⟨hne, ?_⟩, htext, hend⟩
    intro d hd
    exact of_decide_eq_true (hname d hd)

end Machine.ReadsName

end Stencil
