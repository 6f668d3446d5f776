import Mathlib.Algebra.Order.BigOperators.Group.Finset
import Mathlib.Order.Interval.Finset.Nat
import Stencil.Proofs.ByteTagScanner

/-!
# Rounds of a scan

A scan is a loop over the bytes of a source. A round may stay at a byte, in another state. The order
of the states alone allows for more rounds there than are ever made: the blank behind an argument is
looked at as its end, but never as the first byte of a key. So the rounds at one byte are bounded by
a level of the state that depends on the byte at hand and falls where the scan stays
(`ByteMachine.Levelled`). With so many rounds at each byte, and a single one at the end of the
source, a scan ends after a number of rounds that is linear in the bytes ahead (`Paced.length_le`).
-/

namespace Stencil

/-- The offsets at which a loop over a source of `size` bytes makes its rounds: from `first` on,
never back, at most `n` of them at one offset, and at most one at the end of the source. -/
structure Paced (n first size : Nat) (offsets : List Nat) : Prop where
  forward : offsets.Pairwise (· ≤ ·)
  between : ∀ i ∈ offsets, first ≤ i ∧ i ≤ size
  count_le : ∀ i, offsets.count i ≤ n
  count_end_le : offsets.count size ≤ 1

namespace Paced

variable {n first next size : Nat} {offsets : List Nat}

theorem singleton (positive : 0 < n) (h : first ≤ size) : Paced n first size [first] where
  forward := List.pairwise_singleton _ first
  between i hi := by
    rw [List.mem_singleton.1 hi]
    exact ⟨Nat.le_refl first, h⟩
  count_le i := Nat.le_trans List.count_le_length positive
  count_end_le := List.count_le_length

/-- One more round before others. -/
theorem cons (h : Paced n next size offsets) (hnext : first ≤ next) (hfirst : first < size)
    (hcount : offsets.count first < n) : Paced n first size (first :: offsets) where
  forward := by
    refine List.pairwise_cons.2 ⟨?_, h.forward⟩
    intro i hi
    exact Nat.le_trans hnext (h.between i hi).1
  between i hi := by
    obtain rfl | hi := List.mem_cons.1 hi
    · exact ⟨Nat.le_refl i, Nat.le_of_lt hfirst⟩
    · exact ⟨Nat.le_trans hnext (h.between i hi).1, (h.between i hi).2⟩
  count_le i := by
    by_cases heq : first = i
    · subst heq
      rw [List.count_cons_self]
      exact hcount
    · rw [List.count_cons_of_ne heq]
      exact h.count_le i
  count_end_le := by
    rw [List.count_cons_of_ne (Nat.ne_of_lt hfirst)]
    exact h.count_end_le

theorem count_eq_zero (h : Paced n next size offsets) (hlt : first < next) :
    offsets.count first = 0 := by
  rw [List.count_eq_zero]
  intro hmem
  exact Nat.not_le_of_lt hlt (h.between first hmem).1

/-- All rounds are `n` for each byte ahead, and one at the end. -/
theorem length_le (h : Paced n first size offsets) : offsets.length ≤ n * (size - first) + 1 := by
  have hmem : ∀ i ∈ (offsets : Multiset Nat), i ∈ insert size (Finset.Ico first size) := by
    intro i hi
    have hi := h.between i (Multiset.mem_coe.1 hi)
    rw [Finset.mem_insert, Finset.mem_Ico]
    omega
  have hbytes : ∑ i ∈ Finset.Ico first size, offsets.count i ≤ (size - first) * n := by
    have hsum := Finset.sum_le_card_nsmul (Finset.Ico first size) (fun i => offsets.count i) n
      fun i _ => h.count_le i
    rwa [Nat.card_Ico, smul_eq_mul] at hsum
  have hall := Multiset.sum_count_eq_card hmem
  simp only [Multiset.coe_count, Multiset.coe_card] at hall
  calc offsets.length
      = ∑ i ∈ insert size (Finset.Ico first size), offsets.count i := hall.symm
    _ = offsets.count size + ∑ i ∈ Finset.Ico first size, offsets.count i :=
        Finset.sum_insert Finset.right_notMem_Ico
    _ ≤ 1 + (size - first) * n := Nat.add_le_add h.count_end_le hbytes
    _ = n * (size - first) + 1 := by rw [Nat.add_comm, Nat.mul_comm]

end Paced

namespace ByteMachine

variable {τ : Type}

/-- The rounds of a run from an offset: the offsets at which they are made, and how the run ends. -/
inductive Rounds (b : ByteMachine τ) (bytes : List Char) :
    τ → Nat → List Nat → ByteOutcome → Prop
  | finish {t i} (ahead : bytes.drop i = []) :
      Rounds b bytes t i [i] (.stalled .endOfInput i)
  | stay {t u i c cs offsets outcome} (ahead : bytes.drop i = c :: cs)
      (step : b.step t i c cs = some (.stay u)) (later : Rounds b bytes u i offsets outcome) :
      Rounds b bytes t i (i :: offsets) outcome
  | pass {t u i c cs more offsets outcome} (ahead : bytes.drop i = c :: cs)
      (step : b.step t i c cs = some (.pass more u))
      (later : Rounds b bytes u (i + 1 + more) offsets outcome) :
      Rounds b bytes t i (i :: offsets) outcome
  | accept {t i c cs token used} (ahead : bytes.drop i = c :: cs)
      (step : b.step t i c cs = some (.accept token used)) :
      Rounds b bytes t i [i] (.found token (i + used))
  | stall {t i c cs reason} (ahead : bytes.drop i = c :: cs)
      (step : b.step t i c cs = some (.stall reason)) :
      Rounds b bytes t i [i] (.stalled reason i)

variable {b : ByteMachine τ} {t : τ} {i : Nat} {bytes rest : List Char} {offsets : List Nat}
variable {outcome : ByteOutcome}

theorem length_of_drop {c : Char} {cs : List Char} (ahead : bytes.drop i = c :: cs) :
    bytes.length = i + 1 + cs.length := by
  have hlength := congrArg List.length ahead
  rw [List.length_drop, List.length_cons] at hlength
  omega

/-- A run with an outcome makes its rounds, and ends in that outcome. -/
theorem exists_rounds (ahead : bytes.drop i = rest) (h : b.run t i rest = some outcome) :
    ∃ offsets, b.Rounds bytes t i offsets outcome := by
  fun_induction run b t i rest with
  | case1 t i =>
      cases h
      exact ⟨[i], .finish ahead⟩
  | case2 t i c cs step => cases h
  | case3 t i c cs u step ih =>
      obtain ⟨offsets, later⟩ := ih ahead h
      exact ⟨i :: offsets, .stay ahead step later⟩
  | case4 t i c cs more u step ih =>
      have hbehind : bytes.drop (i + 1 + more) = cs.drop more := by
        rw [← List.drop_drop, ← List.drop_drop, ahead, List.drop_succ_cons, List.drop_zero]
      obtain ⟨offsets, later⟩ := ih hbehind h
      exact ⟨i :: offsets, .pass ahead step later⟩
  | case5 t i c cs token used step =>
      cases h
      exact ⟨[i], .accept ahead step⟩
  | case6 t i c cs reason step =>
      cases h
      exact ⟨[i], .stall ahead step⟩

theorem Rounds.le_of_mem (h : b.Rounds bytes t i offsets outcome) : ∀ j ∈ offsets, i ≤ j := by
  induction h with
  | stay ahead step later ih => exact List.forall_mem_cons.2 ⟨Nat.le_refl _, ih⟩
  | pass ahead step later ih =>
      refine List.forall_mem_cons.2 ⟨Nat.le_refl _, ?_⟩
      intro j hj
      exact Nat.le_trans (by omega) (ih j hj)
  | _ => exact List.forall_mem_singleton.2 (Nat.le_refl _)

/-- A move at a byte that leads to a lower level where it stays, and uses up no more bytes than
there are. -/
def Settles (level : τ → Nat → Char → Nat) (t : τ) (i : Nat) (c : Char) (cs : List Char) :
    Move τ → Prop
  | .stay u => level u i c < level t i c
  | .pass more _ => more ≤ cs.length
  | .accept _ used => used ≤ cs.length + 1
  | .stall _ => True

/-- The states of a machine have levels below `n`, which depend on the offset and the byte at hand,
and all its moves settle. -/
structure Levelled (b : ByteMachine τ) (n : Nat) (level : τ → Nat → Char → Nat) : Prop where
  lt : ∀ t i c, level t i c < n
  settles : ∀ {t i c cs move}, b.step t i c cs = some move → Settles level t i c cs move

namespace Levelled

variable {n : Nat} {level : τ → Nat → Char → Nat} {c : Char} {cs : List Char}

/-- From a state at most so many more rounds are made at a byte as the level of the state there. -/
theorem count_le (h : b.Levelled n level) (rounds : b.Rounds bytes t i offsets outcome)
    (ahead : bytes.drop i = c :: cs) : offsets.count i ≤ level t i c + 1 := by
  induction rounds with
  | finish hnil =>
      rw [ahead] at hnil
      cases hnil
  | @stay t u i _ _ offsets outcome hcons step later ih =>
      rw [ahead] at hcons
      cases hcons
      have hfalls : level u i c < level t i c := h.settles step
      have hlater := ih ahead
      rw [List.count_cons_self]
      omega
  | @pass t u i c cs more offsets outcome hcons step later ih =>
      -- a byte that is passed is not looked at again
      have hbehind : i ∉ offsets := by
        intro hmem
        have hle := later.le_of_mem i hmem
        omega
      rw [List.count_cons_self, List.count_eq_zero.2 hbehind]
      exact Nat.le_add_left 1 _
  | accept | stall =>
      rw [List.count_singleton_self]
      exact Nat.le_add_left 1 _

theorem paced (h : b.Levelled n level) (rounds : b.Rounds bytes t i offsets outcome)
    (within : i ≤ bytes.length) : Paced n i bytes.length offsets := by
  have positive : 0 < n := Nat.zero_lt_of_lt (h.lt t 0 ' ')
  induction rounds with
  | @stay t u i c cs offsets outcome ahead step later ih =>
      have hlength := length_of_drop ahead
      have hcount := h.count_le later ahead
      have hfalls : level u i c < level t i c := h.settles step
      have hbound := h.lt t i c
      exact (ih within).cons (Nat.le_refl i) (by omega) (by omega)
  | @pass t u i c cs more offsets outcome ahead step later ih =>
      have hlength := length_of_drop ahead
      have hmore : more ≤ cs.length := h.settles step
      have hlater := ih (by omega)
      have hcount : offsets.count i = 0 := hlater.count_eq_zero (by omega)
      exact hlater.cons (by omega) (by omega) (hcount ▸ positive)
  | _ => exact .singleton positive within

/-- A run ends within the bytes. -/
theorem stop_le (h : b.Levelled n level) (rounds : b.Rounds bytes t i offsets outcome)
    (within : i ≤ bytes.length) : outcome.stop ≤ bytes.length := by
  induction rounds with
  | stay ahead step later ih => exact ih within
  | @pass t u i c cs more offsets outcome ahead step later ih =>
      have hlength := length_of_drop ahead
      have hmore : more ≤ cs.length := h.settles step
      exact ih (by omega)
  | @accept t i c cs token used ahead step =>
      have hlength := length_of_drop ahead
      have hused : used ≤ cs.length + 1 := h.settles step
      rw [ByteOutcome.stop]
      omega
  | _ => exact within

/-- A run that is begun behind a word ahead keeps pace and ends within the bytes. -/
theorem exists_rounds_behind (h : b.Levelled n level) (word : List Char) (nonempty : word ≠ [])
    (ahead : bytes.drop i = word ++ rest) (hrun : b.run t (i + word.length) rest = some outcome) :
    outcome.stop ≤ bytes.length ∧ ∃ offsets, b.Rounds bytes t (i + word.length) offsets outcome ∧
      Paced n (i + word.length) bytes.length offsets := by
  have hbehind : bytes.drop (i + word.length) = rest := by
    rw [← List.drop_drop, ahead, List.drop_left]
  have hlength := congrArg List.length ahead
  rw [List.length_drop, List.length_append] at hlength
  have hpos := List.length_pos_iff.2 nonempty
  have within : i + word.length ≤ bytes.length := by omega
  obtain ⟨offsets, rounds⟩ := exists_rounds hbehind hrun
  exact ⟨h.stop_le rounds within, offsets, rounds, h.paced rounds within⟩

end Levelled

end ByteMachine

namespace Placeholder

/-- What the scan does at a byte. It stays at the first byte of a name or a type, at the blank
behind a name, and at the byte behind the letters of a type. -/
inductive Marks.Moves (i : Nat) (c : Char) : Marks → Move Marks → Prop
  | beforeName (word : isBlank c = false) : Moves i c .beforeName (.stay (.name i))
  | name {start} (blank : isBlank c = true) :
      Moves i c (.name start) (.stay (.afterName start i))
  | beforeType {start stop} (word : isBlank c = false) :
      Moves i c (.beforeType start stop) (.stay (.type start stop i))
  | type {start stop typeStart type} (behind : isLetter c = false) (nonempty : i ≠ typeStart) :
      Moves i c (.type start stop typeStart) (.stay (.afterType start stop type))
  | pass {t u} : Moves i c t (.pass 0 u)
  | accept {t token} : Moves i c t (.accept token 1)
  | stall {t reason} : Moves i c t (.stall reason)

variable {source : String} {t : Marks} {i start : Nat} {c : Char} {cs : List Char}

/-- No type is the empty word. -/
theorem ne_start_of_type {word : String} {type : PropType}
    (cut : slice? source start i = some word) (h : PropType.ofKeyword? word = some type) :
    i ≠ start := by
  rintro rfl
  have noType : PropType.ofKeyword? "" = none := by decide
  rw [slice?_self cut, noType] at h
  cases h

theorem moves_of_byteStep {move : Move Marks} (h : byteStep source t i c cs = some move) :
    Marks.Moves i c t move := by
  cases t <;> simp only [byteStep] at h <;> (repeat' split at h)
  all_goals
    try (rw [Option.map_eq_some_iff] at h; obtain ⟨_, _, h⟩ := h)
    (repeat' split at h) <;> cases h
  all_goals try exact .pass
  all_goals try exact .accept
  all_goals try exact .stall
  -- the moves that are left stay
  · exact .beforeName (Bool.eq_false_iff.2 ‹_›)
  · exact .name ‹_›
  · exact .beforeType (Bool.eq_false_iff.2 ‹_›)
  · exact .type (Bool.eq_false_iff.2 ‹_›) (ne_start_of_type ‹_› ‹_›)

/-- The rounds that can follow at a byte. Where a name begins there is no blank to end it. -/
def Marks.level : Marks → Nat → Char → Nat
  | beforeName, _, _ => 1
  | name _, _, c => if isBlank c then 1 else 0
  | afterName _ _, _, _ => 0
  | beforeType _ _, _, _ => 1
  | type _ _ typeStart, i, _ => if i = typeStart then 0 else 1
  | afterType _ _ _, _, _ => 0

theorem levelled (source : String) : (byteMachine source).Levelled 2 Marks.level where
  lt t i c := by cases t <;> simp only [Marks.level] <;> (try split) <;> decide
  settles h := by
    cases moves_of_byteStep h with
    | beforeName word => simp [ByteMachine.Settles, Marks.level, word]
    | name blank => simp [ByteMachine.Settles, Marks.level, blank]
    | beforeType word => simp [ByteMachine.Settles, Marks.level]
    | type behind nonempty => simp [ByteMachine.Settles, Marks.level, nonempty]
    | pass => exact Nat.zero_le _
    | accept => exact Nat.le_add_left 1 _
    | stall => trivial

end Placeholder

namespace Shorthand

/-- The scan never stays. -/
theorem levelled (source : String) : (byteMachine source).Levelled 1 fun _ _ _ => 0 where
  lt t i c := Nat.zero_lt_one
  settles {t i c cs move} h := by
    simp only [byteMachine, byteStep] at h
    (repeat' split at h)
    · cases h
      exact Nat.zero_le _
    · obtain ⟨name, _, rfl⟩ := Option.map_eq_some_iff.1 h
      exact Nat.zero_le _
    · cases h
      trivial

end Shorthand

namespace InclusionTag

/-- What the scan does at a byte. It stays at the byte behind an attribute or an argument, which is
looked at again as what stands before the next one, and at the first byte of an attribute or a key.
More bytes than one are passed where they are those of a word ahead. -/
inductive Marks.Moves (i : Nat) (c : Char) (cs : List Char) : Marks → Move Marks → Prop
  | beforeAttribute {head} (word : isBlank c = false) :
      Moves i c cs (.beforeAttribute head) (.stay (.attribute head))
  | afterAttribute {head} (blank : isBlank c = true) :
      Moves i c cs (.afterAttribute head) (.stay (.beforeAttribute head))
  | relay {inclusion start next} (behind : isIdent c = false) :
      Moves i c cs (.relay inclusion start) (.stay (.afterArgument next))
  | afterArgument {inclusion} (ends : (isBlank c || c == '/') = true) :
      Moves i c cs (.afterArgument inclusion) (.stay (.argumentOrEnd inclusion))
  | argumentOrEnd {inclusion} (word : isIdent c = true) :
      Moves i c cs (.argumentOrEnd inclusion) (.stay (.key inclusion i))
  | pass {t u} : Moves i c cs t (.pass 0 u)
  | passWord {t u} (word : List Char) (ahead : word <+: cs) : Moves i c cs t (.pass word.length u)
  | accept {t token} (ahead : ['>'] <+: cs) : Moves i c cs t (.accept token 2)
  | stall {t reason} : Moves i c cs t (.stall reason)

variable {wrap : Inclusion → Token} {source : String} {t : Marks} {i : Nat} {c : Char}
variable {cs : List Char}

theorem prefix_of_head? {d : Char} (h : (cs.head? == some d) = true) : [d] <+: cs := by
  obtain ⟨ds, rfl⟩ := List.head?_eq_some_iff.1 (beq_iff_eq.1 h)
  exact List.prefix_append [d] ds

theorem prefix_tail {d : Char} {word : List Char} (h : (d :: word).isPrefixOf (c :: cs) = true) :
    word <+: cs :=
  (List.cons_prefix_cons.1 (List.isPrefixOf_iff_prefix.1 h)).2

theorem moves_of_byteStep {move : Move Marks} (h : byteStep wrap source t i c cs = some move) :
    Marks.Moves i c cs t move := by
  cases t <;> simp only [byteStep] at h <;> (repeat' split at h)
  all_goals
    try (rw [Option.map_eq_some_iff] at h; obtain ⟨_, _, h⟩ := h)
    (repeat' split at h) <;> cases h
  all_goals try exact .pass
  all_goals try exact .stall
  -- the moves that are left stay, or look beyond the byte at hand
  · exact .beforeAttribute (Bool.eq_false_iff.2 ‹_›)
  · exact .passWord ['a', 'm', 'e', '=', '"'] (prefix_tail ‹nameOpening.isPrefixOf _ = true›)
  · exact .passWord ['d', '=', '"'] (prefix_tail ‹idOpening.isPrefixOf _ = true›)
  · exact .afterAttribute ‹_›
  · exact .afterArgument ‹_›
  · exact .accept (prefix_of_head? ‹_›)
  · exact .passWord ['*'] (prefix_of_head? ‹_›)
  · exact .argumentOrEnd ‹_›
  · exact .relay (Bool.eq_false_iff.2 ‹_›)
  · exact .passWord ['"'] (prefix_of_head? (Bool.and_eq_true_iff.1 ‹_›).2)
  · exact .passWord ['$', '\x7b']
      (List.isPrefixOf_iff_prefix.1 (Bool.and_eq_true_iff.1 ‹_›).2)
  · exact .passWord ['\x7b'] (prefix_of_head? (Bool.and_eq_true_iff.1 ‹_›).2)

/-- The rounds that can follow at a byte. Neither a blank nor a slash begins an attribute or a
key. -/
def Marks.level : Marks → Nat → Char → Nat
  | .beforeAttribute _, _, c => if isBlank c then 0 else 1
  | .afterAttribute _, _, _ => 1
  | .relay _ _, _, _ => 2
  | .afterArgument _, _, _ => 1
  | .argumentOrEnd _, _, c => if isIdent c then 1 else 0
  | _, _, _ => 0

theorem isIdent_of_ends (h : (isBlank c || c == '/') = true) : isIdent c = false := by
  simp only [isBlank, Bool.or_eq_true, beq_iff_eq] at h
  obtain (((rfl | rfl) | rfl) | rfl) | rfl := h <;> decide

theorem levelled (wrap : Inclusion → Token) (source : String) :
    (byteMachine wrap source).Levelled 3 Marks.level where
  lt t i c := by cases t <;> simp only [Marks.level] <;> (try split) <;> decide
  settles h := by
    cases moves_of_byteStep h with
    | beforeAttribute word => simp [ByteMachine.Settles, Marks.level, word]
    | afterAttribute blank => simp [ByteMachine.Settles, Marks.level, blank]
    | relay behind => simp [ByteMachine.Settles, Marks.level]
    | afterArgument ends => simp [ByteMachine.Settles, Marks.level, isIdent_of_ends ends]
    | argumentOrEnd word => simp [ByteMachine.Settles, Marks.level, word]
    | pass => exact Nat.zero_le _
    | passWord word ahead => exact ahead.length_le
    | accept ahead => exact Nat.succ_le_succ ahead.length_le
    | stall => trivial

end InclusionTag

end Stencil
