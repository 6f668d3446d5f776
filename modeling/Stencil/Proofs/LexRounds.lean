import Stencil.Proofs.ByteLexing
import Stencil.Proofs.ScanRounds

/-!
# Rounds of lexing

A round of lexing goes on behind the offset it was at, also where a construct is given up there, and
never beyond the end of the source. The scans that it begins end as well (`loops_end`).
-/

namespace Stencil.ByteLexer

/-- The bytes of the opening behind which the scan of a construct begins. -/
def openingSize : Construct → Nat
  | .prop => 2
  | .attribute => 1
  | .single => 4
  | .repeated => 8

/-- The most rounds that the scan of a construct makes at one byte. -/
def roundsPerByte : Construct → Nat
  | .prop => 2
  | .attribute => 1
  | .single => 3
  | .repeated => 3

/-- The rounds of the scan that is begun for a construct which opens at an offset. -/
def ScanRounds (source : String) (i : Nat) : Construct → List Nat → ByteOutcome → Prop
  | .prop =>
      (Placeholder.byteMachine source).Rounds (bytesOf source.toList) .beforeName
        (i + openingSize .prop)
  | .attribute =>
      (Shorthand.byteMachine source).Rounds (bytesOf source.toList) (i + openingSize .attribute)
        (i + openingSize .attribute)
  | .single =>
      (InclusionTag.byteMachine .single source).Rounds (bytesOf source.toList)
        (.beforeAttribute .nothing) (i + openingSize .single)
  | .repeated =>
      (InclusionTag.byteMachine .repeated source).Rounds (bytesOf source.toList)
        (.beforeAttribute .nothing) (i + openingSize .repeated)

/-- The rounds of lexing from an offset: the state and the offset of each, and the last state. -/
inductive Rounds (source : String) : State → Nat → List (State × Nat) → State → Prop
  | finish {s i} (ahead : (bytesOf source.toList).drop i = []) : Rounds source s i [(s, i)] s
  | step {s t i next c cs places final} (ahead : (bytesOf source.toList).drop i = c :: cs)
      (goes : ByteLexer.step source s ((bytesOf source.toList).take i).getLast? i c cs =
        some (t, next))
      (later : Rounds source t next places final) : Rounds source s i ((s, i) :: places) final

variable {source : String} {s t final : State} {i next : Nat} {c : Char} {cs text : List Char}
variable {kind : Construct} {before : Option Char} {places : List (State × Nat)}
variable {outcome : ByteOutcome}

theorem exists_rounds (h : loop source (bytesOf source.toList) s i = some final) :
    ∃ places, Rounds source s i places final := by
  fun_induction loop source (bytesOf source.toList) s i with
  | case1 s i ahead =>
      obtain rfl := Option.some.inj h
      exact ⟨[(s, i)], .finish ahead⟩
  | case2 s i c cs ahead goes => cases h
  | case3 s i c cs ahead t next goes ih =>
      obtain ⟨places, later⟩ := ih h
      exact ⟨(s, i) :: places, .step ahead goes later⟩

/-- What opens at an offset is scanned within the bounds for its kind. -/
theorem scan_of_opening (ahead : (bytesOf source.toList).drop i = text)
    (h : opening? source s before i text = some (kind, some outcome)) :
    outcome.stop ≤ (bytesOf source.toList).length ∧
      ∃ offsets, ScanRounds source i kind offsets outcome ∧
        Paced (roundsPerByte kind) (i + openingSize kind) (bytesOf source.toList).length
          offsets := by
  obtain ⟨cs, rfl, rfl, hscan⟩ | ⟨c, cs, rfl, _, _, _, _, rfl, hscan⟩ |
    ⟨c, cs, rfl, _, rfl, hscan⟩ | ⟨c, cs, rfl, _, rfl, hscan⟩ := opening?_cases h
  · exact (Placeholder.levelled source).exists_rounds_behind ['$', '\x7b']
      (List.cons_ne_nil _ _) ahead hscan.symm
  · exact (Shorthand.levelled source).exists_rounds_behind ['$'] (List.cons_ne_nil _ _) ahead
      hscan.symm
  · exact (InclusionTag.levelled .repeated source).exists_rounds_behind
      ['<', 'e', 'z', '-', 'f', 'o', 'r', c] (List.cons_ne_nil _ _) ahead hscan.symm
  · exact (InclusionTag.levelled .single source).exists_rounds_behind ['<', 'e', 'z', c]
      (List.cons_ne_nil _ _) ahead hscan.symm

theorem le_of_commit {start size : Nat} (hstart : start < size) (hstop : outcome.stop ≤ size)
    (h : commit source s start kind outcome = some (t, next)) : next ≤ size := by
  cases outcome with
  | found token stop =>
      obtain ⟨_, _, hnext⟩ := Option.map_eq_some_iff.1 h
      obtain ⟨_, rfl⟩ := Prod.mk.inj hnext
      exact hstop
  | stalled reason stop =>
      obtain ⟨_, _, hnext⟩ := Option.map_eq_some_iff.1 h
      obtain ⟨_, rfl⟩ := Prod.mk.inj hnext
      exact Nat.max_le.2 ⟨hstop, hstart⟩

/-- Lexing goes on within the source, also behind a construct that was given up. -/
theorem le_of_step (ahead : (bytesOf source.toList).drop i = c :: cs)
    (h : step source s before i c cs = some (t, next)) :
    next ≤ (bytesOf source.toList).length := by
  have hlength := ByteMachine.length_of_drop ahead
  unfold step at h
  split at h
  · obtain ⟨_, _, hnext⟩ := Option.map_eq_some_iff.1 h
    obtain ⟨_, rfl⟩ := Prod.mk.inj hnext
    rw [List.length_cons, List.length_cons] at hlength
    omega
  · obtain ⟨_, _, hnext⟩ := Option.map_eq_some_iff.1 h
    obtain ⟨_, rfl⟩ := Prod.mk.inj hnext
    rw [List.length_cons] at hlength
    omega
  · split at h
    case h_1 kind scanned hopen =>
      obtain ⟨outcome, rfl, hcommit⟩ := Option.bind_eq_some_iff.1 h
      exact le_of_commit (by omega) (scan_of_opening ahead hopen).1 hcommit
    case h_2 =>
      obtain ⟨_, rfl⟩ := Prod.mk.inj (Option.some.inj h)
      omega

namespace Rounds

theorem mem_start (h : Rounds source s i places final) : (s, i) ∈ places := by
  cases h <;> exact List.mem_cons_self

theorem le_of_mem (h : Rounds source s i places final) : ∀ place ∈ places, i ≤ place.2 := by
  induction h with
  | finish ahead => exact List.forall_mem_singleton.2 (Nat.le_refl _)
  | step ahead goes later ih =>
      refine List.forall_mem_cons.2 ⟨Nat.le_refl _, ?_⟩
      intro place hplace
      exact Nat.le_trans (Nat.le_of_lt (lt_of_step goes)) (ih place hplace)

/-- Each round is made behind the one before. -/
theorem ascending (h : Rounds source s i places final) :
    (places.map Prod.snd).Pairwise (· < ·) := by
  induction h with
  | finish ahead => exact List.pairwise_singleton _ _
  | step ahead goes later ih =>
      rw [List.map_cons, List.pairwise_cons]
      refine ⟨?_, ih⟩
      intro j hj
      obtain ⟨place, hplace, rfl⟩ := List.mem_map.1 hj
      exact Nat.lt_of_lt_of_le (lt_of_step goes) (later.le_of_mem place hplace)

theorem le_length (h : Rounds source s i places final)
    (within : i ≤ (bytesOf source.toList).length) :
    ∀ place ∈ places, place.2 ≤ (bytesOf source.toList).length := by
  induction h with
  | finish ahead => exact List.forall_mem_singleton.2 within
  | step ahead goes later ih =>
      exact List.forall_mem_cons.2 ⟨within, ih (le_of_step ahead goes)⟩

/-- No round fails. -/
theorem exists_step (h : Rounds source s i places final) {place : State × Nat}
    (hplace : place ∈ places) (ahead : (bytesOf source.toList).drop place.2 = c :: cs) :
    ∃ t next, ByteLexer.step source place.1 ((bytesOf source.toList).take place.2).getLast?
      place.2 c cs = some (t, next) := by
  induction h with
  | finish hnil =>
      obtain rfl := List.mem_singleton.1 hplace
      rw [hnil] at ahead
      cases ahead
  | @step s t i next _ _ places final hcons goes later ih =>
      obtain rfl | hplace := List.mem_cons.1 hplace
      · rw [hcons] at ahead
        cases ahead
        exact ⟨t, next, goes⟩
      · exact ih hplace

end Rounds

/-- Lexing ends with the lexed source, and each of its rounds goes on behind the last, but not
beyond the end of the source. Each scan that it begins ends as well, with no more than two rounds at
a byte for a placeholder and three for an inclusion tag. -/
theorem loops_end (source : String) :
    ∃ places final, Rounds source .start 0 places final ∧
      finish source source.utf8ByteSize final = some (Stencil.lex source) ∧
      (places.map Prod.snd).Pairwise (· < ·) ∧
      (∀ place ∈ places, place.2 ≤ source.utf8ByteSize) ∧
      ∀ s i, (s, i) ∈ places → ∀ kind scanned,
        opening? source s ((bytesOf source.toList).take i).getLast? i
            ((bytesOf source.toList).drop i) = some (kind, scanned) →
          ∃ offsets outcome, scanned = some outcome ∧
            ScanRounds source i kind offsets outcome ∧
            Paced (roundsPerByte kind) (i + openingSize kind) source.utf8ByteSize offsets ∧
            offsets.length ≤
              roundsPerByte kind * (source.utf8ByteSize - (i + openingSize kind)) + 1 := by
  have hsize := length_bytesOf_toList source
  have hlex := lex_eq source
  rw [lex, ← bytesOf_toList, hsize] at hlex
  obtain ⟨final, hloop, hfinish⟩ := Option.bind_eq_some_iff.1 hlex
  obtain ⟨places, rounds⟩ := exists_rounds hloop
  have hwithin := rounds.le_length (Nat.zero_le _)
  rw [hsize] at hwithin
  refine ⟨places, final, rounds, hfinish, rounds.ascending, hwithin, ?_⟩
  intro s i hplace kind scanned hopen
  cases ahead : (bytesOf source.toList).drop i with
  | nil =>
      rw [ahead] at hopen
      cases hopen
  | cons c cs =>
      rw [ahead] at hopen
      obtain ⟨t, next, hstep⟩ := rounds.exists_step hplace ahead
      rw [step_of_opening hopen] at hstep
      obtain ⟨outcome, rfl, _⟩ := Option.bind_eq_some_iff.1 hstep
      obtain ⟨_, offsets, hscan, hpaced⟩ := scan_of_opening ahead hopen
      rw [hsize] at hpaced
      exact ⟨offsets, outcome, rfl, hscan, hpaced, hpaced.length_le⟩

/-- An inclusion that hands on a prop. -/
def relayTag : String := "<ez name=\"a\" id=\"b\" $c />"

theorem opening?_relayTag :
    opening? relayTag .start ((bytesOf relayTag.toList).take 0).getLast? 0
        ((bytesOf relayTag.toList).drop 0) =
      some (.single, some (.found (.single ⟨"a", "b", [.relay "c"]⟩) 25)) := by
  have hopen := @opening?_eq relayTag .outside .start [] relayTag.toList rfl (.outside rfl rfl)
  have hsegment : Segment.opening? .outside none relayTag.toList =
      some (.single, .found (.single ⟨"a", "b", [.relay "c"]⟩) []) := by
    cbv
  rw [List.getLast?_nil, hsegment, Option.map_some, Outcome.atOffset,
    length_bytesOf_toList] at hopen
  exact hopen

/-- The scan of the tag is begun in the first round of lexing. -/
theorem loops_end_relayTag :
    ∃ places final offsets, Rounds relayTag .start 0 places final ∧ (State.start, 0) ∈ places ∧
      ScanRounds relayTag 0 .single offsets (.found (.single ⟨"a", "b", [.relay "c"]⟩) 25) ∧
      Paced 3 4 25 offsets ∧ offsets.length ≤ 64 := by
  have hsize : relayTag.utf8ByteSize = 25 := rfl
  obtain ⟨places, final, rounds, _, _, _, scans⟩ := loops_end relayTag
  obtain ⟨offsets, outcome, houtcome, hscan, hpaced, hlength⟩ :=
    scans .start 0 rounds.mem_start _ _ opening?_relayTag
  obtain rfl := Option.some.inj houtcome
  rw [hsize] at hpaced hlength
  exact ⟨places, final, offsets, rounds, rounds.mem_start, hscan, hpaced, hlength⟩

end Stencil.ByteLexer
