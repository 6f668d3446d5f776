import Stencil.Proofs.TagArguments

/-!
# How inclusion tags are written

A scan finds an inclusion tag if and only if one of its written forms is ahead: name and id in one
order or the other, arguments each behind a blank, and the end of the tag. What the tag means is read
off that form.
-/

namespace Stencil

/-- An inclusion tag opens at the head of a text, and `body` is what its scan starts on. -/
inductive OpensTag : List Char → (Inclusion → Token) → List Char → Prop
  | single {blank body} (h : blank ∈ blankCharacters) :
      OpensTag (['<', 'e', 'z'] ++ blank :: body) .single body
  | repeated {blank body} (h : blank ∈ blankCharacters) :
      OpensTag (['<', 'e', 'z', '-', 'f', 'o', 'r'] ++ blank :: body) .repeated body

namespace InclusionTag

/-- The name and the id of an inclusion, in one order or the other. -/
inductive WrittenHead : List Char → String → String → Prop
  | nameFirst {name blanks id} (hname : Avoids inclusionNameStops name) (hblanks : Blanks blanks)
      (hne : blanks ≠ []) (hid : Avoids ('/' :: inclusionNameStops) id) :
      WrittenHead (nameOpening ++ (name.toList ++ '"' :: (blanks ++
        (idOpening ++ (id.toList ++ ['"']))))) name id
  | idFirst {name blanks id} (hname : Avoids inclusionNameStops name) (hblanks : Blanks blanks)
      (hne : blanks ≠ []) (hid : Avoids ('/' :: inclusionNameStops) id) :
      WrittenHead (idOpening ++ (id.toList ++ '"' :: (blanks ++
        (nameOpening ++ (name.toList ++ ['"']))))) name id

/-- An inclusion as it is written behind its opening word and the blanks there. -/
inductive WrittenBody : List Char → Inclusion → Prop
  | form {head name id more arguments closing} (hhead : WrittenHead head name id)
      (harguments : WrittenArguments more arguments) (hclosing : Blanks closing) :
      WrittenBody (head ++ (more ++ (closing ++ ['/', '>']))) ⟨name, id, arguments⟩

/-- The written forms of an inclusion tag, with the token that they stand for. -/
inductive Written : List Char → Token → Prop
  | single {blanks body inclusion} (hblanks : Blanks blanks) (hne : blanks ≠ [])
      (hbody : WrittenBody body inclusion) :
      Written (['<', 'e', 'z'] ++ (blanks ++ body)) (.single inclusion)
  | repeated {blanks body inclusion} (hblanks : Blanks blanks) (hne : blanks ≠ [])
      (hbody : WrittenBody body inclusion) :
      Written (['<', 'e', 'z', '-', 'f', 'o', 'r'] ++ (blanks ++ body)) (.repeated inclusion)

section Head

/-- The state behind a name; the head is complete if the id is known. -/
def Head.named : Head → String → State
  | .id known, word => .afterArgument ⟨word, known, []⟩
  | .nothing, word | .name _, word => .afterAttribute (.name word)

/-- The state behind an id; the head is complete if the name is known. -/
def Head.identified : Head → String → State
  | .name known, word => .afterArgument ⟨known, word, []⟩
  | .nothing, word | .id _, word => .afterAttribute (.id word)

variable (wrap : Inclusion → Token) {head : Head} {inclusion : Inclusion} {token : Token} {c : Char}
  {text cs rest : List Char}

theorem isValueStop_of_mem (hc : c ∈ inclusionNameStops) (hquote : c ≠ '"') :
    isValueStop c = true := by
  have hall : inclusionNameStops.all (fun c => c == '"' || isValueStop c) = true := by decide
  simpa [hquote] using List.all_eq_true.1 hall c hc

theorem readsName (head : Head) :
    (machine wrap).ReadsName inclusionNameStops '"' (.name head) head.named where
  step_pass read c hc cs := by
    simp_all [machine, step, inclusionNameStops, isValueStop, isBlank]
  step_close name cs hname := by cases head <;> simp [machine, step, Head.named, hname]
  step_stall name c hc cs hclose := by
    by_cases hquote : c = '"'
    · exact ⟨.nameOrIdEmpty, by simp [machine, step, hquote, hclose hquote]⟩
    · refine ⟨.nameOrIdCharacter, ?_⟩
      simp [machine, step, hquote, isValueStop_of_mem hc hquote]

theorem readsId (head : Head) :
    (machine wrap).ReadsName ('/' :: inclusionNameStops) '"' (.id head) head.identified where
  step_pass read c hc cs := by
    simp_all [machine, step, inclusionNameStops, isValueStop, isBlank]
  step_close name cs hname := by cases head <;> simp [machine, step, Head.identified, hname]
  step_stall name c hc cs hclose := by
    by_cases hquote : c = '"'
    · exact ⟨.nameOrIdEmpty, by simp [machine, step, hquote, hclose hquote]⟩
    by_cases hslash : c = '/'
    · exact ⟨.idSlash, by simp [machine, step, hslash]⟩
    · refine ⟨.nameOrIdCharacter, ?_⟩
      have hstop := isValueStop_of_mem (List.mem_of_ne_of_mem hslash hc) hquote
      simp [machine, step, hquote, hslash, hstop]

theorem skip_beforeAttribute (c : Char) (cs : List Char) (h : isBlank c = true) :
    (machine wrap).step (.beforeAttribute head) c cs = .pass 0 (.beforeAttribute head) :=
  if_pos h

/-- An attribute that opens behind blanks is entered. -/
theorem run_attribute {blanks : List Char} (hblanks : Blanks blanks) (hc : isBlank c = false)
    {n : Nat} {next : State}
    (hopen : (machine wrap).step (.attribute head) c cs = .pass n next) :
    (machine wrap).run (.beforeAttribute head) (blanks ++ c :: cs) =
      (machine wrap).run next (cs.drop n) := by
  have hstay : (machine wrap).step (.beforeAttribute head) c cs = .stay (.attribute head) := by
    simp [machine, step, hc]
  rw [(machine wrap).run_blanks (skip_beforeAttribute wrap) hblanks, (machine wrap).run_stay hstay,
    (machine wrap).run_pass hopen]

theorem run_nameOpening (hhead : ∀ name, head ≠ .name name) {blanks : List Char}
    (hblanks : Blanks blanks) (cs : List Char) :
    (machine wrap).run (.beforeAttribute head) (blanks ++ (nameOpening ++ cs)) =
      (machine wrap).run (.name head "") cs := by
  have hopen : (machine wrap).step (.attribute head) 'n' ('a' :: 'm' :: 'e' :: '=' :: '"' :: cs) =
      .pass 5 (.name head "") := by
    cases head <;> simp_all [machine, step, nameOpening]
  exact run_attribute wrap hblanks rfl hopen

theorem run_idOpening (hhead : ∀ id, head ≠ .id id) {blanks : List Char}
    (hblanks : Blanks blanks) (cs : List Char) :
    (machine wrap).run (.beforeAttribute head) (blanks ++ (idOpening ++ cs)) =
      (machine wrap).run (.id head "") cs := by
  have hopen : (machine wrap).step (.attribute head) 'i' ('d' :: '=' :: '"' :: cs) =
      .pass 3 (.id head "") := by
    cases head <;> simp_all [machine, step, nameOpening, idOpening]
  exact run_attribute wrap hblanks rfl hopen

theorem run_afterAttribute {blanks : List Char} (hblanks : Blanks blanks) (hne : blanks ≠ [])
    (cs : List Char) :
    (machine wrap).run (.afterAttribute head) (blanks ++ cs) =
      (machine wrap).run (.beforeAttribute head) (blanks ++ cs) := by
  obtain ⟨c, ds, rfl⟩ := List.exists_cons_of_ne_nil hne
  have hc : isBlank c = true := isBlank_iff.2 (hblanks c List.mem_cons_self)
  exact (machine wrap).run_stay (by simp [machine, step, hc])

/-- A written head is read, in whatever order it gives the name and the id. -/
theorem run_head {name id : String} (h : WrittenHead text name id) {blanks : List Char}
    (hblanks : Blanks blanks) (rest : List Char) :
    (machine wrap).run (.beforeAttribute .nothing) (blanks ++ (text ++ rest)) =
      (machine wrap).run (.afterArgument ⟨name, id, []⟩) rest := by
  cases h with
  | @nameFirst _ between _ hname hbetween hne hid =>
      simp only [List.append_assoc, List.cons_append, List.nil_append]
      rw [run_nameOpening wrap (by simp) hblanks, (readsName wrap .nothing).run hname, Head.named,
        run_afterAttribute wrap hbetween hne, run_idOpening wrap (by simp) hbetween,
        (readsId wrap (.name name)).run hid, Head.identified]
  | @idFirst _ between _ hname hbetween hne hid =>
      simp only [List.append_assoc, List.cons_append, List.nil_append]
      rw [run_idOpening wrap (by simp) hblanks, (readsId wrap .nothing).run hid, Head.identified,
        run_afterAttribute wrap hbetween hne, run_nameOpening wrap (by simp) hbetween,
        (readsName wrap (.id id)).run hname, Head.named]

/-- A scan that goes on behind a name or an id has read one that was not known yet. -/
theorem beforeAttribute_found
    (h : (machine wrap).run (.beforeAttribute head) cs = .found token rest) :
    ∃ blanks after, Blanks blanks ∧
      ((∃ name, (∀ known, head ≠ .name known) ∧ Avoids inclusionNameStops name ∧
          cs = blanks ++ (nameOpening ++ (name.toList ++ '"' :: after)) ∧
          (machine wrap).run (head.named name) after = .found token rest) ∨
        (∃ id, (∀ known, head ≠ .id known) ∧ Avoids ('/' :: inclusionNameStops) id ∧
          cs = blanks ++ (idOpening ++ (id.toList ++ '"' :: after)) ∧
          (machine wrap).run (head.identified id) after = .found token rest)) := by
  obtain ⟨blanks, c, ds, rfl, hblanks, hc, hrun⟩ :=
    Machine.run_blanks_found (skip_beforeAttribute wrap) h
  have hstay : (machine wrap).step (.beforeAttribute head) c ds = .stay (.attribute head) := by
    simp [machine, step, hc]
  have hstalls : ∀ reason, (machine wrap).step (.attribute head) c ds ≠ .stall reason := by
    intro reason hstall
    rw [(machine wrap).run_stay hstay, (machine wrap).run_stall hstall] at hrun
    cases hrun
  by_cases hname : nameOpening <+: c :: ds
  · obtain ⟨es, hes⟩ := hname
    have hhead : ∀ known, head ≠ .name known := by
      rintro known rfl
      apply hstalls .nameRepeated
      simp [machine, step, ← hes, nameOpening]
    rw [← hes, ← List.nil_append (nameOpening ++ es), run_nameOpening wrap hhead (by simp [Blanks])]
      at hrun
    obtain ⟨name, after, hname, rfl, hend⟩ := (readsName wrap head).found hrun
    exact ⟨blanks, after, hblanks, .inl ⟨name, hhead, hname, by rw [hes], hend⟩⟩
  by_cases hid : idOpening <+: c :: ds
  · obtain ⟨es, hes⟩ := hid
    have hhead : ∀ known, head ≠ .id known := by
      rintro known rfl
      apply hstalls .idRepeated
      simp [machine, step, ← hes, nameOpening, idOpening]
    rw [← hes, ← List.nil_append (idOpening ++ es), run_idOpening wrap hhead (by simp [Blanks])]
      at hrun
    obtain ⟨id, after, hid, rfl, hend⟩ := (readsId wrap head).found hrun
    exact ⟨blanks, after, hblanks, .inr ⟨id, hhead, hid, by rw [hes], hend⟩⟩
  · rw [← List.isPrefixOf_iff_prefix] at hname hid
    exact absurd (by simp [machine, step, hname, hid]) (hstalls .nameOrIdMissing)

theorem afterAttribute_found
    (h : (machine wrap).run (.afterAttribute head) cs = .found token rest) :
    (machine wrap).run (.beforeAttribute head) cs = .found token rest ∧
      ∃ c ∈ cs.head?, isBlank c = true := by
  cases cs with
  | nil =>
      rw [Machine.run] at h
      cases h
  | cons c cs =>
      cases hc : isBlank c with
      | true =>
          have hstay : (machine wrap).step (.afterAttribute head) c cs =
              .stay (.beforeAttribute head) := by
            simp [machine, step, hc]
          rw [(machine wrap).run_stay hstay] at h
          exact ⟨h, c, rfl, hc⟩
      | false =>
          have hstall : (machine wrap).step (.afterAttribute head) c cs = .stall .blankMissing := by
            simp [machine, step, hc]
          rw [(machine wrap).run_stall hstall] at h
          cases h

/-- A scan that finds a tag has read a written head. -/
theorem head_found (h : (machine wrap).run (.beforeAttribute .nothing) cs = .found token rest) :
    ∃ blanks text name id after, Blanks blanks ∧ WrittenHead text name id ∧
      cs = blanks ++ (text ++ after) ∧
      (machine wrap).run (.afterArgument ⟨name, id, []⟩) after = .found token rest := by
  obtain ⟨blanks, after, hblanks, ⟨name, _, hname, rfl, hrun⟩ | ⟨id, _, hid, rfl, hrun⟩⟩ :=
    beforeAttribute_found wrap h
  · obtain ⟨hrun, c, hc, hblank⟩ := afterAttribute_found wrap hrun
    obtain ⟨between, after, hbetween, ⟨_, hhead, _⟩ | ⟨id, _, hid, rfl, hend⟩⟩ :=
      beforeAttribute_found wrap hrun
    · exact absurd rfl (hhead name)
    · have hne : between ≠ [] := by
        rintro rfl
        cases hc
        cases hblank
      exact ⟨blanks, _, name, id, after, hblanks, .nameFirst hname hbetween hne hid, by simp, hend⟩
  · obtain ⟨hrun, c, hc, hblank⟩ := afterAttribute_found wrap hrun
    obtain ⟨between, after, hbetween, ⟨name, _, hname, rfl, hend⟩ | ⟨_, hhead, _⟩⟩ :=
      beforeAttribute_found wrap hrun
    · have hne : between ≠ [] := by
        rintro rfl
        cases hc
        cases hblank
      exact ⟨blanks, _, name, id, after, hblanks, .idFirst hname hbetween hne hid, by simp, hend⟩
    · exact absurd rfl (hhead id)

/-- A scan finds an inclusion exactly where it is written behind some blanks. -/
theorem scan_eq_found_iff :
    scan wrap cs = .found token rest ↔
      ∃ blanks body inclusion, Blanks blanks ∧ WrittenBody body inclusion ∧
        cs = blanks ++ (body ++ rest) ∧ token = wrap inclusion := by
  constructor
  · intro h
    obtain ⟨blanks, head, name, id, after, hblanks, hhead, rfl, hrun⟩ := head_found wrap h
    obtain ⟨more, arguments, closing, harguments, hclosing, rfl, rfl⟩ :=
      afterArgument_found wrap hrun
    exact ⟨blanks, _, _, hblanks, .form hhead harguments hclosing, by simp, by simp⟩
  · rintro ⟨blanks, _, _, hblanks, ⟨hhead, harguments, hclosing⟩, rfl, rfl⟩
    simp only [List.append_assoc, List.cons_append, List.nil_append]
    rw [scan, run_head wrap hhead hblanks, run_arguments wrap harguments hclosing, List.nil_append]

end Head

end InclusionTag

section Tags

open InclusionTag

variable {text body body' tag tag' rest rest' : List Char} {wrap wrap' : Inclusion → Token}
  {token token' : Token}

theorem dash_not_blank : '-' ∉ blankCharacters := by decide

theorem OpensTag.exists_blank (h : OpensTag text wrap body) :
    ∃ word blank, text = word ++ blank :: body ∧ blank ∈ blankCharacters := by
  cases h with
  | single hblank => exact ⟨_, _, rfl, hblank⟩
  | repeated hblank => exact ⟨_, _, rfl, hblank⟩

/-- The opening word says which token a tag stands for and where its scan starts. -/
theorem OpensTag.unique (h : OpensTag text wrap body) (h' : OpensTag text wrap' body') :
    wrap = wrap' ∧ body = body' := by
  cases h with
  | single hblank =>
      cases h' with
      | single => exact ⟨rfl, rfl⟩
      | repeated => exact absurd hblank dash_not_blank
  | repeated =>
      generalize htext : ['<', 'e', 'z', '-', 'f', 'o', 'r'] ++ _ = text at h'
      cases h' with
      | single hblank =>
          cases htext
          exact absurd hblank dash_not_blank
      | repeated =>
          cases htext
          exact ⟨rfl, rfl⟩

theorem OpensTag.opening (h : OpensTag text wrap body) (context : TagContext)
    (before : Option Char) :
    ∃ kind, Segment.opening? context before text = some (kind, scan wrap body) := by
  cases h with
  | @single blank body hblank =>
      refine ⟨.single, ?_⟩
      have hdash : blank ≠ '-' := ne_of_mem_of_not_mem hblank dash_not_blank
      simp [Segment.opening?, isBlank_iff.2 hblank, hdash]
  | repeated hblank => exact ⟨.repeated, by simp [Segment.opening?, isBlank_iff.2 hblank]⟩

/-- A written form opens a tag, and the scan of it goes to its end. -/
theorem InclusionTag.Written.scan_found (h : Written tag token) (rest : List Char) :
    ∃ wrap body, OpensTag (tag ++ rest) wrap body ∧ scan wrap body = .found token rest := by
  cases h with
  | @single blanks text inclusion hblanks hne hbody =>
      obtain ⟨blank, more, rfl⟩ := List.exists_cons_of_ne_nil hne
      have hmore : Blanks more := fun c hc => hblanks c (List.mem_cons_of_mem blank hc)
      refine ⟨.single, more ++ (text ++ rest), ?_,
        (scan_eq_found_iff _).2 ⟨more, text, inclusion, hmore, hbody, rfl, rfl⟩⟩
      rw [List.append_assoc, List.append_assoc]
      exact .single (hblanks blank List.mem_cons_self)
  | @repeated blanks text inclusion hblanks hne hbody =>
      obtain ⟨blank, more, rfl⟩ := List.exists_cons_of_ne_nil hne
      have hmore : Blanks more := fun c hc => hblanks c (List.mem_cons_of_mem blank hc)
      refine ⟨.repeated, more ++ (text ++ rest), ?_,
        (scan_eq_found_iff _).2 ⟨more, text, inclusion, hmore, hbody, rfl, rfl⟩⟩
      rw [List.append_assoc, List.append_assoc]
      exact .repeated (hblanks blank List.mem_cons_self)

/-- Where a tag opens, its scan finds exactly the written form that is ahead. -/
theorem OpensTag.scan_eq_found_iff (h : OpensTag text wrap body) :
    scan wrap body = .found token rest ↔ ∃ tag, Written tag token ∧ text = tag ++ rest := by
  constructor
  · intro hscan
    obtain ⟨blanks, form, inclusion, hblanks, hbody, rfl, rfl⟩ :=
      (InclusionTag.scan_eq_found_iff wrap).1 hscan
    cases h with
    | @single blank _ hblank =>
        have hall : Blanks (blank :: blanks) := List.forall_mem_cons.2 ⟨hblank, hblanks⟩
        exact ⟨_, .single hall (List.cons_ne_nil _ _) hbody, by simp⟩
    | @repeated blank _ hblank =>
        have hall : Blanks (blank :: blanks) := List.forall_mem_cons.2 ⟨hblank, hblanks⟩
        exact ⟨_, .repeated hall (List.cons_ne_nil _ _) hbody, by simp⟩
  · rintro ⟨tag, hwritten, rfl⟩
    obtain ⟨wrap', body', hopens, hscan⟩ := hwritten.scan_found rest
    obtain ⟨rfl, rfl⟩ := h.unique hopens
    exact hscan

/-- A text begins with one written form at most. -/
theorem InclusionTag.Written.unique (h : Written tag token) (h' : Written tag' token')
    (hsame : tag ++ rest = tag' ++ rest') : tag = tag' ∧ token = token' := by
  obtain ⟨wrap, body, hopens, hscan⟩ := h.scan_found rest
  have hscan' := hopens.scan_eq_found_iff.2 ⟨tag', h', hsame⟩
  rw [hscan] at hscan'
  obtain ⟨htoken, rfl⟩ := Outcome.found.inj hscan'
  exact ⟨List.append_cancel_right hsame, htoken⟩

end Tags

end Stencil
