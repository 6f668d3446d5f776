import Stencil.FileTree.Walk
import Stencil.Proofs.FileNames
import Stencil.Proofs.RenderSteps

/-!
# The files of a tree without links

A tree of directories and files lists its files in ascending order of the names that lead to them. A
walk takes them in one after the other in that order, as long as no path below its start is too long
to be followed.
-/

namespace Stencil

namespace FileTree

/-- A tree without links as a system keeps it, in which every file is a text. A file whose name
begins with its only two dots has the stem of a single dot, and is left out. -/
inductive Ordinary : FileTree → Prop
  | file (text : String) : Ordinary (.file text.toUTF8)
  | directory {entries} (ascending : (entries.map (·.1)).Pairwise (· < ·))
      (names : ∀ e ∈ entries, IsEntryName e.1)
      (stems : ∀ e ∈ entries, ∀ content, e.2 = .file content →
        ∀ extension : String, '.' ∉ extension.toList → e.1 ≠ "." ++ "." ++ extension)
      (each : ∀ e ∈ entries, Ordinary e.2) : Ordinary (.directory entries)

mutual

/-- The files of a tree with the names that lead to them, in the order of a walk. -/
def files : FileTree → List (List String × ByteArray)
  | .file content => [([], content)]
  | .directory entries => filesOf entries
  | .link _ => []

def filesOf : List (String × FileTree) → List (List String × ByteArray)
  | [] => []
  | (name, node) :: rest => node.files.map (fun f => (name :: f.1, f.2)) ++ filesOf rest

end

/-- A path to something below a tree cannot be followed for its length or its characters. -/
def Blocked (tree : FileTree) (path : String) : Prop :=
  ∃ names node e, tree.below? names = some node ∧ checkPath (Path.below path names) = .error e

end FileTree

/-- A file below a path. -/
def FoundFile.below (path : String) (f : List String × ByteArray) : FoundFile :=
  ⟨Path.below path f.1, f.1, f.2⟩

/-- A file below a place of a walk. -/
def WalkPlace.found (place : WalkPlace) (f : List String × ByteArray) : FoundFile :=
  ⟨Path.below place.path f.1, place.names ++ f.1, f.2⟩

theorem WalkPlace.found_child (place : WalkPlace) (name : String) (f : List String × ByteArray) :
    (place.child name).found f = place.found (name :: f.1, f.2) := by
  rw [found, child, List.append_assoc]
  rfl

namespace FileTree

variable {tree : FileTree} {entries : List (String × FileTree)} {names : List String}
variable {content : ByteArray} {path : String}

section Listing

theorem filesOf_eq (entries : List (String × FileTree)) :
    filesOf entries = entries.flatMap fun e => e.2.files.map fun f => (e.1 :: f.1, f.2) := by
  induction entries with
  | nil => rfl
  | cons e rest ih => rw [filesOf, ih, List.flatMap_cons]

theorem below?_directory {name : String} {rest : List String} {node : FileTree}
    (ascending : (entries.map (·.1)).Pairwise (· < ·)) :
    (directory entries).below? (name :: rest) = some node ↔
      ∃ child, (name, child) ∈ entries ∧ child.below? rest = some node := by
  have hnodup : (entries.map (·.1)).Nodup := ascending.imp String.ne_of_lt
  rw [below?]
  constructor
  · intro h
    split at h
    · rename_i child hlookup
      exact ⟨child, (Dictionary.lookup_eq_some_iff hnodup).1 hlookup, h⟩
    · cases h
  · rintro ⟨child, hmem, h⟩
    rw [(Dictionary.lookup_eq_some_iff hnodup).2 hmem]
    exact h

/-- The files listed are those that names lead to. -/
theorem mem_files (h : tree.Ordinary) :
    (names, content) ∈ tree.files ↔ tree.below? names = some (.file content) := by
  induction h generalizing names with
  | file text =>
      cases names with
      | nil => simp [files, below?, eq_comm]
      | cons => simp [files, below?]
  | @directory entries ascending _ _ _ ih =>
      rw [files, filesOf_eq]
      cases names with
      | nil => simp [below?]
      | cons name rest =>
          rw [below?_directory ascending, List.mem_flatMap]
          constructor
          · rintro ⟨e, he, hmem⟩
            obtain ⟨f, hf, heq⟩ := List.mem_map.1 hmem
            cases heq
            exact ⟨e.2, he, (ih e he).1 hf⟩
          · rintro ⟨child, he, hbelow⟩
            exact ⟨_, he, List.mem_map.2 ⟨_, (ih _ he).2 hbelow, rfl⟩⟩

theorem files_ascending (h : tree.Ordinary) : (tree.files.map (·.1)).Pairwise (· < ·) := by
  induction h with
  | file text => simp [files]
  | @directory entries ascending _ _ _ ih =>
      rw [files, filesOf_eq, List.map_flatMap, List.pairwise_flatMap]
      constructor
      · intro e he
        have hbelow := ih e he
        rw [List.pairwise_map] at hbelow
        rw [List.map_map, List.pairwise_map]
        exact hbelow.imp fun hlt => List.cons_lt_cons_iff.2 (.inr ⟨rfl, hlt⟩)
      · refine (List.pairwise_map.1 ascending).imp ?_
        intro e f hlt xs hxs ys hys
        rw [List.map_map] at hxs hys
        obtain ⟨_, _, rfl⟩ := List.mem_map.1 hxs
        obtain ⟨_, _, rfl⟩ := List.mem_map.1 hys
        exact List.cons_lt_cons_iff.2 (.inl hlt)

theorem below?_append (tree : FileTree) (front back : List String) :
    tree.below? (front ++ back) = (tree.below? front).bind (·.below? back) := by
  induction front generalizing tree with
  | nil => rfl
  | cons name front ih =>
      cases tree with
      | directory entries =>
          rw [List.cons_append, below?, below?]
          cases entries.lookup name with
          | none => rfl
          | some child => exact ih child
      | _ => rfl

/-- What names lead to is ordinary, and the names are those of entries. -/
theorem ordinary_of_below? (h : tree.Ordinary) {node : FileTree}
    (hbelow : tree.below? names = some node) :
    node.Ordinary ∧ ∀ name ∈ names, IsEntryName name := by
  induction names generalizing tree with
  | nil =>
      cases hbelow
      exact ⟨h, by simp⟩
  | cons name rest ih =>
      cases h with
      | file => cases hbelow
      | directory ascending isName _ each =>
          obtain ⟨child, he, hchild⟩ := (below?_directory ascending).1 hbelow
          obtain ⟨hnode, hrest⟩ := ih (each _ he) hchild
          exact ⟨hnode, List.forall_mem_cons.2 ⟨isName _ he, hrest⟩⟩

/-- A listed file of an ordinary directory, with the names that lead to it. -/
structure Proper (file : List String × ByteArray) : Prop where
  nonempty : file.1 ≠ []
  names : ∀ name ∈ file.1, IsEntryName name
  stem : ∀ last ∈ file.1.getLast?, ∀ extension : String, '.' ∉ extension.toList →
    last ≠ "." ++ "." ++ extension
  text : ∃ text : String, file.2 = text.toUTF8

theorem stem_of_below? (h : tree.Ordinary) {last extension : String}
    (hbelow : tree.below? (names ++ [last]) = some (.file content))
    (hextension : '.' ∉ extension.toList) : last ≠ "." ++ "." ++ extension := by
  rw [below?_append] at hbelow
  obtain ⟨node, hnode, hlast⟩ := Option.bind_eq_some_iff.1 hbelow
  cases (ordinary_of_below? h hnode).1 with
  | file => cases hlast
  | directory ascending _ stems _ =>
      obtain ⟨child, he, hchild⟩ := (below?_directory ascending).1 hlast
      exact stems _ he content (Option.some.inj hchild) extension hextension

theorem text_of_mem_files (h : tree.Ordinary) (hmem : (names, content) ∈ tree.files) :
    ∃ text : String, content = text.toUTF8 := by
  cases (ordinary_of_below? h ((mem_files h).1 hmem)).1 with
  | file text => exact ⟨text, rfl⟩

theorem proper_of_mem_files (h : (directory entries).Ordinary) {file : List String × ByteArray}
    (hmem : file ∈ (directory entries).files) : Proper file := by
  have hbelow := (mem_files h).1 hmem
  refine ⟨?_, (ordinary_of_below? h hbelow).2, ?_, text_of_mem_files h hmem⟩
  · intro hnil
    rw [hnil] at hbelow
    cases hbelow
  · intro last hlast extension hextension
    obtain ⟨front, hfront⟩ := List.getLast?_eq_some_iff.1 hlast
    rw [hfront] at hbelow
    exact stem_of_below? h hbelow hextension

end Listing

section Visiting

variable {σ ε : Type} {v : Visitor σ ε} {onLink : WalkPlace → String → σ → Except ε σ}

/-- A visit takes in the files of the tree one after the other, unless a path in it is blocked. -/
def VisitsFiles (v : Visitor σ ε) (onLink : WalkPlace → String → σ → Except ε σ)
    (tree : FileTree) : Prop :=
  ∀ place s, visit v onLink place tree s = (tree.files.map place.found).foldlM v.take s ∨
    tree.Blocked place.path ∧ ∃ fault, visit v onLink place tree s = .error fault

theorem visitEntries_files (each : ∀ e ∈ entries, VisitsFiles v onLink e.2) (place : WalkPlace)
    (s : σ) :
    visitEntries v onLink place entries s =
        ((filesOf entries).map place.found).foldlM v.take s ∨
      (∃ e ∈ entries, e.2.Blocked (Path.join place.path e.1)) ∧
        ∃ fault, visitEntries v onLink place entries s = .error fault := by
  induction entries generalizing s with
  | nil => exact .inl rfl
  | cons e rest ih =>
      obtain ⟨name, node⟩ := e
      obtain ⟨hnode, hrest⟩ := List.forall_mem_cons.1 each
      have hfiles : (node.files.map (fun f => (name :: f.1, f.2))).map place.found =
          node.files.map (place.child name).found := by
        rw [List.map_map]
        exact List.map_congr_left fun f _ => (place.found_child name f).symm
      rw [visitEntries, filesOf, List.map_append, hfiles, List.foldlM_append]
      obtain heq | ⟨hblocked, fault, herror⟩ := hnode (place.child name) s
      · rw [← heq]
        cases visit v onLink (place.child name) node s with
        | error fault => exact .inl rfl
        | ok t =>
            obtain heq | ⟨⟨e, he, hblocked⟩, hfault⟩ := ih hrest t
            · exact .inl heq
            · exact .inr ⟨⟨e, List.mem_cons_of_mem _ he, hblocked⟩, hfault⟩
      · rw [herror]
        exact .inr ⟨⟨_, List.mem_cons_self, hblocked⟩, fault, rfl⟩

theorem visit_files (h : tree.Ordinary) : VisitsFiles v onLink tree := by
  induction h with
  | file text =>
      intro place s
      left
      rw [visit, files, List.map_singleton, List.foldlM_cons, WalkPlace.found, List.append_nil]
      exact (bind_pure _).symm
  | @directory entries ascending _ _ _ ih =>
      intro place s
      rw [visit, files]
      cases hcheck : checkPath place.path with
      | error e => exact .inr ⟨⟨[], _, e, rfl, hcheck⟩, _, rfl⟩
      | ok =>
          obtain heq | ⟨⟨e, he, names, node, fault, hbelow, hblocked⟩, hfault⟩ :=
            visitEntries_files ih place.enter s
          · exact .inl heq
          · right
            refine ⟨⟨e.1 :: names, node, fault, ?_, hblocked⟩, hfault⟩
            exact (below?_directory ascending).2 ⟨e.2, he, hbelow⟩

end Visiting

section Walking

/-- What can be followed to its end can be followed up to a link there. -/
theorem follow_of_reading {links : Nat} {here : Location} {steps : List String}
    {found : Location × Nat} (h : tree.follow .reading links here steps = .ok found) :
    ∃ stopped, tree.follow ⟨false, false⟩ links here steps = .ok stopped := by
  fun_induction follow tree .reading links here steps with
  | case1 =>
      rw [follow]
      exact ⟨_, rfl⟩
  | case3 links here step rest entries hentries hdot ih =>
      rw [follow, hentries]
      dsimp only
      rw [if_pos hdot]
      exact ih h
  | case4 links here step rest entries hentries hdot hdots ih =>
      rw [follow, hentries]
      dsimp only
      rw [if_neg hdot, if_pos hdots]
      exact ih h
  | case10 here step rest entries hentries hdot hdots hlength target hlookup hlast links ih =>
      rw [follow, hentries]
      dsimp only
      rw [if_neg hdot, if_neg hdots, if_neg hlength, hlookup]
      dsimp only
      split
      · exact ⟨_, rfl⟩
      · exact ih h
  | case11 links here step rest entries hentries hdot hdots hlength node hnode hlookup ih =>
      have hstep : tree.follow ⟨false, false⟩ links here (step :: rest) =
          tree.follow ⟨false, false⟩ links (here.child step) rest := by
        rw [follow, hentries]
        dsimp only
        rw [if_neg hdot, if_neg hdots, if_neg hlength, hlookup]
        split
        · cases ‹some node = none›
        · rename_i target heq
          exact (hnode target (Option.some.inj heq)).elim
        · rfl
      rw [hstep]
      exact ih h
  | case6 _ _ _ _ _ _ _ _ _ _ hcreate => simp [Manner.reading] at hcreate
  | case8 _ _ _ _ _ _ _ _ _ _ _ hlast => simp [Manner.reading] at hlast
  | _ => cases h

/-- A walk goes through the directory that its path leads to. -/
theorem walk_of_target {σ ε : Type} {followLinks : Bool} (v : Visitor σ ε) (s : σ)
    (h : tree.target path = .ok (.directory entries)) :
    ∃ onLink location, tree.walk followLinks path v s =
      visit v onLink ⟨path, [], location, []⟩ (.directory entries) s := by
  obtain ⟨⟨location, left⟩, hfind, htarget⟩ := bind_eq_ok.1 h
  obtain ⟨_, hcheck, hfollow⟩ := bind_eq_ok.1 hfind
  obtain ⟨stopped, hstopped⟩ := follow_of_reading hfollow
  have hhere : tree.find ⟨false, false⟩ path = .ok stopped := bind_eq_ok.2 ⟨_, hcheck, hstopped⟩
  have hnode : tree.at? location = some (.directory entries) := by
    dsimp only at htarget
    split at htarget
    · cases htarget
      assumption
    · cases htarget
  rw [walk, hhere, hfind]
  dsimp only
  rw [hnode]
  exact ⟨_, location, rfl⟩

/-- The path to a target can be followed for its length and its characters. -/
theorem checkPath_of_target {node : FileTree} (h : tree.target path = .ok node) :
    checkPath path = .ok () := by
  obtain ⟨_, hfind, _⟩ := bind_eq_ok.1 h
  obtain ⟨_, hcheck, _⟩ := bind_eq_ok.1 hfind
  exact hcheck

/-- A walk takes in the files of an ordinary directory one after the other, unless a path in it is
blocked. -/
theorem walk_files {σ ε : Type} {followLinks : Bool} (v : Visitor σ ε) (s : σ)
    (h : tree.target path = .ok (.directory entries)) (ordinary : (directory entries).Ordinary) :
    tree.walk followLinks path v s =
        ((directory entries).files.map (.below path)).foldlM v.take s ∨
      (directory entries).Blocked path ∧ ∃ fault, tree.walk followLinks path v s = .error fault := by
  obtain ⟨onLink, location, hwalk⟩ := walk_of_target v s h
  rw [hwalk]
  exact visit_files ordinary ⟨path, [], location, []⟩ s

/-- No path in an ordinary directory is blocked if none is too long. -/
theorem not_blocked (ordinary : tree.Ordinary) (hpath : checkPath path = .ok ())
    (hsize : ∀ names node, tree.below? names = some node →
      (Path.below path names).utf8ByteSize ≤ Path.sizeLimit) : ¬ tree.Blocked path := by
  rintro ⟨names, node, e, hbelow, hblocked⟩
  obtain ⟨hnul, hempty, _⟩ := checkPath_eq_ok_iff.1 hpath
  obtain ⟨hempty, hnul⟩ :=
    Path.below_followable (ordinary_of_below? ordinary hbelow).2 hempty hnul
  rw [checkPath_eq_ok_iff.2 ⟨hnul, hempty, hsize names node hbelow⟩] at hblocked
  cases hblocked

end Walking

end FileTree

end Stencil
