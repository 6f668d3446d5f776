import Mathlib
import Stencil.FileTree.Basic

/-!
# Names of files

An entry of a directory has a name without slashes that is not one of the two steps with dots. The
name splits at its last dot into a stem and an extension, and a path that ends in it has that
extension, whatever stands before.
-/

namespace Stencil

/-- What an entry of a directory can be called. -/
structure IsEntryName (name : String) : Prop where
  nonempty : name ≠ ""
  notDot : name ≠ "."
  notDots : name ≠ ".."
  noSlash : '/' ∉ name.toList
  noNul : '\x00' ∉ name.toList

namespace Path

variable {path name stem extension : String} {cs : List Char}

section Parts

theorem splitSlash_ne_nil (cs : List Char) : splitSlash cs ≠ [] := by
  cases cs with
  | nil => simp [splitSlash]
  | cons c cs =>
      rw [splitSlash]
      split
      · simp
      · split <;> simp

theorem splitSlash_of_not_mem (h : '/' ∉ cs) : splitSlash cs = [cs] := by
  induction cs with
  | nil => rfl
  | cons c cs ih =>
      rw [List.mem_cons, not_or] at h
      rw [splitSlash, if_neg (Ne.symm h.1), ih h.2]

theorem splitSlash_append (front back : List Char) :
    splitSlash (front ++ '/' :: back) = splitSlash front ++ splitSlash back := by
  induction front with
  | nil => rfl
  | cons c front ih =>
      rw [List.cons_append, splitSlash, splitSlash, ih]
      split
      · rfl
      · obtain ⟨part, parts, hparts⟩ := List.exists_cons_of_ne_nil (splitSlash_ne_nil front)
        rw [hparts]
        rfl

theorem parts_eq_filter (h : path.toList = cs) :
    parts path = ((splitSlash cs).filter (!·.isEmpty)).map String.ofList := by
  rw [parts, h]

/-- The parts of a path with a name below it. -/
theorem parts_join (h : IsEntryName name) : parts (join path name) = parts path ++ [name] := by
  have hname : ((splitSlash name.toList).filter (!·.isEmpty)).map String.ofList = [name] := by
    rw [splitSlash_of_not_mem h.noSlash]
    simp [h.nonempty]
  have happend : ∀ front : List Char,
      ((splitSlash (front ++ '/' :: name.toList)).filter (!·.isEmpty)).map String.ofList =
        ((splitSlash front).filter (!·.isEmpty)).map String.ofList ++ [name] := by
    intro front
    rw [splitSlash_append, List.filter_append, List.map_append, hname]
  rw [join]
  split
  case isTrue hslash =>
    -- the slash at the end of the path is followed by an empty part, which does not count
    obtain ⟨front, hfront⟩ := List.getLast?_eq_some_iff.1 (beq_iff_eq.1 hslash)
    have hpath : parts path = ((splitSlash front).filter (!·.isEmpty)).map String.ofList := by
      rw [parts, hfront, splitSlash_append]
      simp [splitSlash]
    have hjoin : (path ++ name).toList = front ++ '/' :: name.toList := by
      rw [String.toList_append, hfront, List.append_assoc]
      rfl
    rw [parts_eq_filter hjoin, happend, hpath]
  case isFalse =>
    have hjoin : (path ++ "/" ++ name).toList = path.toList ++ '/' :: name.toList := by
      rw [String.toList_append, String.toList_append, List.append_assoc]
      rfl
    rw [parts_eq_filter hjoin, happend]
    rfl

theorem fileName?_join (h : IsEntryName name) : fileName? (join path name) = some name := by
  have hlast : ((parts (join path name)).filter (· != ".")).getLast? = some name := by
    rw [parts_join h, List.filter_append]
    simp [h.notDot]
  rw [fileName?, hlast]
  split
  · rename_i hdots
    exact absurd (Option.some.inj hdots) h.notDots
  · rfl

theorem extension?_join (h : IsEntryName name) :
    extension? (join path name) = (cut? name).map (·.2) := by
  rw [extension?, fileName?_join h, Option.bind_eq_bind, Option.bind_some]
  cases cut? name <;> rfl

end Parts

section Stems

/-- A name is cut into the stem before its last dot and the extension behind it. -/
theorem cut?_eq_some_iff : cut? name = some (stem, extension) ↔ name ≠ ".." ∧
    name = stem ++ "." ++ extension ∧ stem ≠ "" ∧ '.' ∉ extension.toList := by
  have hspelled : name = stem ++ "." ++ extension ↔
      name.toList.reverse = extension.toList.reverse ++ '.' :: stem.toList.reverse := by
    rw [← String.toList_inj, ← List.reverse_inj]
    simp
  rw [hspelled]
  constructor
  · intro hcut
    dsimp only [cut?] at hcut
    split at hcut
    · cases hcut
    · rename_i c before hbefore
      have hdot : c = '.' := by
        have hhead := List.head?_dropWhile_not (· != '.') name.toList.reverse
        rw [hbefore] at hhead
        simpa using hhead
      subst hdot
      split at hcut
      · cases hcut
      · rename_i hnonempty
        rw [Bool.or_eq_true, not_or, beq_iff_eq, List.isEmpty_iff] at hnonempty
        obtain ⟨rfl, rfl⟩ := Prod.mk.inj (Option.some.inj hcut)
        refine ⟨hnonempty.2, ?_, ?_, ?_⟩
        · rw [String.toList_ofList, String.toList_ofList, List.reverse_reverse, List.reverse_reverse,
            ← hbefore, List.takeWhile_append_dropWhile]
        · simpa using hnonempty.1
        · rw [String.toList_ofList, List.mem_reverse]
          intro hmem
          simpa using List.mem_takeWhile_imp hmem
  · rintro ⟨hname, hreverse, hstem, hextension⟩
    have hafter : ∀ c ∈ extension.toList.reverse, (c != '.') = true := by
      intro c hc
      rw [bne_iff_ne]
      rintro rfl
      exact hextension (List.mem_reverse.1 hc)
    rw [cut?, hreverse, List.takeWhile_append_of_pos hafter, List.dropWhile_append_of_pos hafter]
    simp [hname, hstem]

theorem stem_of_cut? (h : cut? name = some (stem, extension)) (hstem : stem ≠ ".") :
    Path.stem name = stem := by
  rw [Path.stem, h]
  split
  · rename_i heq
    cases heq
    exact absurd rfl hstem
  · rename_i heq
    cases heq
    rfl
  · rename_i heq
    cases heq

end Stems

/-- The path of what names lead to. -/
def below (path : String) (names : List String) : String := names.foldl join path

theorem toList_join (path name : String) : ∃ slash, (slash = [] ∨ slash = ['/']) ∧
    (join path name).toList = path.toList ++ slash ++ name.toList := by
  rw [join]
  split
  · exact ⟨[], .inl rfl, by simp⟩
  · exact ⟨['/'], .inr rfl, by simp⟩

/-- A path can be followed as far as its own characters go, if it can be as far as it begins and the
names are those of entries. -/
theorem below_followable {names : List String} (hnames : ∀ name ∈ names, IsEntryName name)
    (hempty : path ≠ "") (hnul : '\x00' ∉ path.toList) :
    below path names ≠ "" ∧ '\x00' ∉ (below path names).toList := by
  induction names generalizing path with
  | nil => exact ⟨hempty, hnul⟩
  | cons name names ih =>
      obtain ⟨hname, hrest⟩ := List.forall_mem_cons.1 hnames
      obtain ⟨slash, hslash, hjoin⟩ := toList_join path name
      apply ih hrest
      · intro h
        rw [h] at hjoin
        simp_all
      · rw [hjoin]
        rintro hmem
        obtain rfl | rfl := hslash <;> simp_all [hname.noNul]

end Path

theorem FileTree.checkPath_eq_ok_iff {path : String} : checkPath path = .ok () ↔
    '\x00' ∉ path.toList ∧ path ≠ "" ∧ path.utf8ByteSize ≤ Path.sizeLimit := by
  rw [checkPath]
  split
  · simp_all
  · split
    · simp_all
    · split <;> simp_all

end Stencil
