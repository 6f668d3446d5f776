import Stencil.Dictionary
import Stencil.Path

/-!
# File trees

The files below a working directory as one value: files with their bytes, directories, and symbolic
links. A location is named by the names that lead to it from the top, with no link on the way. Paths
are followed to locations, through no more links than a limit allows. What lies outside of the tree
is taken for empty directories.
-/

namespace Stencil

/-- The entries of a directory stand in strictly ascending order of their names. -/
inductive FileTree where
  | file (content : ByteArray)
  | directory (entries : List (String × FileTree))
  | link (target : String)
  deriving Inhabited

/-- Why a path could not be followed or read. -/
inductive FileError where
  | notFound
  | notDirectory
  | isDirectory
  | tooManyLinks
  | nameTooLong
  | nulCharacter
  | notUtf8
  deriving DecidableEq, Repr

def FileError.message : FileError → String
  | notFound => "No such file or directory (os error 2)"
  | notDirectory => "Not a directory (os error 20)"
  | isDirectory => "Is a directory (os error 21)"
  | tooManyLinks => "Too many levels of symbolic links (os error 40)"
  | nameTooLong => "File name too long (os error 36)"
  | nulCharacter => "file name contained an unexpected NUL byte"
  | notUtf8 => "stream did not contain valid UTF-8"

/-- A place that no link leads to: outside of a tree, or below its top by way of names. -/
inductive Location where
  | outside
  | below (names : List String)
  deriving DecidableEq, Repr

namespace Location

def top : Location := .below []

def child (name : String) : Location → Location
  | outside => outside
  | below names => below (names ++ [name])

/-- The directory around a location. -/
def parent : Location → Location
  | outside => outside
  | below [] => outside
  | below names => below names.dropLast

/-- Where the steps of a path begin for one who is at a location. -/
def startOf (here : Location) (path : String) : Location :=
  if Path.isAbsolute path then outside else here

end Location

namespace FileTree

def empty : FileTree := .directory []

def entries? : FileTree → Option (List (String × FileTree))
  | .directory entries => some entries
  | _ => none

/-- What names lead to. -/
def below? (tree : FileTree) : List String → Option FileTree
  | [] => some tree
  | name :: rest =>
      match tree with
      | .directory entries =>
          match entries.lookup name with
          | some child => child.below? rest
          | none => none
      | _ => none

/-- What stands at a location. -/
def at? (tree : FileTree) : Location → Option FileTree
  | .outside => some .empty
  | .below names => tree.below? names

/-- What becomes of a link at the end of a path, and whether the last name may be a new one. -/
structure Manner where
  followLast : Bool
  mayCreate : Bool

def Manner.reading : Manner := ⟨true, false⟩

/-- The entries among which the next step is looked for. -/
def entriesAt? (tree : FileTree) (here : Location) : Option (List (String × FileTree)) :=
  (tree.at? here).bind entries?

/-- Follow steps from a location, with a number of links that may be followed on the way. Gives the
location they lead to and the number of links that are left. -/
def follow (tree : FileTree) (manner : Manner) (links : Nat) (here : Location)
    (steps : List String) : Except FileError (Location × Nat) :=
  match steps with
  | [] => .ok (here, links)
  | step :: rest =>
      match tree.entriesAt? here with
      | none => .error .notDirectory
      | some entries =>
          if step == "." then tree.follow manner links here rest
          else if step == ".." then tree.follow manner links here.parent rest
          else if Path.nameLimit < step.utf8ByteSize then .error .nameTooLong
          else
            match entries.lookup step with
            | none =>
                if rest.isEmpty && manner.mayCreate then .ok (here.child step, links)
                else .error .notFound
            | some (.link target) =>
                if rest.isEmpty && !manner.followLast then .ok (here.child step, links)
                else
                  match links with
                  | 0 => .error .tooManyLinks
                  | links + 1 =>
                      tree.follow manner links (here.startOf target) (Path.steps target ++ rest)
            | some _ => tree.follow manner links (here.child step) rest
termination_by (links, steps.length)

/-- Links are used up on the way. -/
theorem follow_le {tree : FileTree} {manner : Manner} {links : Nat} {here : Location}
    {steps : List String} {location : Location} {left : Nat}
    (h : tree.follow manner links here steps = .ok (location, left)) : left ≤ links := by
  fun_induction follow tree manner links here steps <;> simp_all
  all_goals omega

/-- Forty links may be followed on the way. -/
def linkLimit : Nat := 40

/-- Whether a path can be followed at all. -/
def checkPath (path : String) : Except FileError Unit :=
  if path.toList.contains '\x00' then .error .nulCharacter
  else if path.isEmpty then .error .notFound
  else if Path.sizeLimit < path.utf8ByteSize then .error .nameTooLong
  else .ok ()

/-- The location of a path that starts at the top, with the number of links that are left. -/
def find (tree : FileTree) (manner : Manner) (path : String) :
    Except FileError (Location × Nat) := do
  checkPath path
  tree.follow manner linkLimit (Location.top.startOf path) (Path.steps path)

/-- The file or directory that a path leads to. -/
def target (tree : FileTree) (path : String) : Except FileError FileTree := do
  let (location, _) ← tree.find .reading path
  match tree.at? location with
  | some node => .ok node
  | none => .error .notFound

def exists? (tree : FileTree) (path : String) : Bool := (tree.target path).toBool

/-- Bytes as text. -/
def decode (content : ByteArray) : Except FileError String :=
  match String.fromUTF8? content with
  | some text => .ok text
  | none => .error .notUtf8

/-- The text of the file that a path leads to. -/
def readText (tree : FileTree) (path : String) : Except FileError String := do
  match ← tree.target path with
  | .file content => decode content
  | _ => .error .isDirectory

/-- Put a tree where names lead, in place of what is there. -/
def putBelow (new : FileTree) : List String → FileTree → FileTree
  | [], _ => new
  | name :: rest, tree =>
      let entries := tree.entries?.getD []
      .directory (Dictionary.insertEntry name
        (new.putBelow rest ((entries.lookup name).getD .empty)) entries)

/-- Put a tree at a location; outside nothing is put. -/
def putAt (tree : FileTree) (new : FileTree) : Location → FileTree
  | .outside => tree
  | .below names => new.putBelow names tree

/-- Make a directory where steps lead, unless something is there. The directories on the way to it
are there. -/
def makeDirectory (tree : FileTree) (start : Location) (steps : List String) : FileTree :=
  match tree.follow ⟨false, true⟩ linkLimit start steps with
  | .ok (location, _) =>
      if (tree.at? location).isSome then tree else tree.putAt .empty location
  | .error _ => tree

/-- Make the directories that steps lead through, the first before the next. A directory that a
later step leaves again is made as well. -/
def makeDirectories (tree : FileTree) (start : Location) (steps : List String) : FileTree :=
  (List.range steps.length).foldl (fun tree n => tree.makeDirectory start (steps.take (n + 1))) tree

def eraseAt : List String → FileTree → FileTree
  | [name], .directory entries => .directory (entries.filter (·.1 != name))
  | name :: rest, .directory entries =>
      match entries.lookup name with
      | some child => .directory (Dictionary.insertEntry name (child.eraseAt rest) entries)
      | none => .directory entries
  | _, tree => tree

/-- Write a directory at a path, with the directories it lies in. -/
def writeDirectory (tree : FileTree) (path : String) : FileTree :=
  tree.makeDirectories (Location.top.startOf path) (Path.parts path)

/-- Write at a path, with the directories around it. Nothing is written in place of a directory. -/
def write (tree : FileTree) (manner : Manner) (path : String) (new : FileTree) : FileTree :=
  let tree := tree.makeDirectories (Location.top.startOf path) (Path.parts path).dropLast
  match tree.find manner path with
  | .ok (location, _) =>
      if (tree.entriesAt? location).isSome then tree else tree.putAt new location
  | .error _ => tree

/-- Write a file. At the end of links it is written where they lead. -/
def writeFile (tree : FileTree) (path : String) (content : ByteArray) : FileTree :=
  tree.write ⟨true, true⟩ path (.file content)

def writeLink (tree : FileTree) (path target : String) : FileTree :=
  tree.write ⟨false, true⟩ path (.link target)

/-- Remove what stands at a path; a link is removed itself. -/
def remove (tree : FileTree) (path : String) : FileTree :=
  match tree.find ⟨false, false⟩ path with
  | .ok (.below names, _) => tree.eraseAt names
  | _ => tree

end FileTree

end Stencil
