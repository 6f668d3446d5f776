import Stencil.FileTree.Basic

/-!
# Walking a file tree

A walk takes in the files below a path one after the other, the entries of a directory in the order
of their names and each with all that lies below it. The path itself may be a link. Links below it
are passed over, or followed unless they lead back into a directory that the walk is in; all links on
a path together are held to the limit. The first fault ends the walk, and nothing behind it is
looked at.
-/

namespace Stencil

/-- A file with the path that the walk took and the names on it below the start. -/
structure FoundFile where
  path : String
  names : List String
  content : ByteArray

/-- The text of a file, if its path is not too long to be read by. -/
def FoundFile.text (file : FoundFile) : Except FileError String := do
  FileTree.checkPath file.path
  FileTree.decode file.content

inductive WalkError where
  | access (path : String) (cause : FileError)
  | loop (path ancestor : String)
  deriving DecidableEq, Repr

def WalkError.message : WalkError → String
  | access path cause => "IO error for operation on " ++ path ++ ": " ++ cause.message
  | loop path ancestor =>
      "File system loop found: " ++ path ++ " points to an ancestor " ++ ancestor

/-- What is made of a walk: how a file is taken in, and what error a fault of the walk is. -/
structure Visitor (σ ε : Type) where
  take : σ → FoundFile → Except ε σ
  fault : WalkError → ε

/-- Where a walk is: its path, the names below the start, the location, and the directories around
it with their paths, the innermost first. -/
structure WalkPlace where
  path : String
  names : List String
  location : Location
  around : List (Location × String)

namespace WalkPlace

def enter (place : WalkPlace) : WalkPlace :=
  { place with around := (place.location, place.path) :: place.around }

def child (place : WalkPlace) (name : String) : WalkPlace :=
  { place with
    path := Path.join place.path name
    names := place.names ++ [name]
    location := place.location.child name }

end WalkPlace

namespace FileTree

variable {σ ε : Type}

mutual

/-- Take in what lies below a place, where `onLink` is what is done at a link. -/
def visit (v : Visitor σ ε) (onLink : WalkPlace → String → σ → Except ε σ) (place : WalkPlace)
    (tree : FileTree) (s : σ) : Except ε σ :=
  match tree with
  | .file content => v.take s ⟨place.path, place.names, content⟩
  | .directory entries =>
      match checkPath place.path with
      | .error e => .error (v.fault (.access place.path e))
      | .ok () => visitEntries v onLink place.enter entries s
  | .link target => onLink place target s

def visitEntries (v : Visitor σ ε) (onLink : WalkPlace → String → σ → Except ε σ)
    (place : WalkPlace) (entries : List (String × FileTree)) (s : σ) : Except ε σ :=
  match entries with
  | [] => .ok s
  | (name, node) :: rest =>
      match visit v onLink (place.child name) node s with
      | .error e => .error e
      | .ok s => visitEntries v onLink place rest s

end

/-- Take in what a link at a place leads to, with a number of links that may be followed. -/
def visitLink (tree : FileTree) (v : Visitor σ ε) (links : Nat) (place : WalkPlace)
    (target : String) (s : σ) : Except ε σ :=
  match checkPath place.path, links with
  | .error e, _ => .error (v.fault (.access place.path e))
  | .ok (), 0 => .error (v.fault (.access place.path .tooManyLinks))
  | .ok (), links + 1 =>
      match h : tree.follow .reading links (place.location.parent.startOf target)
          (Path.steps target) with
      | .error e => .error (v.fault (.access place.path e))
      | .ok (location, left) =>
          match tree.at? location with
          | some (.directory entries) =>
              match place.around.lookup location with
              | some ancestor => .error (v.fault (.loop place.path ancestor))
              | none =>
                  visitEntries v
                    (fun place target s =>
                      have := follow_le h
                      tree.visitLink v left place target s)
                    { place with location := location }.enter entries s
          | some (.file content) => v.take s ⟨place.path, place.names, content⟩
          | _ => .error (v.fault (.access place.path .notFound))
termination_by links

/-- Walk the files below a path that leads to a file or directory. -/
def walk (tree : FileTree) (followLinks : Bool) (path : String) (v : Visitor σ ε) (s : σ) :
    Except ε σ :=
  match tree.find ⟨false, false⟩ path, tree.find .reading path with
  | .error e, _ => .error (v.fault (.access path e))
  | _, .error e => .error (v.fault (.access path e))
  | .ok (here, _), .ok (location, left) =>
      let onLink := if followLinks then tree.visitLink v left else fun _ _ s => .ok s
      match tree.at? location with
      | some (.file content) =>
          if here = location || followLinks then v.take s ⟨path, [], content⟩ else .ok s
      | some node => visit v onLink ⟨path, [], location, []⟩ node s
      | none => .error (v.fault (.access path .notFound))

end FileTree

end Stencil
