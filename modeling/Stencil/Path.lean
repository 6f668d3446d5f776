/-!
# Paths

The rules on paths that need no file: how a path falls into parts, which part names its file, and
what the extension of a name is. Slashes separate parts; empty parts and single dots are no names.
-/

namespace Stencil.Path

/-- A name has at most 255 bytes. -/
def nameLimit : Nat := 255

/-- A path has at most 4095 bytes. -/
def sizeLimit : Nat := 4095

/-- The stretches between slashes. -/
def splitSlash : List Char → List (List Char)
  | [] => [[]]
  | c :: cs =>
      if c = '/' then [] :: splitSlash cs
      else
        match splitSlash cs with
        | [] => [[c]]
        | part :: parts => (c :: part) :: parts

/-- The parts between the slashes that are not empty. -/
def parts (path : String) : List String :=
  ((splitSlash path.toList).filter (!·.isEmpty)).map String.ofList

def isAbsolute (path : String) : Bool := path.toList.head? == some '/'

def endsInSlash (path : String) : Bool := path.toList.getLast? == some '/'

/-- The steps that a path asks to be taken. A slash at the end asks for a directory, as a step to
the directory itself does. -/
def steps (path : String) : List String :=
  parts path ++ if endsInSlash path then ["."] else []

/-- A path with a name below it. -/
def join (path name : String) : String :=
  if endsInSlash path then path ++ name else path ++ "/" ++ name

/-- The last part that is a name, if the path ends in one. -/
def fileName? (path : String) : Option String :=
  match ((parts path).filter (· != ".")).getLast? with
  | some ".." => none
  | last => last

/-- A name cut at its last dot, which may not be its first character. -/
def cut? (name : String) : Option (String × String) :=
  let reversed := name.toList.reverse
  let after := reversed.takeWhile (· != '.')
  match reversed.dropWhile (· != '.') with
  | [] => none
  | _ :: before =>
      if before.isEmpty || name == ".." then none
      else some (String.ofList before.reverse, String.ofList after.reverse)

def extension? (path : String) : Option String := do
  let (_, extension) ← cut? (← fileName? path)
  some extension

/-- A name without its extension. One that would be left as a single dot is left as two. -/
def stem (name : String) : String :=
  match cut? name with
  | some (".", _) => ".."
  | some (before, _) => before
  | none => name

end Stencil.Path
