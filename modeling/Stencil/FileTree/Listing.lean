import Stencil.FileTree.Basic

/-!
# Listings of file trees

A listing names everything below a directory. An entry is three fields, each ended by a NUL: its
kind, its path, and the target of a link. No path and no target can hold a NUL, so a listing can be
read in one way only.
-/

namespace Stencil.FileTree

inductive Listed where
  | file (path : String)
  | directory (path : String)
  | link (path target : String)
  deriving DecidableEq, Repr

namespace Listed

/-- What an entry of the kind `f`, `d` or `l` says; other kinds are no part of a tree. -/
def ofKind? (kind path target : String) : Option Listed :=
  match kind with
  | "f" => some (file path)
  | "d" => some (directory path)
  | "l" => some (link path target)
  | _ => none

def ofFields : List String → List Listed
  | kind :: path :: target :: rest => (ofKind? kind path target).toList ++ ofFields rest
  | _ => []

def ofListing (listing : String) : List Listed := ofFields (listing.splitOn "\x00")

end Listed

end Stencil.FileTree
