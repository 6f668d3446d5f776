import Stencil.CommandLine.Run
import Stencil.FileTree.Listing
import Std.Time.Format

/-!
# The command line

Runs its arguments against the working directory, whose listing it reads from standard input. The
contents of the files are read from the directory itself.
-/

namespace Stencil.CommandLine

/-- Add what an entry of the listing names, with the bytes of a file. -/
def readListed (tree : FileTree) : FileTree.Listed → IO FileTree
  | .file path => do return tree.writeFile path (← IO.FS.readBinFile path)
  | .directory path => return tree.writeDirectory path
  | .link path target => return tree.writeLink path target

/-- The time at Greenwich. -/
def currentTime : IO String := do
  let now ← Std.Time.Timestamp.now
  return (Std.Time.PlainDateTime.ofWallTime (now.toWallTime .zero)).toLeanDateTimeString ++ "Z"

end Stencil.CommandLine

def main (words : List String) : IO UInt32 := do
  let lines ← (← IO.getStdin).lines
  let listed := Stencil.FileTree.Listed.ofListing ("\n".intercalate lines.toList)
  let tree ← listed.foldlM Stencil.CommandLine.readListed .empty
  let outcome := Stencil.CommandLine.run tree (← Stencil.CommandLine.currentTime) words
  IO.print outcome.output
  return outcome.exitCode.toUInt32
