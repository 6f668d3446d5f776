import Stencil.Proofs.ByteLexing
import Stencil.Proofs.Walking
import Stencil.Registry.Load

/-!
# One lexer for all files

A load lexes every file with the same lexer, whose buffers live on from one file to the next. Each
file is lexed as by a lexer of its own (`Lexer.lex_eq`), so the load ends as one in which a component
is made out of its source alone (`Registry.loadSharing_corresponds`).
-/

namespace Stencil

/-- The buffers of a lexer. -/
structure Lexer where
  tokens : List Token
  recovered : List Recovery
  literal : String
  deriving DecidableEq, Repr

namespace Lexer

/-- A lexer that has not lexed anything yet. -/
def fresh : Lexer := ⟨[], [], ""⟩

def clear (lexer : Lexer) : Lexer := { lexer with tokens := [], recovered := [], literal := "" }

/-- The state at the beginning of a source. -/
def state (lexer : Lexer) : ByteLexer.State :=
  ⟨lexer.tokens, lexer.recovered, lexer.literal, 0, false, none⟩

/-- Lex a source, with what the lexer is left as. Tokens and recoveries are taken out of it. -/
def lex (lexer : Lexer) (source : String) : Option (Lexed × Lexer) := do
  let bytes := (utf8Bytes source).map Char.ofUInt8
  let s ← ByteLexer.loop source bytes lexer.clear.state 0
  let s ← ByteLexer.flushRun source s bytes.length
  let s := s.flushLiteral
  some (⟨s.tokens, s.recovered⟩, ⟨[], [], s.literal⟩)

/-- Whatever is in its buffers, a lexer gives the lexed source and is left as a fresh one. -/
theorem lex_eq (lexer : Lexer) (source : String) :
    lexer.lex source = some (Stencil.lex source, fresh) := by
  obtain ⟨s, hloop, hfinish⟩ := Option.bind_eq_some_iff.1 (ByteLexer.lex_eq source)
  obtain ⟨t, hflush, hlexed⟩ := Option.map_eq_some_iff.1 hfinish
  rw [← hlexed]
  exact Option.bind_eq_some_iff.2 ⟨s, hloop, Option.bind_eq_some_iff.2 ⟨t, hflush, rfl⟩⟩

end Lexer

/-- What is kept of a component: its tokens and recoveries, and a hash in the place of its source. -/
structure Entry where
  tokens : List Token
  recovered : List Recovery
  hash : String
  deriving DecidableEq, Repr

/-- The entry of a source, with what the lexer is left as. -/
def Lexer.entry (lexer : Lexer) (source : String) : Option (Entry × Lexer) :=
  (lexer.lex source).map fun (lexed, lexer) =>
    (⟨lexed.tokens, lexed.recovered, Sha256.hexOfText source⟩, lexer)

def Component.entry (c : Component) : Entry := ⟨c.tokens, c.recovered, c.hash⟩

theorem Lexer.entry_eq (lexer : Lexer) (source : String) :
    lexer.entry source = some ((Component.ofSource source).entry, .fresh) := by
  rw [entry, lex_eq]
  rfl

namespace Registry

/-- Why a load with one lexer ends: like any load, or because a text has been cut where it cannot
be. -/
inductive SharedError where
  | load (cause : LoadError)
  | cut (path : String)
  deriving DecidableEq, Repr

/-- Keep the entry of a file that is accepted, lexed by the lexer that is handed on. -/
def addShared (config : Config) (shared : Lexer × Dictionary Entry) (file : FoundFile) :
    Except SharedError (Lexer × Dictionary Entry) :=
  if config.accepts file.path then
    match file.text with
    | .ok source =>
        match shared.1.entry source with
        | some (entry, lexer) => .ok (lexer, shared.2.insert (componentName file.names) entry)
        | none => .error (.cut file.path)
    | .error e => .error (.load (.read file.path e))
  else .ok shared

/-- The entries of a directory, lexed one file after the other by one lexer. -/
def loadSharing (lexer : Lexer) (config : Config) (tree : FileTree) :
    Except SharedError (Lexer × Dictionary Entry) :=
  if tree.exists? config.componentsDir then
    tree.walk config.followSymlinks config.componentsDir ⟨addShared config, fun e => .load (.walk e)⟩
      (lexer, .empty)
  else .ok (lexer, .empty)

/-- The entries of the components of a registry. -/
def entries (registry : Registry) : Dictionary Entry :=
  registry.components.mapValues Component.entry

theorem entries_register (registry : Registry) (name source : String) :
    (registry.register name source).entries =
      registry.entries.insert name (Component.ofSource source).entry :=
  Dictionary.mapValues_insert _ _ _ _

theorem addShared_corresponds (config : Config) {registry : Registry}
    {shared : Lexer × Dictionary Entry} (h : shared.2 = registry.entries) (file : FoundFile) :
    Corresponds (fun registry shared => shared.2 = registry.entries) SharedError.load
      (addFile config registry file) (addShared config shared file) := by
  rw [addFile, addShared]
  split
  · cases file.text with
    | ok source =>
        dsimp only
        rw [Lexer.entry_eq]
        apply Corresponds.ok
        rw [entries_register, ← h]
    | error e => exact .error
  · exact .ok h

/-- A load with one lexer ends as any load does, with the same entries. -/
theorem loadSharing_corresponds (lexer : Lexer) (config : Config) (tree : FileTree) :
    Corresponds (fun registry shared => shared.2 = registry.entries) SharedError.load
      (load config tree) (loadSharing lexer config tree) := by
  rw [load, loadSharing]
  split
  · apply FileTree.walk_corresponds ⟨?_, fun e => rfl⟩
    · rfl
    · intro registry shared h file
      exact addShared_corresponds config h file
  · exact .ok rfl

end Registry

end Stencil
