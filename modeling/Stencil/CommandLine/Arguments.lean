import Stencil.CommandLine.Help

/-!
# Command line arguments

A command line is read word by word. Options that belong to the whole program stand before the
command, those of a command behind it. An option takes its value from the same word or from the next
one, which must not look like an option, and may be given once. A value from the next word is judged
when another option comes or the whole line is read, so that a command that asks for help comes first.
-/

namespace Stencil.CommandLine

/-- Why a command line is not run: it is wrong, or it asks for help. -/
inductive Refusal where
  | misused
  | helpAsked (topic : Topic)
  deriving DecidableEq, Repr

/-- An option with its two spellings; some options take no empty value. -/
structure OptionSpec (ι : Type) where
  id : ι
  short : Char
  long : String
  allowsEmpty : Bool

/-- What a word of the command line is to a set of options. -/
inductive Word (ι : Type) where
  /-- an option with its value, if the value is in the same word -/
  | option (spec : OptionSpec ι) (value : Option String)
  | help
  /-- two hyphens, behind which no word is an option -/
  | optionsEnd
  | unknown
  | plain (text : String)

/-- Cut a text at its first equals sign. -/
def cutEquals (cs : List Char) : List Char × Option (List Char) :=
  match cs.dropWhile (· != '=') with
  | [] => (cs, none)
  | _ :: value => (cs.takeWhile (· != '='), some value)

def classify {ι : Type} (specs : List (OptionSpec ι)) (word : String) : Word ι :=
  match word.toList with
  | ['-', '-'] => .optionsEnd
  | '-' :: '-' :: cs =>
      let (name, value) := cutEquals cs
      let name := String.ofList name
      match specs.find? (·.long == name) with
      | some spec => .option spec (value.map String.ofList)
      | none => if name == "help" && value.isNone then .help else .unknown
  | '-' :: c :: cs =>
      match specs.find? (·.short == c) with
      | some spec =>
          match cs with
          | [] => .option spec none
          | '=' :: value => .option spec (some (String.ofList value))
          | value => .option spec (some (String.ofList value))
      | none => if c == 'h' then .help else .unknown
  | _ => .plain word

/-- The options given so far: values that are judged, and one that is not. -/
structure Given (ι : Type) where
  judged : List (ι × String)
  waiting : Option (OptionSpec ι × String)

namespace Given

variable {ι : Type} [DecidableEq ι]

def none : Given ι := ⟨[], .none⟩

/-- Give an option its value, once. -/
def give (given : Given ι) (spec : OptionSpec ι) (value : String) : Except Refusal (Given ι) :=
  if (given.judged.any fun e => e.1 = spec.id) || (value.isEmpty && !spec.allowsEmpty) then
    .error .misused
  else .ok { given with judged := (spec.id, value) :: given.judged }

/-- Judge the value that waits. -/
def settle (given : Given ι) : Except Refusal (Given ι) :=
  match given.waiting with
  | some (spec, value) => give { given with waiting := .none } spec value
  | .none => .ok given

def get? (given : Given ι) (id : ι) : Option String := given.judged.lookup id

def require (given : Given ι) (id : ι) : Except Refusal String :=
  match given.get? id with
  | some value => .ok value
  | .none => .error .misused

end Given

variable {ι : Type} [DecidableEq ι]

/-- Read options up to the first plain word or the end of options, which is left with the words
behind it. Help is asked for on a topic. -/
def readOptions (topic : Topic) (specs : List (OptionSpec ι)) (given : Given ι) :
    List String → Except Refusal (Given ι × List String)
  | [] => .ok (given, [])
  | word :: rest =>
      match classify specs word with
      | .plain _ => .ok (given, word :: rest)
      | .optionsEnd => .ok (given, word :: rest)
      | .unknown => .error .misused
      | .help =>
          match given.settle with
          | .error e => .error e
          | .ok _ => .error (.helpAsked topic)
      | .option spec (some value) =>
          match given.settle.bind (·.give spec value) with
          | .error e => .error e
          | .ok given => readOptions topic specs given rest
      | .option spec none =>
          match rest with
          | [] => .error .misused
          | value :: rest =>
              match classify specs value, given.settle with
              | .plain value, .ok given =>
                  readOptions topic specs { given with waiting := some (spec, value) } rest
              | _, _ => .error .misused

inductive GlobalOption where
  | componentsDir
  | config
  deriving DecidableEq

inductive CommandOption where
  | name
  | props
  deriving DecidableEq

def globalOptions : List (OptionSpec GlobalOption) :=
  [⟨.componentsDir, 'd', "components-dir", false⟩, ⟨.config, 'c', "config", false⟩]

def nameOption : OptionSpec CommandOption := ⟨.name, 'n', "name", true⟩

def propsOption : OptionSpec CommandOption := ⟨.props, 'p', "props", true⟩

inductive Command where
  | list
  | render (name props : String)
  | lint
  | tokens (name : String)
  deriving DecidableEq, Repr

structure Invocation where
  componentsDir : Option String
  config : Option String
  command : Command
  deriving DecidableEq, Repr

/-- Read the options of a command; nothing else may follow it. -/
def commandOptions (topic : Topic) (specs : List (OptionSpec CommandOption))
    (words : List String) : Except Refusal (Given CommandOption) := do
  match ← readOptions topic specs .none words with
  | (given, []) => given.settle
  | (given, ["--"]) => given.settle
  | _ => .error .misused

/-- Props that are not given are an empty object. -/
def noProps : String := "\x7b\x7d"

/-- Read a command. Help on a command is asked for by its name alone. -/
def readCommand : List String → Except Refusal Command
  | "list" :: rest => do let _ ← commandOptions .list [] rest; .ok .list
  | "lint" :: rest => do let _ ← commandOptions .lint [] rest; .ok .lint
  | "tokens" :: rest => do
      let given ← commandOptions .tokens [nameOption] rest
      .ok (.tokens (← given.require .name))
  | "render" :: rest => do
      let given ← commandOptions .render [nameOption, propsOption] rest
      .ok (.render (← given.require .name) ((given.get? .props).getD noProps))
  | ["help"] => .error (.helpAsked .program)
  | ["help", name] =>
      match Topic.ofCommand? name with
      | some topic => .error (.helpAsked topic)
      | none => .error .misused
  | _ => .error .misused

def readWords (words : List String) : Except Refusal Invocation := do
  let (given, rest) ← readOptions .program globalOptions .none words
  let command ← readCommand rest
  let given ← given.settle
  .ok ⟨given.get? .componentsDir, given.get? .config, command⟩

end Stencil.CommandLine
