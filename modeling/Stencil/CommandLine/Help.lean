/-!
# Pages of help

What is told to those who ask for help: on the program as a whole, or on one of its commands.
-/

namespace Stencil.CommandLine

/-- What help can be asked for. -/
inductive Topic where
  | program
  | list
  | render
  | lint
  | tokens
  | help
  deriving DecidableEq, Repr

namespace Topic

/-- The commands, by their names. -/
def commands : List (String × Topic) :=
  [("list", list), ("render", render), ("lint", lint), ("tokens", tokens), ("help", help)]

def ofCommand? (name : String) : Option Topic := commands.lookup name

/-- What the topic is about, in one line. -/
def about : Topic → String
  | program => "ez-ssr CLI - server-side component rendering"
  | list => "List components and what they include"
  | render => "Render a component"
  | lint => "Report malformed constructs and unresolved inclusions (exit 2 on malformed)"
  | tokens => "Dump the token stream of a component"
  | help => "Print this message or the help of the given subcommand(s)"

/-- What may stand behind the name of the program. -/
def usage : Topic → String
  | program => "[OPTIONS] <COMMAND>"
  | list => "list"
  | render => "render [OPTIONS] --name <NAME>"
  | lint => "lint"
  | tokens => "tokens --name <NAME>"
  | help => "help [COMMAND]..."

/-- A name with blanks behind it, up to the width of the longest command. -/
def padded (name : String) : String :=
  name ++ String.ofList (List.replicate (6 - name.length) ' ')

/-- The lines on what the usage names. -/
def details : Topic → List String
  | program =>
      "Commands:" :: commands.map (fun c => "  " ++ padded c.1 ++ "  " ++ c.2.about)
        ++ ["",
          "Options:",
          "  -d, --components-dir <COMPONENTS_DIR>",
          "          Path to the components directory (overrides the config file)",
          "  -c, --config <CONFIG>",
          "          JSON config file (EngineConfig)",
          "  -h, --help",
          "          Print help"]
  | list | lint =>
      ["Options:",
        "  -h, --help  Print help"]
  | render =>
      ["Options:",
        "  -n, --name <NAME>    Component name, e.g. widgets/card",
        "  -p, --props <PROPS>  JSON object used as the root props [default: \x7b\x7d]",
        "  -h, --help           Print help"]
  | tokens =>
      ["Options:",
        "  -n, --name <NAME>  ",
        "  -h, --help         Print help"]
  | help =>
      ["Arguments:",
        "  [COMMAND]...  Print help for the subcommand(s)"]

/-- The page on a topic. -/
def page (topic : Topic) : String :=
  let lines := [topic.about, "", "Usage: ez-ssr-cli " ++ topic.usage, ""] ++ topic.details
  String.join (lines.map (· ++ "\n"))

end Topic

end Stencil.CommandLine
