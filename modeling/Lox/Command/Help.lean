import Lox.Command.Invocation

/-!
# Help

How the program, a command or help itself is used: what it is for, its usage, and its commands,
arguments and options in two columns.
-/

namespace Lox

namespace Help

/-- Rows of two columns under a title. The first column is as wide as its longest entry. -/
def table (title : String) (rows : List (String × String)) : String :=
  let width := (rows.map fun r => r.1.length).foldl max 0
  let row (r : String × String) : String :=
    "  " ++ r.1 ++ String.ofList (List.replicate (width - r.1.length) ' ') ++ "  " ++ r.2 ++ "\n"
  "\n" ++ title ++ ":\n" ++ String.join (rows.map row)

/-- What a command is for. -/
def purpose : Subcommand → String
  | .tokenize => "Tokenizes input from a file, printing each token"
  | .parse => "Parses a program and prints its AST"
  | .evaluate => "Evaluates input from a file as a single expression and prints the result"
  | .run => "Runs input from a file as a program (starts the REPL without a file)"
  | .repl => "Interactive prompt; definitions persist between lines"

/-- What help is for. -/
def helpPurpose : String := "Print this message or the help of the given subcommand(s)"

/-- The options that may stand before and after a command. -/
def sharedOptions : List (String × String) :=
  [("    --log", "Enable logging to a file (app.log unless --log-file is given)"),
    ("    --log-file <PATH>", "Where --log writes [default: " ++ Invocation.defaultLogFile ++ "]"),
    ("    --max-call-depth <N>",
      "Nested calls allowed before a program fails with \"Stack overflow.\" [default: "
        ++ toString Interpreter.defaultMaxCallDepth ++ "]")]

/-- The option that asks for help. -/
def helpOption : String × String := ("-h, --help", "Print help")

/-- The option that asks for JSON. -/
def jsonOption : Subcommand → List (String × String)
  | .tokenize => [("    --json", "Print tokens as JSON, one per line")]
  | .parse => [("    --json", "Print the AST as JSON")]
  | _ => []

/-- Help on the program. -/
def program : String :=
  "Rox: a tree-walking Lox interpreter\n\nUsage: rox [OPTIONS] [COMMAND]\n"
    ++ table "Commands"
      (Subcommand.all.map (fun c => (c.name, purpose c)) ++ [("help", helpPurpose)])
    ++ table "Options" (sharedOptions ++ [helpOption, ("-V, --version", "Print version")])

/-- Help on a command. -/
def command (c : Subcommand) : String :=
  purpose c ++ "\n\nUsage: rox " ++ c.name ++ " [OPTIONS]"
    ++ (if c.hasFile then " [FILENAME]\n" ++ table "Arguments" [("[FILENAME]", "")] else "\n")
    ++ table "Options" (jsonOption c ++ sharedOptions ++ [helpOption])

/-- Help on help. -/
def help : String :=
  helpPurpose ++ "\n\nUsage: rox help [COMMAND]...\n"
    ++ table "Arguments" [("[COMMAND]...", "Print help for the subcommand(s)")]

end Help

/-- The help on a topic. -/
def Topic.text : Topic → String
  | program => Help.program
  | command c => Help.command c
  | help => Help.help

end Lox
