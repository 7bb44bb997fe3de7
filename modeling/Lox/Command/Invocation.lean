import Lox.Machine.Operations

/-!
# Invocations

    rox [OPTIONS] [tokenize | parse | evaluate | run | repl] [OPTIONS] [FILE]

The options `--log`, `--log-file PATH` and `--max-call-depth N` may stand before or after the
command, and `--json` after `tokenize` and `parse`. A value follows its option as the next argument
or after an equals sign. After `--` nothing is an option or a command. An option given twice on one
side of the command is refused; given on both sides, the one after the command counts.

Arguments are read one by one, and the first that cannot be understood, or that asks for help or the
version, decides.
-/

namespace Lox

/-- What the program is asked to do. -/
inductive Subcommand where
  | tokenize
  | parse
  | evaluate
  | run
  | repl
  deriving DecidableEq, Repr

namespace Subcommand

/-- The name of a command. -/
def name : Subcommand → String
  | tokenize => "tokenize"
  | parse => "parse"
  | evaluate => "evaluate"
  | run => "run"
  | repl => "repl"

/-- All commands. -/
def all : List Subcommand := [tokenize, parse, evaluate, run, repl]

/-- The command of a name. -/
def ofName? (name : String) : Option Subcommand :=
  all.find? fun c => c.name == name

/-- Whether a command can write JSON. -/
def hasJson : Subcommand → Bool
  | tokenize | parse => true
  | _ => false

/-- Whether a command takes a file. -/
def hasFile : Subcommand → Bool
  | repl => false
  | _ => true

end Subcommand

/-- What help is asked for. -/
inductive Topic where
  /-- The program as a whole. -/
  | program
  | command (c : Subcommand)
  /-- Help itself. -/
  | help
  deriving DecidableEq, Repr

/-- Why arguments do not ask for something to be run. -/
inductive Refusal where
  /-- The arguments cannot be understood. -/
  | usage
  /-- The version is asked for. -/
  | version
  /-- Help is asked for. -/
  | help (topic : Topic)
  deriving DecidableEq, Repr

/-! ## One argument -/

/-- An option that has a value. -/
inductive Setting where
  | logFile
  | maxCallDepth
  deriving DecidableEq, Repr

/-- The option of a name. -/
def Setting.ofName? (name : String) : Option Setting :=
  if name = "log-file" then some logFile
  else if name = "max-call-depth" then some maxCallDepth
  else none

/-- An argument by its form. -/
inductive Argument where
  /-- Two hyphens alone. -/
  | separator
  /-- Two hyphens and a name, and what follows the first equals sign. -/
  | long (name : String) (value : Option String)
  /-- A hyphen and a letter; what follows does not matter. -/
  | short (letter : Char)
  | word (text : String)
  deriving DecidableEq, Repr

namespace Argument

/-- An option by the characters after its two hyphens. -/
def ofLong (cs : List Char) : Argument :=
  match cs.dropWhile (· ≠ '=') with
  | [] => long (String.ofList cs) none
  | _ :: value => long (String.ofList (cs.takeWhile (· ≠ '='))) (some (String.ofList value))

/-- The form of an argument. A hyphen alone is a word. -/
def ofString (s : String) : Argument :=
  match s.toList with
  | ['-', '-'] => separator
  | '-' :: '-' :: cs => ofLong cs
  | '-' :: letter :: _ => short letter
  | _ => word s

/-- A whole number below `2 ^ 64` in decimal digits, with a plus sign before them or without. -/
def number? (s : String) : Option Nat :=
  let digits := match s.toList with
    | '+' :: rest => rest
    | cs => cs
  let n := digits.foldl (fun n c => 10 * n + (c.toNat - '0'.toNat)) 0
  if digits.isEmpty || !digits.all Char.isDigit || Nat.pow 2 64 ≤ n then none else some n

end Argument

/-! ## The arguments on one side of the command -/

/-- What the arguments on one side of the command say. -/
structure Given where
  log : Bool
  logFile : Option String
  maxCallDepth : Option Nat
  json : Bool
  file : Option String
  deriving DecidableEq, Repr

namespace Given

/-- What no argument says. -/
def nothing : Given := ⟨false, none, none, false, none⟩

/-- Takes an option with its value. There may be one log file, which has a name, and one number of
calls. -/
def set (g : Given) (value : String) : Setting → Except Refusal Given
  | .logFile =>
    if g.logFile.isSome || value.isEmpty then .error .usage
    else .ok { g with logFile := some value }
  | .maxCallDepth =>
    match g.maxCallDepth, Argument.number? value with
    | none, some n => .ok { g with maxCallDepth := some n }
    | _, _ => .error .usage

/-- Takes an option without a value. `command` is the command before it. -/
def setFlag (g : Given) (command : Option Subcommand) (name : String) : Except Refusal Given :=
  if name = "log" then
    if g.log then .error .usage else .ok { g with log := true }
  else if name = "json" then
    if g.json || !command.any Subcommand.hasJson then .error .usage else .ok { g with json := true }
  else if name = "help" then .error (.help (command.elim .program .command))
  else if name = "version" && command.isNone then .error .version
  else .error .usage

/-- Takes a file, if the command before it has one and there is none yet. -/
def setFile (g : Given) (command : Option Subcommand) (path : String) : Except Refusal Given :=
  if command.any Subcommand.hasFile && g.file.isNone && !path.isEmpty then
    .ok { g with file := some path }
  else .error .usage

end Given

/-- What is read of the arguments on one side of the command. -/
structure Arguments where
  given : Given
  /-- The option whose value is the next argument. -/
  pending : Option Setting
  /-- Whether `--` has been read. -/
  plain : Bool
  deriving DecidableEq, Repr

namespace Arguments

/-- Before any argument. -/
def start : Arguments := ⟨Given.nothing, none, false⟩

/-- What is read when an argument says `g`. -/
def take (r : Arguments) (g : Except Refusal Given) : Except Refusal Arguments :=
  match g with
  | .ok g => .ok { r with given := g, pending := none }
  | .error e => .error e

/-- Reads an option with two hyphens. -/
def long (r : Arguments) (command : Option Subcommand) (name : String) (value : Option String) :
    Except Refusal Arguments :=
  match Setting.ofName? name, value with
  | some s, some v => r.take (r.given.set v s)
  | some s, none => .ok { r with pending := some s }
  | none, some _ => .error .usage
  | none, none => r.take (r.given.setFlag command name)

/-- Reads options with one hyphen: the first letter decides. -/
def short (command : Option Subcommand) (letter : Char) : Refusal :=
  if letter = 'h' then .help (command.elim .program .command)
  else if letter = 'V' && command.isNone then .version
  else .usage

/-- Reads an argument. -/
def step (r : Arguments) (command : Option Subcommand) (argument : String) :
    Except Refusal Arguments :=
  if r.plain then r.take (r.given.setFile command argument)
  else
    match r.pending, Argument.ofString argument with
    | some s, .word text => r.take (r.given.set text s)
    | some _, _ => .error .usage
    | none, .separator => .ok { r with plain := true }
    | none, .long name value => r.long command name value
    | none, .short letter => .error (short command letter)
    | none, .word text => r.take (r.given.setFile command text)

/-- What all arguments together say. The value of an option may not be missing. -/
def finish (r : Arguments) : Except Refusal Given :=
  match r.pending with
  | none => .ok r.given
  | some _ => .error .usage

/-- Whether an argument can be the name of a command. -/
def admitsCommand (r : Arguments) : Bool :=
  !r.plain && r.pending.isNone

/-- Reads the arguments after the command. -/
def after (command : Subcommand) (r : Arguments) : List String → Except Refusal Given
  | [] => r.finish
  | a :: rest =>
    match r.step (some command) a with
    | .ok r => r.after command rest
    | .error e => .error e

end Arguments

/-! ## All arguments -/

/-- What the program is asked to do, and how. -/
structure Invocation where
  command : Subcommand
  file : Option String
  json : Bool
  /-- The file to log to, if there is to be a log. -/
  log : Option String
  maxCallDepth : Nat
  deriving DecidableEq, Repr

namespace Invocation

/-- The log file if none is named. -/
def defaultLogFile : String := "app.log"

/-- Puts together what the arguments before and after the command say. -/
def combine (command : Subcommand) (before after : Given) : Invocation :=
  { command := command
    file := after.file
    json := after.json
    log :=
      if before.log || after.log then some ((after.logFile <|> before.logFile).getD defaultLogFile)
      else none
    maxCallDepth :=
      (after.maxCallDepth <|> before.maxCallDepth).getD Interpreter.defaultMaxCallDepth }

/-- What help is asked for by the arguments after `help`. -/
def helpOn : List String → Refusal
  | [] => .help .program
  | [name] =>
    if name = "help" then .help .help
    else match Subcommand.ofName? name with
      | some c => .help (.command c)
      | none => .usage
  | _ => .usage

/-- Reads all arguments, of which `r` are read already and stand before the command. -/
def read (r : Arguments) : List String → Except Refusal Invocation
  | [] =>
    match r.finish with
    | .ok before => .ok (combine .repl before Given.nothing)
    | .error e => .error e
  | a :: rest =>
    if r.admitsCommand && a == "help" then .error (helpOn rest)
    else match (if r.admitsCommand then Subcommand.ofName? a else none) with
      | some command =>
        match Arguments.start.after command rest with
        | .ok after => .ok (combine command r.given after)
        | .error e => .error e
      | none =>
        match r.step none a with
        | .ok r => read r rest
        | .error e => .error e

/-- Reads the arguments of the program. Without a command it reads lines from a prompt. -/
def ofArguments (arguments : List String) : Except Refusal Invocation :=
  read Arguments.start arguments

/-- Whether lines are read from a prompt. -/
def isInteractive (i : Invocation) : Bool :=
  match i.command, i.file with
  | .repl, _ | .run, none => true
  | _, _ => false

end Invocation

end Lox
