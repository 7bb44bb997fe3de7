import Lox.Command.Help

/-!
# Effects of a command

What the program leaves behind when it ends: its exit status and what it wrote.
-/

namespace Lox

/-- The exit status of the program and what it wrote. -/
structure Effects where
  exit : Nat
  stdout : String
  stderr : String
  deriving DecidableEq, Repr

/-! ## Failures of the system -/

/-- What the program tried to do outside of the language. -/
inductive Attempt where
  | openFile (path : String)
  | readFile (path : String)
  | createFile (path : String)
  | readLine
  deriving DecidableEq, Repr

/-- The wording of an attempt that failed. -/
def Attempt.message : Attempt → String
  | openFile path => "Failed to open file " ++ Quoted.quote path
  | readFile path => "Failed to read file " ++ Quoted.quote path
  | createFile path => "Failed to create " ++ Quoted.quote path
  | readLine => "Failed to read from stdin"

/-- Why the system refused an attempt. -/
inductive SystemCause where
  | notFound
  | permissionDenied
  /-- The contents cannot be read, as those of a directory. -/
  | noDevice
  /-- A path goes through a file. -/
  | notDirectory
  /-- A directory stands in the place of a file. -/
  | isDirectory
  /-- A path or a name in it has too many bytes. -/
  | nameTooLong
  /-- A line is not UTF-8. -/
  | notUtf8
  | other (message : String)
  deriving DecidableEq, Repr

/-- The wording of a cause. -/
def SystemCause.message : SystemCause → String
  | notFound => "No such file or directory (os error 2)"
  | permissionDenied => "Permission denied (os error 13)"
  | noDevice => "No such device (os error 19)"
  | notDirectory => "Not a directory (os error 20)"
  | isDirectory => "Is a directory (os error 21)"
  | nameTooLong => "File name too long (os error 36)"
  | notUtf8 => "stream did not contain valid UTF-8"
  | other message => message

/-- A failure outside of the language. -/
structure SystemFault where
  attempt : Attempt
  cause : SystemCause
  deriving DecidableEq, Repr

/-- The report of a failure. -/
def SystemFault.text (e : SystemFault) : String :=
  "Error: " ++ e.attempt.message ++ "\n\nCaused by:\n    " ++ e.cause.message ++ "\n"

/-! ## What is written -/

/-- The text of reports, each on lines of its own. -/
def Diagnostic.lines (reports : List Diagnostic) : String :=
  String.join (reports.map fun d => d.text ++ "\n")

namespace Effects

/-- A failure outside of the language ends the program. -/
def ofFault (e : SystemFault) : Effects :=
  ⟨1, "", e.text⟩

/-- Arguments that do not ask for something to be run. -/
def ofRefusal : Refusal → Effects
  | .usage =>
    ⟨2, "", "error: invalid arguments\n\nUsage: rox [OPTIONS] [COMMAND]\n\n" ++
      "For more information, try '--help'.\n"⟩
  | .version => ⟨0, "rox 0.1.0\n", ""⟩
  | .help topic => ⟨0, topic.text, ""⟩

/-- A command that takes a file got none. -/
def noFile : Effects :=
  ⟨0, "No input filepath was provided. Exiting...\n", ""⟩

end Effects

end Lox
