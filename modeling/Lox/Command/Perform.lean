import Lox.Command.Prompt
import Lox.Syntax.Dump
import Lox.Syntax.Printer

/-!
# Carrying out a command

The effects of the program as a function of its arguments and of what it finds around it. The log
file, if there is to be one, is made before anything else.
-/

namespace Lox

namespace Command

/-! ## Commands on a source -/

/-- Lists the tokens of a source, a line each. -/
def tokenize (json : Bool) (source : List UInt8) : Effects :=
  let scan := Scan.ofSource source
  let line (t : Token) : String := (if json then t.toJson.compact else t.display) ++ "\n"
  { exit := if scan.errors.isEmpty then 0 else Outcome.syntaxError.exitCode
    stdout := String.join (scan.tokens.map line)
    stderr := Diagnostic.lines (scan.errors.map LexError.diagnostic) }

/-- Shows the tree of a source without errors. -/
def parse (json : Bool) (source : List UInt8) : Effects :=
  let scan := Scan.ofSource source
  let parse := Parse.ofTokens scan.tokens 0
  let reports := scan.errors.map LexError.diagnostic ++ parse.errors.map ParseError.diagnostic
  if reports.isEmpty then
    let tree := if json then (Stmt.programToJson parse.program).pretty
      else Stmt.renderProgram parse.program
    ⟨0, tree ++ "\n", ""⟩
  else ⟨Outcome.syntaxError.exitCode, "", Diagnostic.lines reports⟩

/-- Evaluates a source and shows its value after what was printed. -/
def evaluate (budget : Nat) (s : Session) (source : List UInt8) : Option Effects :=
  match s.evaluate budget source with
  | some ⟨.ok v, reports, s⟩ =>
    some ⟨0, s.interpreter.output.text ++ v.display ++ "\n", Diagnostic.lines reports⟩
  | some ⟨.error outcome, reports, s⟩ =>
    some ⟨outcome.exitCode, s.interpreter.output.text, Diagnostic.lines reports⟩
  | none => none

/-- Runs a source. -/
def run (budget : Nat) (s : Session) (source : List UInt8) : Option Effects :=
  match s.run budget source with
  | some ⟨outcome, reports, s⟩ =>
    some ⟨outcome.exitCode, s.interpreter.output.text, Diagnostic.lines reports⟩
  | none => none

/-- The session in which a command works. -/
def session (i : Invocation) (clock : Nat → Float) : Session :=
  Session.new (Interpreter.new [.clock] Output.unlimited i.maxCallDepth clock)

/-- Carries out a command on the contents of its file. -/
def onSource (budget : Nat) (i : Invocation) (s : Session) (source : List UInt8) : Option Effects :=
  match i.command with
  | .tokenize => some (tokenize i.json source)
  | .parse => some (parse i.json source)
  | .evaluate => evaluate budget s source
  | .run => run budget s source
  | .repl => some Effects.noFile

/-! ## The program -/

/-- What the program finds around it. -/
structure World where
  /-- Why a file cannot be made, if it cannot. -/
  create : String → Option SystemFault
  /-- The contents of a file, or why there are none. -/
  read : String → Except SystemFault (List UInt8)
  stdin : List UInt8
  clock : Nat → Float

/-- Carries out a command. -/
def perform (budget : Nat) (w : World) (i : Invocation) : Option Effects :=
  let s := session i w.clock
  match i.log.bind w.create with
  | some e => some (Effects.ofFault e)
  | none =>
    if i.isInteractive then Prompt.run budget s w.stdin
    else match i.file with
      | none => some Effects.noFile
      | some path =>
        match w.read path with
        | .ok source => onSource budget i s source
        | .error e => some (Effects.ofFault e)

/-- The effects of the program started with some arguments. -/
def program (budget : Nat) (w : World) (arguments : List String) : Option Effects :=
  match Invocation.ofArguments arguments with
  | .ok i => perform budget w i
  | .error r => some (Effects.ofRefusal r)

end Command

end Lox
