import Lox.Machine.Run
import Lox.Syntax.Parse
import Lox.Token.Scan

/-!
# Sessions

A session runs sources one after the other on one interpreter, so that later sources see what
earlier ones declared. A source with an error in it, whether in its tokens, its syntax or its names,
does not run at all.
-/

namespace Lox

/-- How running a source ended. -/
inductive Outcome where
  | success
  /-- The source is no program; nothing ran. -/
  | syntaxError
  /-- The program breaks a rule; nothing ran. -/
  | staticError
  /-- The program failed while it ran. -/
  | runtimeError
  deriving DecidableEq, Repr

/-- The exit status for an outcome. -/
def Outcome.exitCode : Outcome → Nat
  | success => 0
  | syntaxError => 65
  | staticError => 66
  | runtimeError => 70

/-- An interpreter, and the first id that no tree has used. -/
structure Session where
  interpreter : Interpreter
  nextId : NodeId

/-- What came of running a source: how it ended, what was reported in order, and the session after
it. -/
structure Run where
  outcome : Outcome
  reports : List Diagnostic
  session : Session

/-- The run after something was reported already. -/
def Run.after (reported : List Diagnostic) (r : Run) : Run :=
  { r with reports := reported ++ r.reports }

/-- What came of evaluating a source: its value, or how it ended without one. -/
structure Evaluation where
  result : Except Outcome Value
  reports : List Diagnostic
  session : Session

/-- The evaluation after something was reported already. -/
def Evaluation.after (reported : List Diagnostic) (ev : Evaluation) : Evaluation :=
  { ev with reports := reported ++ ev.reports }

namespace Session

/-- A session in which nothing has run. -/
def new (interpreter : Interpreter) : Session :=
  ⟨interpreter, 0⟩

/-- Resolves and runs a program that was read without error. Whether it runs is up to what resolving
notes, not to what it reports. -/
def runProgram (budget : Nat) (s : Session) (program : List Stmt) : Option Run :=
  let ⟨distances, errors, hadError⟩ := s.interpreter.resolution program
  let st := { s.interpreter with distances := distances }
  let reports := errors.map StaticError.diagnostic
  if hadError then some ⟨.staticError, reports, ⟨st, s.nextId⟩⟩
  else
    match st.interpret budget program with
    | some (.ok _, st) => some ⟨.success, reports, ⟨st, s.nextId⟩⟩
    | some (.error f, st) => some ⟨.runtimeError, reports ++ [f.diagnostic], ⟨st, s.nextId⟩⟩
    | none => none

/-- Runs a source. Its syntax is looked at even if there are errors in its tokens. Whether it is
resolved is up to what scanning and reading note, not to what they report. -/
def run (budget : Nat) (s : Session) (source : List UInt8) : Option Run :=
  let scan := Scan.ofSource source
  let parse := Parse.ofTokens scan.tokens s.nextId
  let s : Session := ⟨s.interpreter, parse.nextId⟩
  let reports := scan.errors.map LexError.diagnostic ++ parse.errors.map ParseError.diagnostic
  if scan.hadError || parse.hadError then some ⟨.syntaxError, reports, s⟩
  else (s.runProgram budget parse.program).map (Run.after reports)

/-- Evaluates an expression that was read without error. Its names are not resolved: all are
global. -/
def evaluateExpr (budget : Nat) (s : Session) (e : Expr) : Option Evaluation :=
  match s.interpreter.evaluate budget e with
  | some (.ok v, st) => some ⟨.ok v, [], ⟨st, s.nextId⟩⟩
  | some (.error f, st) => some ⟨.error .runtimeError, [f.diagnostic], ⟨st, s.nextId⟩⟩
  | none => none

/-- Evaluates a source that is one expression. -/
def evaluate (budget : Nat) (s : Session) (source : List UInt8) : Option Evaluation :=
  let scan := Scan.ofSource source
  let parse := ParsedExpr.ofTokens scan.tokens s.nextId
  let s : Session := ⟨s.interpreter, parse.nextId⟩
  let reports := scan.errors.map LexError.diagnostic ++ parse.errors.map ParseError.diagnostic
  match parse.expr? with
  | some e =>
    if scan.hadError then some ⟨.error .syntaxError, reports, s⟩
    else (s.evaluateExpr budget e).map (Evaluation.after reports)
  | none => some ⟨.error .syntaxError, reports, s⟩

end Session

end Lox
