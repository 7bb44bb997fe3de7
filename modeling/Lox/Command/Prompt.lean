import Lox.Command.Effects
import Lox.Session

/-!
# The prompt

Lines are run one after the other on one session. A prompt stands before each line, and the last
prompt, after which there is no line, is ended with a line end. Errors of a line are reported and
the next line is read; only a line that is not UTF-8 ends the program.
-/

namespace Lox

namespace Prompt

/-- What stands before each line. -/
def text : String := "> "

/-- Drops a carriage return at the end of a line, whose bytes are in reverse. -/
def dropReturn : List UInt8 → List UInt8
  | [] => []
  | b :: line => if b = 0x0D then line else b :: line

/-- Cuts bytes into lines; `line` are the bytes of the line so far, in reverse. A line ends with a
line end, before which a carriage return does not count, or with the last byte. -/
def linesFrom (line : List UInt8) : List UInt8 → List (List UInt8)
  | [] => if line.isEmpty then [] else [line.reverse]
  | b :: rest =>
    if b = 0x0A then (dropReturn line).reverse :: linesFrom [] rest else linesFrom (b :: line) rest

/-- The lines of an input. -/
def lines (input : List UInt8) : List (List UInt8) :=
  linesFrom [] input

/-- Runs a line: what it printed, what it reported, and the session after it. -/
def runLine (budget : Nat) (s : Session) (line : List UInt8) :
    Option (Except SystemFault (String × String × Session)) :=
  match Utf8.decode line with
  | .error _ => some (.error ⟨.readLine, .notUtf8⟩)
  | .ok _ =>
    match s.run budget line with
    | some ⟨_, reports, s⟩ =>
      let st := s.interpreter
      some (.ok (st.output.text, Diagnostic.lines reports,
        ⟨{ st with output := st.output.drain }, s.nextId⟩))
    | none => none

/-- Runs lines in turn, after `out` and `err` have been written. -/
def runLines (budget : Nat) (s : Session) (out err : String) : List (List UInt8) → Option Effects
  | [] => some ⟨0, out ++ text ++ "\n", err⟩
  | line :: rest =>
    match runLine budget s line with
    | some (.ok (printed, reported, s)) =>
      runLines budget s (out ++ text ++ printed) (err ++ reported) rest
    | some (.error e) => some ⟨1, out ++ text, err ++ e.text⟩
    | none => none

/-- Runs the lines of an input. -/
def run (budget : Nat) (s : Session) (input : List UInt8) : Option Effects :=
  runLines budget s "" "" (lines input)

end Prompt

end Lox
