import Lox.Text.Utf8

/-!
# Diagnostics

Whatever goes wrong, from a stray byte to a failed call, is reported as a diagnostic. A diagnostic
knows its text, the line it points at, and the exit status of a program that ends because of it.
-/

namespace Lox

/-- A report to the user. -/
inductive Diagnostic where
  /-- The source holds something that is no token. -/
  | lex (line : Nat) (message : String)
  /-- The tokens are no program. -/
  | parse (line : Nat) (location message : String)
  /-- The program breaks a rule that is checked before it runs. -/
  | resolve (line : Nat) (location message : String)
  /-- The program failed while it ran. -/
  | runtime (line : Nat) (message : String)
  /-- Reading or writing failed. -/
  | io (message : String)
  /-- A text is not UTF-8. -/
  | utf8 (error : Utf8.Error)
  deriving DecidableEq, Repr

namespace Diagnostic

/-- The text of a report. A failure at run time names its line last. -/
def text : Diagnostic → String
  | lex line message => "[line " ++ Nat.repr line ++ "] Error: " ++ message
  | parse line location message =>
    "[line " ++ Nat.repr line ++ "] Error" ++ location ++ ": " ++ message
  | resolve line location message =>
    "[line " ++ Nat.repr line ++ "] Error" ++ location ++ ": " ++ message
  | runtime line message => message ++ "\n[line " ++ Nat.repr line ++ "]"
  | io message => message
  | utf8 error => error.message

/-- The line that a report points at. -/
def line? : Diagnostic → Option Nat
  | lex line _ => some line
  | parse line _ _ => some line
  | resolve line _ _ => some line
  | runtime line _ => some line
  | io _ => none
  | utf8 _ => none

/-- The exit status of a program that ends with this report. -/
def exitCode : Diagnostic → Nat
  | lex _ _ => 65
  | parse _ _ _ => 65
  | resolve _ _ _ => 66
  | runtime _ _ => 70
  | io _ => 1
  | utf8 _ => 1

end Diagnostic

end Lox
