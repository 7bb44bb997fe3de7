import Lox.Diagnostic
import Lox.Token.Basic

/-!
# Errors of reading a program

A parse error is a fault and the token at which it was noticed, of which the line and the location
are kept.
-/

namespace Lox

/-- What is being declared, where the wording depends on it. -/
inductive Callable where
  | function
  | method
  deriving DecidableEq, Repr

/-- The word for it. -/
def Callable.word : Callable → String
  | .function => "function"
  | .method => "method"

/-- What is wrong with a list of tokens. -/
inductive ParseFault where
  | className
  | superclassName
  | classOpen
  | classClose
  | callableName (c : Callable)
  | paramsOpen (c : Callable)
  | paramName
  | paramsClose
  | bodyOpen (c : Callable)
  | variableName
  | variableEnd
  | forOpen
  | forCondition
  | forClose
  | printEnd
  | expressionEnd
  | ifOpen
  | ifClose
  | whileOpen
  | whileClose
  | returnEnd
  | blockClose
  | propertyName
  | argumentsClose
  | superDot
  | superMethod
  | groupClose
  | expression
  /-- Something follows a text that should be one expression. -/
  | trailing
  | assignmentTarget
  | tooManyParams
  | tooManyArguments
  deriving DecidableEq, Repr

/-- The wording of a fault. -/
def ParseFault.message : ParseFault → String
  | className => "Expected class name."
  | superclassName => "Expected superclass name."
  | classOpen => "Expected '\x7b' before class body."
  | classClose => "Expected '\x7d' after class body."
  | callableName c => "Expected " ++ c.word ++ " name."
  | paramsOpen c => "Expected '(' after " ++ c.word ++ " name."
  | paramName => "Expected parameter name."
  | paramsClose => "Expected ')' after parameters."
  | bodyOpen c => "Expected '\x7b' before " ++ c.word ++ " body."
  | variableName => "Expected variable name."
  | variableEnd => "Expected ';' after variable declaration."
  | forOpen => "Expected '(' after 'for'."
  | forCondition => "Expected ';' after loop condition."
  | forClose => "Expected ')' after for clauses."
  | printEnd => "Expected ';' after value."
  | expressionEnd => "Expected ';' after expression."
  | ifOpen => "Expected '(' after 'if'."
  | ifClose => "Expected ')' after if condition."
  | whileOpen => "Expected '(' after 'while'."
  | whileClose => "Expected ')' after condition."
  | returnEnd => "Expected ';' after return value."
  | blockClose => "Expected '\x7d' after block."
  | propertyName => "Expected property name after '.'."
  | argumentsClose => "Expected ')' after arguments."
  | superDot => "Expected '.' after 'super'."
  | superMethod => "Expected superclass method name."
  | groupClose => "Expected ')' after expression."
  | expression => "Expected expression."
  | trailing => "Expected end of expression."
  | assignmentTarget => "Invalid assignment target."
  | tooManyParams => "Can't have more than 255 parameters."
  | tooManyArguments => "Can't have more than 255 arguments."

/-- A fault and where it was noticed. -/
structure ParseError where
  fault : ParseFault
  line : Nat
  location : String
  deriving DecidableEq, Repr

/-- A fault at a token. -/
def ParseError.at (t : Token) (fault : ParseFault) : ParseError :=
  ⟨fault, t.line, t.location⟩

/-- The report of a parse error. -/
def ParseError.diagnostic (e : ParseError) : Diagnostic :=
  .parse e.line e.location e.fault.message

end Lox
