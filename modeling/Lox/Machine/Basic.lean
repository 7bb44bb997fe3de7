import Lox.Binding.Resolve
import Lox.Output
import Lox.Store.Basic
import Lox.Value.Text

/-!
# The machine

A program is run by a machine that takes one small step at a time. It has an interpreter, which is
all that lives on between two runs, a control, which says what happens next, and a stack of frames,
which say what is to be done with the result.

* The control asks for an expression to be evaluated or a statement to be executed, or it holds a
  result: a value, the way in which a statement ended, or a fault.
* A frame waits for a value or for the end of a statement. A fault takes the frames away one after
  the other; those that hold an environment to go back to, or count a call, do so on the way.

Nothing here recurses over the program, so nesting, in the text or of calls, costs frames only.
-/

namespace Lox

/-- Why a program fails while it runs. -/
inductive RuntimeFault where
  | undefinedVariable (name : String)
  | undefinedProperty (name : String)
  | operandNotNumber
  | operandsNotNumbers
  | operandsNotAddable
  | invalidUnary (operator : String)
  | invalidBinary (operator : String)
  | notCallable
  | wrongArity (expected got : Nat)
  | stackOverflow
  | propertyOfNonObject
  | fieldOfNonObject
  | superclassNotClass
  | superOutsideClass
  | invalidSuper
  /-- A native function failed with a message of its own. -/
  | native (message : String)
  deriving DecidableEq, Repr

/-- The wording of a failure. -/
def RuntimeFault.message : RuntimeFault → String
  | undefinedVariable name => "Undefined variable '" ++ name ++ "'."
  | undefinedProperty name => "Undefined property '" ++ name ++ "'."
  | operandNotNumber => "Operand must be a number."
  | operandsNotNumbers => "Operands must be numbers."
  | operandsNotAddable => "Operands must be two numbers or two strings."
  | invalidUnary operator => "Invalid unary operator '" ++ operator ++ "'."
  | invalidBinary operator => "Invalid binary operator '" ++ operator ++ "'."
  | notCallable => "Can only call functions and classes."
  | wrongArity expected got =>
    "Expected " ++ Nat.repr expected ++ " arguments but got " ++ Nat.repr got ++ "."
  | stackOverflow => "Stack overflow."
  | propertyOfNonObject => "Only instances have properties."
  | fieldOfNonObject => "Only instances have fields."
  | superclassNotClass => "Superclass must be a class."
  | superOutsideClass => "Can't use 'super' outside of a class."
  | invalidSuper => "Invalid 'super' binding."
  | native message => message

/-- What ends a run: a failure of the program on a line, or of its output. -/
inductive Fault where
  | runtime (line : Nat) (fault : RuntimeFault)
  | output (fault : OutputFault)
  deriving DecidableEq, Repr

/-- The report of what ends a run. -/
def Fault.diagnostic : Fault → Diagnostic
  | .runtime line fault => .runtime line fault.message
  | .output fault => .io fault.message

/-- What lives on between two runs. -/
structure Interpreter where
  store : Store
  /-- The scope of the global variables. -/
  globals : ScopeId
  /-- The environment of the place that is being run. -/
  env : Env
  distances : Distances
  output : Output
  /-- How many calls are going on. -/
  callDepth : Nat
  /-- How many calls may go on at once. -/
  maxCallDepth : Nat
  /-- The time at each call of a native function. -/
  clock : Nat → Float
  /-- How many native functions were called. -/
  readings : Nat

/-- How a statement ended. -/
inductive Flow where
  | normal
  | returned (v : Value)

/-- The value of a function whose body ended in this way. -/
def Flow.result : Flow → Value
  | normal => .nil
  | returned v => v

/-- What is to be done with a result. The first group waits for values, the second for
statements. -/
inductive Frame where
  /-- Apply a unary operator. -/
  | unary (operator : Token)
  /-- Evaluate the right operand. -/
  | binaryLeft (operator : Token) (right : Expr)
  /-- Apply a binary operator. -/
  | binaryRight (left : Value) (operator : Token)
  /-- Evaluate the right operand unless the left one decides. -/
  | logical (operator : Token) (right : Expr)
  /-- Assign to a variable. -/
  | assign (id : NodeId) (name : Token)
  /-- Evaluate the arguments of a call. -/
  | callee (paren : Token) (arguments : List Expr)
  /-- Go on with the arguments of a call; the values so far are in reverse. -/
  | argument (callee : Value) (paren : Token) (done : List Value) (todo : List Expr)
  /-- Read a property. -/
  | get (name : Token)
  /-- Evaluate what is to be stored in a field. -/
  | setObject (name : Token) (value : Expr)
  /-- Store in a field. -/
  | setValue (object : Object) (name : Token)
  /-- Drop the value of an expression statement. -/
  | discard
  /-- Print. -/
  | print
  /-- Declare a variable. -/
  | declare (name : Token)
  /-- Choose a branch. -/
  | branch (thenBranch : Stmt) (elseBranch : Option Stmt)
  /-- Run the body of a loop, or leave the loop. -/
  | loopTest (condition : Expr) (body : Stmt)
  /-- Return from a function. -/
  | returning
  /-- Make a class that inherits; `line` is where a superclass that is no class is reported. -/
  | superclass (name : Token) (line : Nat) (methods : List FunctionDecl)
  /-- A call is over. -/
  | endCall
  /-- An object has been initialized. -/
  | construct (object : Object)
  /-- Execute the next statement. -/
  | sequence (rest : List Stmt)
  /-- Evaluate the condition of a loop again. -/
  | loopBody (condition : Expr) (body : Stmt)
  /-- Go back to an environment. -/
  | leave (env : Env)
  /-- The body of an initializer has ended. -/
  | initializer (c : Closure)

/-- What happens next. -/
inductive Control where
  | eval (e : Expr)
  | exec (s : Stmt)
  | value (v : Value)
  | flow (f : Flow)
  | fault (f : Fault)

/-- A machine at work. -/
structure Machine where
  control : Control
  frames : List Frame
  state : Interpreter

end Lox
