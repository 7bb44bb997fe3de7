import Lox.Syntax.Reader

/-!
# Reading expressions

    expression → assignment
    assignment → ( call "." )? NAME "=" assignment | or
    or         → and ( "or" and )*
    and        → equality ( "and" equality )*
    equality   → comparison ( ( "!=" | "==" ) comparison )*
    comparison → term ( ( ">" | ">=" | "<" | "<=" ) term )*
    term       → factor ( ( "-" | "+" ) factor )*
    factor     → unary ( ( "/" | "*" ) unary )*
    unary      → ( "!" | "-" ) unary | call
    call       → primary ( "(" arguments? ")" | "." NAME )*
    primary    → NUMBER | STRING | "true" | "false" | "nil" | "this" | NAME
               | "(" expression ")" | "super" "." NAME

An assignment is recognised by the equals sign after what looks like any expression; if that
expression is neither a name nor a property, this is reported and the expression stands for the
whole.

## Termination

The rules call each other with a bound on the depth of calls. `Expr.read` starts them with a bound
that the number of tokens gives: at most eleven rules are entered between two tokens.
-/

namespace Lox

/-- The levels of binary operators, the loosest first. -/
inductive Level where
  | disjunction
  | conjunction
  | equality
  | comparison
  | term
  | factor
  deriving DecidableEq, Repr

namespace Level

/-- The next tighter level; below the last stand the unary operators. -/
def tighter? : Level → Option Level
  | disjunction => some conjunction
  | conjunction => some equality
  | equality => some comparison
  | comparison => some term
  | term => some factor
  | factor => none

/-- Whether a kind is an operator of a level. -/
def operators : Level → Kind → Bool
  | disjunction, .keyword .orWord => true
  | conjunction, .keyword .andWord => true
  | equality, .symbol .bangEqual | equality, .symbol .equalEqual => true
  | comparison, .symbol .greater | comparison, .symbol .greaterEqual => true
  | comparison, .symbol .less | comparison, .symbol .lessEqual => true
  | term, .symbol .minus | term, .symbol .plus => true
  | factor, .symbol .slash | factor, .symbol .star => true
  | _, _ => false

/-- The node of an operator: the two loosest levels decide on the left operand whether to look at
the right one. -/
def node (l : Level) (left : Expr) (operator : Token) (right : Expr) : Expr :=
  match l with
  | disjunction | conjunction => .logical left operator right
  | _ => .binary left operator right

end Level

namespace Expr

open Reader

/-- The most parameters a function may have, and the most arguments of a call. -/
def maxArity : Nat := 255

/-- Whether a kind is a unary operator. -/
def isUnary : Kind → Bool
  | .symbol .bang | .symbol .minus => true
  | _ => false

/-- Whether a kind begins a primary expression. -/
def startsPrimary : Kind → Bool
  | .keyword .falseWord | .keyword .trueWord | .keyword .nilWord => true
  | .keyword .thisWord | .keyword .superWord => true
  | .number _ | .string _ | .identifier => true
  | .symbol .leftParen => true
  | _ => false

/-- The node for a target that turned out to be assigned to. -/
def assignTo (target : Expr) (equals : Token) (value : Expr) : Reader Expr :=
  match target with
  | .variable _ name => do
    let id ← fresh
    return .assign id name value
  | .get object name => return .set object name value
  | other => do
    report (.at equals .assignmentTarget)
    return other

mutual

/-- Reads an assignment, or an expression without one. -/
def readAssignment : Nat → Reader Expr
  | 0 => failHere .expression
  | depth + 1 => do
    let target ← readBinary depth .disjunction
    match ← acceptSymbol .equal with
    | none => return target
    | some equals =>
      let value ← readAssignment depth
      assignTo target equals value

/-- Reads operands of a level with its operators between them, grouped to the left. -/
def readBinary : Nat → Level → Reader Expr
  | 0, _ => failHere .expression
  | depth + 1, level => do
    let left ← readOperand depth level
    readBinaryRest depth level left

/-- Reads an operand of a level. -/
def readOperand : Nat → Level → Reader Expr
  | 0, _ => failHere .expression
  | depth + 1, level =>
    match level.tighter? with
    | some next => readBinary depth next
    | none => readUnary depth

/-- Reads further operators and operands after a first operand. -/
def readBinaryRest : Nat → Level → Expr → Reader Expr
  | 0, _, _ => failHere .expression
  | depth + 1, level, left => do
    match ← accept level.operators with
    | none => return left
    | some operator =>
      let right ← readOperand depth level
      readBinaryRest depth level (level.node left operator right)

/-- Reads unary operators before a call. -/
def readUnary : Nat → Reader Expr
  | 0 => failHere .expression
  | depth + 1 => do
    match ← accept isUnary with
    | some operator =>
      let right ← readUnary depth
      return .unary operator right
    | none => readCall depth

/-- Reads a primary expression with the calls and properties after it. -/
def readCall : Nat → Reader Expr
  | 0 => failHere .expression
  | depth + 1 => do
    let callee ← readPrimary depth
    readCallRest depth callee

/-- Reads calls and properties after an expression. -/
def readCallRest : Nat → Expr → Reader Expr
  | 0, _ => failHere .expression
  | depth + 1, callee => do
    match ← acceptSymbol .leftParen with
    | some _ =>
      let arguments ← readArguments depth
      let paren ← expectSymbol .rightParen .argumentsClose
      readCallRest depth (.call callee paren arguments)
    | none =>
      match ← acceptSymbol .dot with
      | some _ =>
        let name ← expectName .propertyName
        readCallRest depth (.get callee name)
      | none => return callee

/-- Reads the arguments of a call, if there are any. -/
def readArguments : Nat → Reader (List Expr)
  | 0 => failHere .expression
  | depth + 1 => do
    if ← check (Kind.isSymbol .rightParen) then
      return []
    readArgumentList depth 0

/-- Reads arguments with commas between them, `count` of which have been read. Each one too many is
reported before it is read. -/
def readArgumentList : Nat → Nat → Reader (List Expr)
  | 0, _ => failHere .expression
  | depth + 1, count => do
    if maxArity ≤ count then
      reportHere .tooManyArguments
    let argument ← readAssignment depth
    match ← acceptSymbol .comma with
    | some _ =>
      let rest ← readArgumentList depth (count + 1)
      return argument :: rest
    | none => return [argument]

/-- Reads a constant, a name, `this`, a superclass method or a grouped expression. -/
def readPrimary : Nat → Reader Expr
  | 0 => failHere .expression
  | depth + 1 => do
    match ← accept startsPrimary with
    | none => failHere .expression
    | some t =>
      match t.kind with
      | .keyword .falseWord => return .literal .false
      | .keyword .trueWord => return .literal .true
      | .keyword .nilWord => return .literal .nil
      | .number x => return .literal (.number x)
      | .string s => return .literal (.string s)
      | .keyword .thisWord =>
        let id ← fresh
        return .thisRef id t
      | .keyword .superWord =>
        let _ ← expectSymbol .dot .superDot
        let method ← expectName .superMethod
        let id ← fresh
        return .superRef id t method
      | .symbol .leftParen =>
        let inner ← readAssignment depth
        let _ ← expectSymbol .rightParen .groupClose
        return .grouping inner
      | _ =>
        let id ← fresh
        return .variable id t

end

/-- A bound on the depth of calls of the rules that is enough for a number of tokens. -/
def readDepth (tokens : Nat) : Nat :=
  16 * (tokens + 1)

/-- Reads an expression. -/
def read : Reader Expr :=
  fun c => readAssignment (readDepth c.rest.length) c

end Expr

end Lox
