import Lox.Syntax.Expression

/-!
# Reading statements

    program → declaration* declaration → classDecl | "fun" function | "var" varDecl | statement
    classDecl → "class" NAME ( "<" NAME )? "{" function* "}" function → NAME "(" ( NAME ( "," NAME
    )* )? ")" "{" declaration* "}" varDecl → NAME ( "=" expression )? ";" statement → for | if |
    while | return | "{" declaration* "}" | "print" expression ";" | expression ";" for → "for" "("
    ( "var" varDecl | expression ";" | ";" ) expression? ";" expression? ")" statement if → "if" "("
    expression ")" statement ( "else" statement )? while → "while" "(" expression ")" statement
    return → "return" expression? ";"

A declaration that cannot be read is reported and left out, and reading starts again at the next
statement; so one pass reports several errors.

## Termination

As for expressions, the rules call each other with a bound on the depth of calls, and
`Stmt.readProgram` starts them with a bound that the number of tokens gives.
-/

namespace Lox

namespace Stmt

open Reader

/-- Reads the parameters of a function with commas between them, `count` of which have been read.
Each one too many is reported before it is read. -/
def readParamList : Nat → Nat → Reader (List Token)
  | 0, _ => failHere .paramName
  | depth + 1, count => do
    if Expr.maxArity ≤ count then
      reportHere .tooManyParams
    let param ← expectName .paramName
    match ← acceptSymbol .comma with
    | some _ =>
      let rest ← readParamList depth (count + 1)
      return param :: rest
    | none => return [param]

/-- Reads the parameters of a function, if there are any. -/
def readParams : Reader (List Token) := do
  if ← check (Kind.isSymbol .rightParen) then
    return []
  fun c => readParamList (c.rest.length + 1) 0 c

/-- Reads an expression unless a symbol stands in its place. -/
def readUnless (s : Symbol) : Reader (Option Expr) := do
  if ← check (Kind.isSymbol s) then
    return none
  let e ← Expr.read
  return some e

/-- Reads an expression and the semicolon after it. -/
def readExpression : Reader Stmt := do
  let value ← Expr.read
  let _ ← expectSymbol .semicolon .expressionEnd
  return .expression value

/-- Reads what follows the word `print`. -/
def readPrint : Reader Stmt := do
  let value ← Expr.read
  let _ ← expectSymbol .semicolon .printEnd
  return .print value

/-- Reads the initial value of a variable, if there is one. -/
def readInitializer : Reader (Option Expr) := do
  match ← acceptSymbol .equal with
  | some _ =>
    let e ← Expr.read
    return some e
  | none => return none

/-- Reads what follows the word `var`. -/
def readVar : Reader Stmt := do
  let name ← expectName .variableName
  let initializer ← readInitializer
  let _ ← expectSymbol .semicolon .variableEnd
  return .var name initializer

/-- Reads what follows the word `return`. -/
def readReturn (word : Token) : Reader Stmt := do
  let value ← readUnless .semicolon
  let _ ← expectSymbol .semicolon .returnEnd
  return .returnWith word value

/-- Reads the first clause of a `for` with its semicolon. -/
def readForInitializer : Reader (Option Stmt) := do
  match ← acceptSymbol .semicolon with
  | some _ => return none
  | none =>
    match ← acceptKeyword .varWord with
    | some _ =>
      let s ← readVar
      return some s
    | none =>
      let s ← readExpression
      return some s

/-- Whether a kind begins a statement that is not an expression. -/
def startsStatement : Kind → Bool
  | .keyword .forWord | .keyword .ifWord | .keyword .whileWord => true
  | .keyword .returnWord | .keyword .printWord => true
  | .symbol .leftBrace => true
  | _ => false

/-- Reads the superclass of a class, if there is one. -/
def readSuperclass : Reader (Option Expr) := do
  match ← acceptSymbol .less with
  | some _ =>
    let name ← expectName .superclassName
    let id ← fresh
    return some (.variable id name)
  | none => return none

mutual

/-- Reads a declaration. One that cannot be read is reported and gives nothing. -/
def readDeclaration : Nat → Reader (Option Stmt)
  | 0 => recovering (failHere .expression)
  | depth + 1 => recovering do
    match ← acceptKeyword .classWord with
    | some _ => readClass depth
    | none =>
      match ← acceptKeyword .funWord with
      | some _ =>
        let decl ← readFunction depth .function
        return .function decl
      | none =>
        match ← acceptKeyword .varWord with
        | some _ => readVar
        | none => readStatement depth

/-- Reads what follows the word `class`. -/
def readClass : Nat → Reader Stmt
  | 0 => failHere .expression
  | depth + 1 => do
    let name ← expectName .className
    let superclass ← readSuperclass
    let _ ← expectSymbol .leftBrace .classOpen
    let methods ← readMethods depth
    let _ ← expectSymbol .rightBrace .classClose
    return .classDef name superclass methods

/-- Reads methods up to a closing brace or the end. -/
def readMethods : Nat → Reader (List FunctionDecl)
  | 0 => failHere .expression
  | depth + 1 => do
    if (← check (Kind.isSymbol .rightBrace)) || (← atEnd) then
      return []
    let method ← readFunction depth .method
    let rest ← readMethods depth
    return method :: rest

/-- Reads a function from its name on. -/
def readFunction : Nat → Callable → Reader FunctionDecl
  | 0, _ => failHere .expression
  | depth + 1, callable => do
    let name ← expectName (.callableName callable)
    let _ ← expectSymbol .leftParen (.paramsOpen callable)
    let params ← readParams
    let _ ← expectSymbol .rightParen .paramsClose
    let _ ← expectSymbol .leftBrace (.bodyOpen callable)
    let body ← readBlock depth
    return ⟨name, params, body⟩

/-- Reads what follows an opening brace: declarations up to the closing one. -/
def readBlock : Nat → Reader (List Stmt)
  | 0 => failHere .expression
  | depth + 1 => do
    let body ← readDeclarations depth
    let _ ← expectSymbol .rightBrace .blockClose
    return body

/-- Reads declarations up to a closing brace or the end. -/
def readDeclarations : Nat → Reader (List Stmt)
  | 0 => failHere .expression
  | depth + 1 => do
    if (← check (Kind.isSymbol .rightBrace)) || (← atEnd) then
      return []
    let first ← readDeclaration depth
    let rest ← readDeclarations depth
    return first.toList ++ rest

/-- Reads a statement. -/
def readStatement : Nat → Reader Stmt
  | 0 => failHere .expression
  | depth + 1 => do
    match ← accept startsStatement with
    | none => readExpression
    | some t =>
      match t.kind with
      | .keyword .forWord => readFor depth
      | .keyword .ifWord => readIf depth
      | .keyword .whileWord => readWhile depth
      | .keyword .returnWord => readReturn t
      | .symbol .leftBrace =>
        let body ← readBlock depth
        return .block body
      | _ => readPrint

/-- Reads what follows the word `for`. -/
def readFor : Nat → Reader Stmt
  | 0 => failHere .expression
  | depth + 1 => do
    let _ ← expectSymbol .leftParen .forOpen
    let initializer ← readForInitializer
    let condition ← readUnless .semicolon
    let _ ← expectSymbol .semicolon .forCondition
    let increment ← readUnless .rightParen
    let _ ← expectSymbol .rightParen .forClose
    let body ← readStatement depth
    return forLoop initializer condition increment body

/-- Reads what follows the word `if`. -/
def readIf : Nat → Reader Stmt
  | 0 => failHere .expression
  | depth + 1 => do
    let _ ← expectSymbol .leftParen .ifOpen
    let condition ← Expr.read
    let _ ← expectSymbol .rightParen .ifClose
    let thenBranch ← readStatement depth
    match ← acceptKeyword .elseWord with
    | some _ =>
      let elseBranch ← readStatement depth
      return .ifThenElse condition thenBranch elseBranch
    | none => return .ifThen condition thenBranch

/-- Reads what follows the word `while`. -/
def readWhile : Nat → Reader Stmt
  | 0 => failHere .expression
  | depth + 1 => do
    let _ ← expectSymbol .leftParen .whileOpen
    let condition ← Expr.read
    let _ ← expectSymbol .rightParen .whileClose
    let body ← readStatement depth
    return .whileLoop condition body

end

/-- Reads declarations to the end, at most `count` of them. -/
def readToEnd (depth : Nat) : Nat → Reader (List Stmt)
  | 0 => return []
  | count + 1 => do
    if ← atEnd then
      return []
    let first ← readDeclaration depth
    let rest ← readToEnd depth count
    return first.toList ++ rest

/-- A bound on the depth of calls of the rules that is enough for a number of tokens. -/
def readDepth (tokens : Nat) : Nat :=
  8 * (tokens + 1)

/-- Reads a program: declarations to the end. -/
def readProgram : Reader (List Stmt) :=
  fun c => readToEnd (readDepth c.rest.length) c.rest.length c

end Stmt

end Lox
