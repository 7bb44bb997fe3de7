import Lox.Token.Basic

/-!
# Trees

Programs are lists of statements. Nodes that name a variable (a use, an assignment, `this` and
`super`) carry an id, by which the distance to the scope of that variable is recorded. Nodes keep
the tokens they were read from: reports need their lines, and dumps show them.

There is no `for` node; see `Stmt.forLoop`.
-/

namespace Lox

/-- The id of a node that names a variable. -/
abbrev NodeId := Nat

/-- A constant. -/
inductive Literal where
  | number (value : Float)
  | string (text : String)
  | true
  | false
  | nil

/-- Expressions. -/
inductive Expr where
  | literal (value : Literal)
  | grouping (inner : Expr)
  | unary (operator : Token) (right : Expr)
  | binary (left : Expr) (operator : Token) (right : Expr)
  | logical (left : Expr) (operator : Token) (right : Expr)
  | variable (id : NodeId) (name : Token)
  | assign (id : NodeId) (name : Token) (value : Expr)
  /-- A call; `paren` is its closing parenthesis. -/
  | call (callee : Expr) (paren : Token) (arguments : List Expr)
  | get (object : Expr) (name : Token)
  | set (object : Expr) (name : Token) (value : Expr)
  | thisRef (id : NodeId) (word : Token)
  | superRef (id : NodeId) (word : Token) (method : Token)

mutual

/-- Statements. -/
inductive Stmt where
  | expression (value : Expr)
  | print (value : Expr)
  | var (name : Token) (initializer : Option Expr)
  | block (body : List Stmt)
  | ifThen (condition : Expr) (thenBranch : Stmt)
  | ifThenElse (condition : Expr) (thenBranch : Stmt) (elseBranch : Stmt)
  | whileLoop (condition : Expr) (body : Stmt)
  | function (decl : FunctionDecl)
  | returnWith (word : Token) (value : Option Expr)
  | classDef (name : Token) (superclass : Option Expr) (methods : List FunctionDecl)

/-- A function or a method. -/
structure FunctionDecl where
  name : Token
  params : List Token
  body : List Stmt

end

/-- The id of a node, if it names a variable. -/
def Expr.id? : Expr → Option NodeId
  | .variable id _ => some id
  | .assign id _ _ => some id
  | .thisRef id _ => some id
  | .superRef id _ _ => some id
  | _ => none

/-- The id of the expression of an expression statement, if it has one. -/
def Stmt.id? : Stmt → Option NodeId
  | .expression e => e.id?
  | _ => none

/-- The loop `for (initializer; condition; increment) body`. The increment runs after the body in a
scope around both, a missing condition is true, and the initializer has a scope around the loop. -/
def Stmt.forLoop (initializer : Option Stmt) (condition increment : Option Expr) (body : Stmt) :
    Stmt :=
  let body := match increment with
    | some e => .block [body, .expression e]
    | none => body
  let loop := .whileLoop (condition.getD (.literal .true)) body
  match initializer with
  | some s => .block [s, loop]
  | none => loop

end Lox
