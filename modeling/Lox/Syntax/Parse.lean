import Lox.Syntax.Statement

/-!
# Programs and expressions from tokens

`Parse.ofTokens` reads a token list as a program and `ParsedExpr.ofTokens` as one expression. Both
take the first id that no earlier tree uses, and give the first one that no tree uses after them.
-/

namespace Lox

/-- The result of reading a program: the declarations that could be read, the errors in order, the
first unused id, and whether reading has gone wrong. -/
structure Parse where
  program : List Stmt
  errors : List ParseError
  nextId : NodeId
  hadError : Bool

/-- Reads a program. Reading declarations recovers from every error, so it does not fail as a
whole. -/
def Parse.ofTokens (tokens : List Token) (nextId : NodeId) : Parse :=
  match Stmt.readProgram (Cursor.ofTokens tokens nextId) with
  | .done program c => ⟨program, c.errors, c.nextId, c.hadError⟩
  | .failed e c => ⟨[], (c.report e).errors, c.nextId, (c.report e).hadError⟩

/-- The result of reading an expression: the expression if there was no error, the errors in order,
and the first unused id. -/
structure ParsedExpr where
  expr? : Option Expr
  errors : List ParseError
  nextId : NodeId

/-- Reads an expression that takes all tokens. -/
def Expr.readWhole : Reader Expr := do
  let e ← Expr.read
  if ← Reader.atEnd then
    return e
  Reader.failHere .trailing

/-- Reads one expression. If reading has gone wrong there is none, even if it came to an end. -/
def ParsedExpr.ofTokens (tokens : List Token) (nextId : NodeId) : ParsedExpr :=
  match Expr.readWhole (Cursor.ofTokens tokens nextId) with
  | .done e c => ⟨if c.hadError then none else some e, c.errors, c.nextId⟩
  | .failed e c => ⟨none, (c.report e).errors, c.nextId⟩

end Lox
