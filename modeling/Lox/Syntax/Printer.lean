import Lox.Syntax.Basic

/-!
# Trees in prefix notation

A tree is written with its operator first, every composite node between parentheses: `1 + 2 * x` is
`(+ 1.0 (* 2.0 x))`. Constants and names stand as they are.
-/

namespace Lox

/-- The parts of a node between parentheses, divided by blanks. -/
def parenthesize (parts : List String) : String :=
  "(" ++ " ".intercalate parts ++ ")"

/-- The text of a constant; a string has no quotes. -/
def Literal.render : Literal → String
  | .number x => Number.inTree x
  | .string s => s
  | .true => "true"
  | .false => "false"
  | .nil => "nil"

namespace Expr

mutual

/-- An expression in prefix notation. -/
def render : Expr → String
  | .literal value => value.render
  | .grouping inner => parenthesize ["group", render inner]
  | .unary operator right => parenthesize [operator.lexeme, render right]
  | .binary left operator right => parenthesize [operator.lexeme, render left, render right]
  | .logical left operator right => parenthesize [operator.lexeme, render left, render right]
  | .variable _ name => name.lexeme
  | .assign _ name value => parenthesize ["=", name.lexeme, render value]
  | .call callee _ arguments => parenthesize ("call" :: render callee :: renderAll arguments)
  | .get object name => parenthesize [".", render object, name.lexeme]
  | .set object name value => parenthesize ["=.", render object, name.lexeme, render value]
  | .thisRef _ _ => "this"
  | .superRef _ _ method => parenthesize ["super", method.lexeme]

/-- Expressions in prefix notation, one text each. -/
def renderAll : List Expr → List String
  | [] => []
  | e :: rest => render e :: renderAll rest

end

end Expr

/-- The parameters of a function between parentheses. -/
def FunctionDecl.renderParams (params : List Token) : String :=
  parenthesize (params.map Token.lexeme)

namespace Stmt

mutual

/-- A statement in prefix notation. -/
def render : Stmt → String
  | .expression value => parenthesize [";", value.render]
  | .print value => parenthesize ["print", value.render]
  | .var name none => parenthesize ["var", name.lexeme]
  | .var name (some value) => parenthesize ["var", name.lexeme, value.render]
  | .block body => parenthesize ("block" :: renderAll body)
  | .ifThen condition thenBranch => parenthesize ["if", condition.render, render thenBranch]
  | .ifThenElse condition thenBranch elseBranch =>
    parenthesize ["if", condition.render, render thenBranch, render elseBranch]
  | .whileLoop condition body => parenthesize ["while", condition.render, render body]
  | .function decl => renderFunction decl
  | .returnWith _ none => parenthesize ["return"]
  | .returnWith _ (some value) => parenthesize ["return", value.render]
  | .classDef name none methods => parenthesize ("class" :: name.lexeme :: renderFunctions methods)
  | .classDef name (some superclass) methods =>
    parenthesize ("class" :: name.lexeme :: "<" :: superclass.render :: renderFunctions methods)

/-- A function in prefix notation. -/
def renderFunction : FunctionDecl → String
  | ⟨name, params, body⟩ =>
    parenthesize ("fun" :: name.lexeme :: FunctionDecl.renderParams params :: renderAll body)

/-- Statements in prefix notation, one text each. -/
def renderAll : List Stmt → List String
  | [] => []
  | s :: rest => render s :: renderAll rest

/-- Functions in prefix notation, one text each. -/
def renderFunctions : List FunctionDecl → List String
  | [] => []
  | d :: rest => renderFunction d :: renderFunctions rest

end

/-- A program in prefix notation, one statement a line. -/
def renderProgram (program : List Stmt) : String :=
  "\n".intercalate (renderAll program)

end Stmt

end Lox
