import Lox.Proofs.Syntax.Grammar

/-!
# The tokens of trees

A tree keeps some of the tokens that it was read from, and each of them is of a kind that the
grammar allows in its place: operators are operators, and what declares or uses a name is a name.
`Expr.MadeOf P` and `Stmt.MadeOf P` say this, and that all the tokens satisfy `P`. A constant keeps
no token but stands for one. No declaration is the branch of an `if` or the body of a loop.
-/

namespace Lox

open Grammar (IsSymbol IsWord IsName LogicalOperator BinaryOperator)

/-! ## Trees -/

/-- A number or a text is that of a token. -/
def Literal.MadeOf (P : Token → Prop) : Literal → Prop
  | .number x => ∃ t : Token, t.kind = .number x ∧ P t
  | .string s => ∃ t : Token, t.kind = .string s ∧ P t
  | _ => True

namespace Expr

mutual

/-- Each token of an expression can stand in its place, and satisfies `P`. -/
def MadeOf (P : Token → Prop) : Expr → Prop
  | .literal value => value.MadeOf P
  | .grouping inner => MadeOf P inner
  | .unary operator right =>
    ((IsSymbol .bang operator ∨ IsSymbol .minus operator) ∧ P operator) ∧ MadeOf P right
  | .binary left operator right =>
    ((∃ l, BinaryOperator l operator.kind) ∧ P operator) ∧ MadeOf P left ∧ MadeOf P right
  | .logical left operator right =>
    ((∃ l, LogicalOperator l operator.kind) ∧ P operator) ∧ MadeOf P left ∧ MadeOf P right
  | .variable _ name => IsName name ∧ P name
  | .assign _ name value => (IsName name ∧ P name) ∧ MadeOf P value
  | .call callee paren arguments =>
    (IsSymbol .rightParen paren ∧ P paren) ∧ MadeOf P callee ∧ MadeOfAll P arguments
  | .get object name => (IsName name ∧ P name) ∧ MadeOf P object
  | .set object name value => (IsName name ∧ P name) ∧ MadeOf P object ∧ MadeOf P value
  | .thisRef _ word => IsWord .thisWord word ∧ P word
  | .superRef _ word method => (IsWord .superWord word ∧ P word) ∧ IsName method ∧ P method

/-- Each expression is made of such tokens. -/
def MadeOfAll (P : Token → Prop) : List Expr → Prop
  | [] => True
  | e :: rest => MadeOf P e ∧ MadeOfAll P rest

end

/-- An expression that may be missing is made of such tokens. -/
def MadeOf? (P : Token → Prop) (e? : Option Expr) : Prop :=
  ∀ e, e? = some e → e.MadeOf P

/-- A plain name, if there is anything. -/
def IsName? (P : Token → Prop) (e? : Option Expr) : Prop :=
  ∀ e, e? = some e → ∃ id name, e = .variable id name ∧ IsName name ∧ P name

end Expr

namespace Stmt

/-- The name that a statement declares. -/
def declares? : Stmt → Option Token
  | .var name _ => some name
  | .function decl => some decl.name
  | .classDef name _ _ => some name
  | _ => none

mutual

/-- Each token of a statement can stand in its place, and satisfies `P`. -/
def MadeOf (P : Token → Prop) : Stmt → Prop
  | .expression value => value.MadeOf P
  | .print value => value.MadeOf P
  | .var name initializer => (IsName name ∧ P name) ∧ Expr.MadeOf? P initializer
  | .block body => MadeOfAll P body
  | .ifThen condition thenBranch =>
    condition.MadeOf P ∧ thenBranch.declares? = none ∧ MadeOf P thenBranch
  | .ifThenElse condition thenBranch elseBranch =>
    condition.MadeOf P ∧ (thenBranch.declares? = none ∧ MadeOf P thenBranch) ∧
      elseBranch.declares? = none ∧ MadeOf P elseBranch
  | .whileLoop condition body => condition.MadeOf P ∧ body.declares? = none ∧ MadeOf P body
  | .function decl => FunctionMadeOf P decl
  | .returnWith word value => (IsWord .returnWord word ∧ P word) ∧ Expr.MadeOf? P value
  | .classDef name superclass methods =>
    (IsName name ∧ P name) ∧ Expr.IsName? P superclass ∧ MethodsMadeOf P methods

/-- Each statement is made of such tokens. -/
def MadeOfAll (P : Token → Prop) : List Stmt → Prop
  | [] => True
  | s :: rest => MadeOf P s ∧ MadeOfAll P rest

/-- Name, parameters and body of a function are made of such tokens. -/
def FunctionMadeOf (P : Token → Prop) : FunctionDecl → Prop
  | ⟨name, params, body⟩ =>
    (IsName name ∧ P name) ∧ (∀ p ∈ params, IsName p ∧ P p) ∧ MadeOfAll P body

/-- Each method is made of such tokens. -/
def MethodsMadeOf (P : Token → Prop) : List FunctionDecl → Prop
  | [] => True
  | d :: rest => FunctionMadeOf P d ∧ MethodsMadeOf P rest

end

end Stmt

end Lox
