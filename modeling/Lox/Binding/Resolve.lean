import Lox.Binding.Basic

/-!
# The walk over a tree

`Stmt.resolve` and `Expr.resolve` visit a tree in source order, record the distances of local
variables and report broken rules. A report never ends the walk.

The scopes are: each block; each function's parameters with its body; for each class one that holds
`this` around its methods, and outside it, if the class inherits, one that holds `super`.
-/

namespace Lox

namespace Expr

mutual

/-- Looks at an expression. An assigned value comes before its target. -/
def resolve : Expr → Resolver → Resolver
  | .literal _, r => r
  | .grouping inner, r => resolve inner r
  | .unary _ right, r => resolve right r
  | .binary left _ right, r => resolve right (resolve left r)
  | .logical left _ right, r => resolve right (resolve left r)
  | .variable id name, r =>
    let r := r.reportIf (r.isUndefinedHere name.lexeme) name .localInOwnInitializer
    let r := r.reportIf (r.initializing == some name.lexeme) name .globalInOwnInitializer
    r.record id name.lexeme
  | .assign id name value, r => (resolve value r).record id name.lexeme
  | .call callee _ arguments, r => resolveAll arguments (resolve callee r)
  | .get object _, r => resolve object r
  | .set object _ value, r => resolve object (resolve value r)
  | .thisRef id word, r =>
    match r.classKind with
    | .none => r.report word .thisOutsideClass
    | _ => r.record id word.lexeme
  | .superRef id word _, r =>
    let r := r.reportIf (r.classKind == .none) word .superOutsideClass
    let r := r.reportIf (r.classKind == .plain) word .superWithoutSuperclass
    r.record id word.lexeme

/-- Looks at expressions in turn. -/
def resolveAll : List Expr → Resolver → Resolver
  | [], r => r
  | e :: rest, r => resolveAll rest (resolve e r)

end

/-- Looks at an expression that may be missing. -/
def resolve? : Option Expr → Resolver → Resolver
  | none, r => r
  | some e, r => e.resolve r

end Expr

namespace Resolver

/-- A scope with one name that the language defines. -/
def synthetic (name : String) : NameTable Bool :=
  NameTable.insert ∅ name true

/-- Enters the scopes around the methods of a class. A class that inherits has its superclass looked
at first, inside the class already. -/
def enterClass (r : Resolver) (name : Token) (superclass : Option Expr) : Resolver :=
  let r := { r with classKind := .plain }
  let r := (r.declare name).define name
  match superclass with
  | none => r.push (synthetic "this")
  | some e =>
    let r := match e with
      | .variable _ superName =>
        r.reportIf (superName.lexeme == name.lexeme) superName .inheritsFromItself
      | _ => r
    let r := e.resolve { r with classKind := .subclass }
    (r.push (synthetic "super")).push (synthetic "this")

/-- Leaves the scopes around the methods of a class, for the kind of class outside. -/
def leaveClass (r : Resolver) (superclass : Option Expr) (outside : ClassKind) : Resolver :=
  let r := match superclass with
    | none => r.pop
    | some _ => r.pop.pop
  { r with classKind := outside }

/-- Enters the scope of a function with its parameters. -/
def enterFunction (r : Resolver) (kind : FunctionKind) (params : List Token) : Resolver :=
  (({ r with functionKind := kind }).push ∅).introduce params

/-- Leaves the scope of a function, for the kind of function outside. -/
def leaveFunction (r : Resolver) (outside : FunctionKind) : Resolver :=
  { r.pop with functionKind := outside }

/-- The kind of a method, which its name decides. -/
def methodKind (name : Token) : FunctionKind :=
  if name.lexeme == "init" then .initializer else .method

end Resolver

namespace Stmt

mutual

/-- Looks at a statement. -/
def resolve : Stmt → Resolver → Resolver
  | .expression value, r => value.resolve r
  | .print value, r => value.resolve r
  | .var name none, r => (r.declare name).define name
  | .var name (some value), r =>
    let r := (r.declare name).beginInitializer name.lexeme
    (value.resolve r).endInitializer.define name
  | .block body, r => (resolveAll body (r.push ∅)).pop
  | .ifThen condition thenBranch, r => resolve thenBranch (condition.resolve r)
  | .ifThenElse condition thenBranch elseBranch, r =>
    resolve elseBranch (resolve thenBranch (condition.resolve r))
  | .whileLoop condition body, r => resolve body (condition.resolve r)
  | .function decl, r => resolveFunction .function decl ((r.declare decl.name).define decl.name)
  | .returnWith word value, r =>
    let r := r.reportIf (r.functionKind == .none) word .returnAtTopLevel
    let r := r.reportIf (value.isSome && r.functionKind == .initializer) word .returnFromInitializer
    Expr.resolve? value r
  | .classDef name superclass methods, r =>
    (resolveMethods methods (r.enterClass name superclass)).leaveClass superclass r.classKind

/-- Looks at a function of a kind: its parameters and its body. -/
def resolveFunction (kind : FunctionKind) : FunctionDecl → Resolver → Resolver
  | ⟨_, params, body⟩, r =>
    (resolveAll body (r.enterFunction kind params)).leaveFunction r.functionKind

/-- Looks at statements in turn. -/
def resolveAll : List Stmt → Resolver → Resolver
  | [], r => r
  | s :: rest, r => resolveAll rest (resolve s r)

/-- Looks at the methods of a class in turn. -/
def resolveMethods : List FunctionDecl → Resolver → Resolver
  | [], r => r
  | d :: rest, r => resolveMethods rest (resolveFunction (Resolver.methodKind d.name) d r)

end

end Stmt

/-- The result of the walk over a program: the distances with those recorded before, the broken
rules in order, and whether a rule was broken. -/
structure Resolution where
  distances : Distances
  errors : List StaticError
  hadError : Bool

/-- Looks at a program. -/
def Resolution.ofProgram (isGlobal : String → Bool) (distances : Distances) (program : List Stmt) :
    Resolution :=
  let r := Stmt.resolveAll program (Resolver.start isGlobal distances)
  ⟨r.distances, r.errors, r.hadError⟩

end Lox
