import Lox.Syntax.Basic

/-!
# Trees as JSON

Every node becomes an object with one field, named for the kind of the node, that holds the parts of
the node in order. Constants without a value are their name.
-/

namespace Lox

/-- A node: its kind and its parts. -/
def Json.node (kind : String) (parts : List Json.Field) : Json :=
  .object [.mk kind (.object parts)]

/-- A node with one part, which stands for the node's parts. -/
def Json.wrap (kind : String) (part : Json) : Json :=
  .object [.mk kind part]

/-- A constant as JSON. -/
def Literal.toJson : Literal → Json
  | .number x => .wrap "Number" (.number x)
  | .string s => .wrap "Str" (.string s)
  | .true => .string "True"
  | .false => .string "False"
  | .nil => .string "Nil"

namespace Expr

mutual

/-- An expression as JSON. -/
def toJson : Expr → Json
  | .literal value => .wrap "Literal" value.toJson
  | .grouping inner => .wrap "Grouping" (toJson inner)
  | .unary operator right =>
    .node "Unary" [.mk "operator" operator.toJson, .mk "right" (toJson right)]
  | .binary left operator right =>
    .node "Binary"
      [.mk "left" (toJson left), .mk "operator" operator.toJson, .mk "right" (toJson right)]
  | .logical left operator right =>
    .node "Logical"
      [.mk "left" (toJson left), .mk "operator" operator.toJson, .mk "right" (toJson right)]
  | .variable id name => .node "Variable" [.mk "id" (.nat id), .mk "name" name.toJson]
  | .assign id name value =>
    .node "Assign" [.mk "id" (.nat id), .mk "name" name.toJson, .mk "value" (toJson value)]
  | .call callee paren arguments =>
    .node "Call" [.mk "callee" (toJson callee), .mk "paren" paren.toJson,
      .mk "arguments" (.array (toJsonAll arguments))]
  | .get object name => .node "Get" [.mk "object" (toJson object), .mk "name" name.toJson]
  | .set object name value =>
    .node "Set" [.mk "object" (toJson object), .mk "name" name.toJson, .mk "value" (toJson value)]
  | .thisRef id word => .node "This" [.mk "id" (.nat id), .mk "keyword" word.toJson]
  | .superRef id word method =>
    .node "Super" [.mk "id" (.nat id), .mk "keyword" word.toJson, .mk "method" method.toJson]

/-- Expressions as JSON, one value each. -/
def toJsonAll : List Expr → List Json
  | [] => []
  | e :: rest => toJson e :: toJsonAll rest

end

/-- An expression that may be missing. -/
def toJson? : Option Expr → Json
  | none => .null
  | some e => e.toJson

end Expr

namespace Stmt

mutual

/-- A statement as JSON. -/
def toJson : Stmt → Json
  | .expression value => .wrap "Expression" value.toJson
  | .print value => .wrap "Print" value.toJson
  | .var name initializer =>
    .node "Var" [.mk "name" name.toJson, .mk "initializer" (Expr.toJson? initializer)]
  | .block body => .wrap "Block" (.array (toJsonAll body))
  | .ifThen condition thenBranch =>
    .node "If" [.mk "condition" condition.toJson, .mk "then_branch" (toJson thenBranch),
      .mk "else_branch" .null]
  | .ifThenElse condition thenBranch elseBranch =>
    .node "If" [.mk "condition" condition.toJson, .mk "then_branch" (toJson thenBranch),
      .mk "else_branch" (toJson elseBranch)]
  | .whileLoop condition body =>
    .node "While" [.mk "condition" condition.toJson, .mk "body" (toJson body)]
  | .function decl => .wrap "Function" (functionToJson decl)
  | .returnWith word value =>
    .node "Return" [.mk "keyword" word.toJson, .mk "value" (Expr.toJson? value)]
  | .classDef name superclass methods =>
    .node "Class" [.mk "name" name.toJson, .mk "superclass" (Expr.toJson? superclass),
      .mk "methods" (.array (functionsToJson methods))]

/-- A function as JSON. -/
def functionToJson : FunctionDecl → Json
  | ⟨name, params, body⟩ =>
    .object [.mk "name" name.toJson, .mk "params" (.array (params.map Token.toJson)),
      .mk "body" (.array (toJsonAll body))]

/-- Statements as JSON, one value each. -/
def toJsonAll : List Stmt → List Json
  | [] => []
  | s :: rest => toJson s :: toJsonAll rest

/-- Functions as JSON, one value each. -/
def functionsToJson : List FunctionDecl → List Json
  | [] => []
  | d :: rest => functionToJson d :: functionsToJson rest

end

/-- A program as JSON. -/
def programToJson (program : List Stmt) : Json :=
  .array (toJsonAll program)

end Stmt

end Lox
