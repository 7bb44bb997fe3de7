import Lox.Syntax.Expression

/-!
# The grammar

The grammar of Lox as relations between token lists and trees, rule by rule. Nothing here reads: a
relation holds when the tokens, from the first to the last, can be derived, and the tree is the one
of the derivation.

* Binary operators of one level group to the left, so the rule of a level has the level itself on
  its left and the next tighter one on its right. Calls and properties do the same.
* Assignment groups to the right, and what is assigned to is a name or a property of a call.
* An `else` could belong to several `if`s. The relations of statements take a flag: with
  `nearest = false` they are the grammar as it is written, and with `nearest = true` the branch
  before an `else` may not end in an `if` that has none, so that every `else` belongs to the nearest
  `if`.

A derivation knows nothing of node ids, so all ids in its tree are zero; `withoutIds` makes a tree
comparable to it.
-/

namespace Lox

/-! ## Trees without ids -/

namespace Expr

mutual

/-- The expression with all ids zero. -/
def withoutIds : Expr → Expr
  | .literal l => .literal l
  | .grouping inner => .grouping (withoutIds inner)
  | .unary operator right => .unary operator (withoutIds right)
  | .binary left operator right => .binary (withoutIds left) operator (withoutIds right)
  | .logical left operator right => .logical (withoutIds left) operator (withoutIds right)
  | .variable _ name => .variable 0 name
  | .assign _ name value => .assign 0 name (withoutIds value)
  | .call callee paren arguments => .call (withoutIds callee) paren (withoutIdsAll arguments)
  | .get object name => .get (withoutIds object) name
  | .set object name value => .set (withoutIds object) name (withoutIds value)
  | .thisRef _ word => .thisRef 0 word
  | .superRef _ word method => .superRef 0 word method

/-- The expressions with all ids zero. -/
def withoutIdsAll : List Expr → List Expr
  | [] => []
  | e :: rest => withoutIds e :: withoutIdsAll rest

end

end Expr

namespace Stmt

mutual

/-- The statement with all ids zero. -/
def withoutIds : Stmt → Stmt
  | .expression value => .expression value.withoutIds
  | .print value => .print value.withoutIds
  | .var name initializer => .var name (initializer.map Expr.withoutIds)
  | .block body => .block (withoutIdsAll body)
  | .ifThen condition thenBranch => .ifThen condition.withoutIds (withoutIds thenBranch)
  | .ifThenElse condition thenBranch elseBranch =>
    .ifThenElse condition.withoutIds (withoutIds thenBranch) (withoutIds elseBranch)
  | .whileLoop condition body => .whileLoop condition.withoutIds (withoutIds body)
  | .function decl => .function (functionWithoutIds decl)
  | .returnWith word value => .returnWith word (value.map Expr.withoutIds)
  | .classDef name superclass methods =>
    .classDef name (superclass.map Expr.withoutIds) (methodsWithoutIds methods)

/-- The statements with all ids zero. -/
def withoutIdsAll : List Stmt → List Stmt
  | [] => []
  | s :: rest => withoutIds s :: withoutIdsAll rest

/-- The function with all ids zero. -/
def functionWithoutIds : FunctionDecl → FunctionDecl
  | ⟨name, params, body⟩ => ⟨name, params, withoutIdsAll body⟩

/-- The methods with all ids zero. -/
def methodsWithoutIds : List FunctionDecl → List FunctionDecl
  | [] => []
  | d :: rest => functionWithoutIds d :: methodsWithoutIds rest

end

end Stmt

namespace Grammar

/-! ## Tokens -/

/-- A token that is a symbol. -/
abbrev IsSymbol (s : Symbol) (t : Token) : Prop := t.kind = .symbol s

/-- A token that is a reserved word. -/
abbrev IsWord (k : Keyword) (t : Token) : Prop := t.kind = .keyword k

/-- A token that is a name. -/
abbrev IsName (t : Token) : Prop := t.kind = .identifier

/-- The operators of the levels whose left operand may decide. -/
inductive LogicalOperator : Level → Kind → Prop where
  | or : LogicalOperator .disjunction (.keyword .orWord)
  | and : LogicalOperator .conjunction (.keyword .andWord)

/-- The operators of the other levels. -/
inductive BinaryOperator : Level → Kind → Prop where
  | bangEqual : BinaryOperator .equality (.symbol .bangEqual)
  | equalEqual : BinaryOperator .equality (.symbol .equalEqual)
  | greater : BinaryOperator .comparison (.symbol .greater)
  | greaterEqual : BinaryOperator .comparison (.symbol .greaterEqual)
  | less : BinaryOperator .comparison (.symbol .less)
  | lessEqual : BinaryOperator .comparison (.symbol .lessEqual)
  | minus : BinaryOperator .term (.symbol .minus)
  | plus : BinaryOperator .term (.symbol .plus)
  | slash : BinaryOperator .factor (.symbol .slash)
  | star : BinaryOperator .factor (.symbol .star)

/-! ## Expressions -/

mutual

/-- `assignment → ( call "." )? NAME "=" assignment | or` -/
inductive Assignment : List Token → Expr → Prop where
  | or {ts : List Token} {e : Expr} (h : Operation .disjunction ts e) : Assignment ts e
  | name {name equals : Token} {ts : List Token} {value : Expr} (hn : IsName name)
      (he : IsSymbol .equal equals) (h : Assignment ts value) :
      Assignment (name :: equals :: ts) (.assign 0 name value)
  | property {ts us : List Token} {dot name equals : Token} {object value : Expr}
      (ho : Call ts object) (hd : IsSymbol .dot dot) (hn : IsName name)
      (he : IsSymbol .equal equals) (h : Assignment us value) :
      Assignment (ts ++ dot :: name :: equals :: us) (.set object name value)

/-- `or → and ( "or" and )*`, and so on for each level of binary operators. -/
inductive Operation : Level → List Token → Expr → Prop where
  | operand {l : Level} {ts : List Token} {e : Expr} (h : Operand l ts e) : Operation l ts e
  | logical {l : Level} {ts us : List Token} {operator : Token} {left right : Expr}
      (hl : Operation l ts left) (ho : LogicalOperator l operator.kind) (hr : Operand l us right) :
      Operation l (ts ++ operator :: us) (.logical left operator right)
  | binary {l : Level} {ts us : List Token} {operator : Token} {left right : Expr}
      (hl : Operation l ts left) (ho : BinaryOperator l operator.kind) (hr : Operand l us right) :
      Operation l (ts ++ operator :: us) (.binary left operator right)

/-- What stands between the operators of a level. -/
inductive Operand : Level → List Token → Expr → Prop where
  | conjunction {ts : List Token} {e : Expr} (h : Operation .conjunction ts e) :
      Operand .disjunction ts e
  | equality {ts : List Token} {e : Expr} (h : Operation .equality ts e) : Operand .conjunction ts e
  | comparison {ts : List Token} {e : Expr} (h : Operation .comparison ts e) :
      Operand .equality ts e
  | term {ts : List Token} {e : Expr} (h : Operation .term ts e) : Operand .comparison ts e
  | factor {ts : List Token} {e : Expr} (h : Operation .factor ts e) : Operand .term ts e
  | unary {ts : List Token} {e : Expr} (h : Unary ts e) : Operand .factor ts e

/-- `unary → ( "!" | "-" ) unary | call` -/
inductive Unary : List Token → Expr → Prop where
  | operator {operator : Token} {ts : List Token} {e : Expr}
      (ho : IsSymbol .bang operator ∨ IsSymbol .minus operator) (h : Unary ts e) :
      Unary (operator :: ts) (.unary operator e)
  | call {ts : List Token} {e : Expr} (h : Call ts e) : Unary ts e

/-- `call → primary ( "(" arguments? ")" | "." NAME )*` -/
inductive Call : List Token → Expr → Prop where
  | primary {ts : List Token} {e : Expr} (h : Primary ts e) : Call ts e
  | call {ts us : List Token} {left right : Token} {callee : Expr} {arguments : List Expr}
      (hc : Call ts callee) (hl : IsSymbol .leftParen left) (ha : Arguments us arguments)
      (hm : arguments.length ≤ 255) (hr : IsSymbol .rightParen right) :
      Call (ts ++ left :: (us ++ [right])) (.call callee right arguments)
  | property {ts : List Token} {dot name : Token} {object : Expr} (ho : Call ts object)
      (hd : IsSymbol .dot dot) (hn : IsName name) : Call (ts ++ [dot, name]) (.get object name)

/-- The arguments of a call: none, or some with commas between them. -/
inductive Arguments : List Token → List Expr → Prop where
  | none : Arguments [] []
  | some {ts : List Token} {es : List Expr} (h : ArgumentList ts es) : Arguments ts es

/-- `assignment ( "," assignment )*` -/
inductive ArgumentList : List Token → List Expr → Prop where
  | one {ts : List Token} {e : Expr} (h : Assignment ts e) : ArgumentList ts [e]
  | more {ts us : List Token} {comma : Token} {e : Expr} {es : List Expr} (h : Assignment ts e)
      (hc : IsSymbol .comma comma) (hs : ArgumentList us es) :
      ArgumentList (ts ++ comma :: us) (e :: es)

/-- A constant, a name, `this`, a superclass method or a grouped expression. -/
inductive Primary : List Token → Expr → Prop where
  | falseWord {t : Token} (h : IsWord .falseWord t) : Primary [t] (.literal .false)
  | trueWord {t : Token} (h : IsWord .trueWord t) : Primary [t] (.literal .true)
  | nilWord {t : Token} (h : IsWord .nilWord t) : Primary [t] (.literal .nil)
  | number {t : Token} {x : Float} (h : t.kind = .number x) : Primary [t] (.literal (.number x))
  | string {t : Token} {s : String} (h : t.kind = .string s) : Primary [t] (.literal (.string s))
  | thisWord {t : Token} (h : IsWord .thisWord t) : Primary [t] (.thisRef 0 t)
  | name {t : Token} (h : IsName t) : Primary [t] (.variable 0 t)
  | superMethod {word dot method : Token} (hw : IsWord .superWord word) (hd : IsSymbol .dot dot)
      (hm : IsName method) : Primary [word, dot, method] (.superRef 0 word method)
  | group {left right : Token} {ts : List Token} {e : Expr} (hl : IsSymbol .leftParen left)
      (h : Assignment ts e) (hr : IsSymbol .rightParen right) :
      Primary (left :: (ts ++ [right])) (.grouping e)

end

/-- An expression where there may be none. -/
inductive OptionalExpr : List Token → Option Expr → Prop where
  | none : OptionalExpr [] none
  | some {ts : List Token} {e : Expr} (h : Assignment ts e) : OptionalExpr ts (some e)

/-! ## Declarations without statements in them -/

/-- The initial value of a variable, if there is one. -/
inductive Initializer : List Token → Option Expr → Prop where
  | none : Initializer [] none
  | some {equals : Token} {ts : List Token} {e : Expr} (he : IsSymbol .equal equals)
      (h : Assignment ts e) : Initializer (equals :: ts) (some e)

/-- `NAME ( "=" expression )? ";"`, after the word `var`. -/
inductive Variable : List Token → Stmt → Prop where
  | mk {name semicolon : Token} {ts : List Token} {initializer : Option Expr} (hn : IsName name)
      (hi : Initializer ts initializer) (hs : IsSymbol .semicolon semicolon) :
      Variable (name :: (ts ++ [semicolon])) (.var name initializer)

/-- `expression ";"` -/
inductive ExpressionEnd : List Token → Expr → Prop where
  | mk {ts : List Token} {e : Expr} {semicolon : Token} (h : Assignment ts e)
      (hs : IsSymbol .semicolon semicolon) : ExpressionEnd (ts ++ [semicolon]) e

/-- The first clause of a `for`, with its semicolon. -/
inductive ForInitializer : List Token → Option Stmt → Prop where
  | none {semicolon : Token} (h : IsSymbol .semicolon semicolon) : ForInitializer [semicolon] none
  | var {word : Token} {ts : List Token} {s : Stmt} (hw : IsWord .varWord word)
      (h : Variable ts s) : ForInitializer (word :: ts) (some s)
  | expression {ts : List Token} {e : Expr} (h : ExpressionEnd ts e) :
      ForInitializer ts (some (.expression e))

/-- `NAME ( "," NAME )*` -/
inductive ParamList : List Token → List Token → Prop where
  | one {name : Token} (h : IsName name) : ParamList [name] [name]
  | more {name comma : Token} {ts names : List Token} (h : IsName name) (hc : IsSymbol .comma comma)
      (hs : ParamList ts names) : ParamList (name :: comma :: ts) (name :: names)

/-- The parameters of a function: none, or some with commas between them. -/
inductive Params : List Token → List Token → Prop where
  | none : Params [] []
  | some {ts names : List Token} (h : ParamList ts names) : Params ts names

/-- The superclass of a class, if there is one. -/
inductive Superclass : List Token → Option Expr → Prop where
  | none : Superclass [] none
  | some {less name : Token} (hl : IsSymbol .less less) (hn : IsName name) :
      Superclass [less, name] (some (.variable 0 name))

/-- The tree of a `for`: `{ initializer; while (condition) { body; increment; } }`. Without an
initializer the outer block falls away, without an increment the inner one, and a missing condition
is `true`. -/
def forTree : Option Stmt → Option Expr → Option Expr → Stmt → Stmt
  | none, condition, none, body => .whileLoop (condition.getD (.literal .true)) body
  | none, condition, some increment, body =>
    .whileLoop (condition.getD (.literal .true)) (.block [body, .expression increment])
  | some s, condition, none, body => .block [s, .whileLoop (condition.getD (.literal .true)) body]
  | some s, condition, some increment, body =>
    .block [s, .whileLoop (condition.getD (.literal .true)) (.block [body, .expression increment])]

/-! ## Statements -/

mutual

/-- A statement. The second flag says whether it ends in an `if` without `else`, so that an `else`
after it could belong to that one. -/
inductive Statement (nearest : Bool) : Bool → List Token → Stmt → Prop where
  | expression {ts : List Token} {e : Expr} (h : ExpressionEnd ts e) :
      Statement nearest false ts (.expression e)
  | print {word : Token} {ts : List Token} {e : Expr} (hw : IsWord .printWord word)
      (h : ExpressionEnd ts e) : Statement nearest false (word :: ts) (.print e)
  | returnWith {word semicolon : Token} {ts : List Token} {value : Option Expr}
      (hw : IsWord .returnWord word) (h : OptionalExpr ts value)
      (hs : IsSymbol .semicolon semicolon) :
      Statement nearest false (word :: (ts ++ [semicolon])) (.returnWith word value)
  | block {ts : List Token} {body : List Stmt} (h : Block nearest ts body) :
      Statement nearest false ts (.block body)
  | ifThen {word left right : Token} {cs ts : List Token} {condition : Expr} {thenBranch : Stmt}
      {o : Bool} (hw : IsWord .ifWord word) (hl : IsSymbol .leftParen left)
      (hc : Assignment cs condition) (hr : IsSymbol .rightParen right)
      (ht : Statement nearest o ts thenBranch) :
      Statement nearest true (word :: left :: (cs ++ right :: ts)) (.ifThen condition thenBranch)
  | ifThenElse {word left right elseWord : Token} {cs ts us : List Token} {condition : Expr}
      {thenBranch elseBranch : Stmt} {o o' : Bool}
      (hw : IsWord .ifWord word) (hl : IsSymbol .leftParen left) (hc : Assignment cs condition)
      (hr : IsSymbol .rightParen right) (ht : Statement nearest o ts thenBranch)
      (hn : nearest = true → o = false) (he : IsWord .elseWord elseWord)
      (hs : Statement nearest o' us elseBranch) :
      Statement nearest o' (word :: left :: (cs ++ right :: (ts ++ elseWord :: us)))
        (.ifThenElse condition thenBranch elseBranch)
  | whileLoop {word left right : Token} {cs ts : List Token} {condition : Expr} {body : Stmt}
      {o : Bool} (hw : IsWord .whileWord word) (hl : IsSymbol .leftParen left)
      (hc : Assignment cs condition) (hr : IsSymbol .rightParen right)
      (hb : Statement nearest o ts body) :
      Statement nearest o (word :: left :: (cs ++ right :: ts)) (.whileLoop condition body)
  | forLoop {word left semicolon right : Token} {is cs us ts : List Token}
      {initializer : Option Stmt} {condition increment : Option Expr} {body : Stmt} {o : Bool}
      (hw : IsWord .forWord word) (hl : IsSymbol .leftParen left)
      (hi : ForInitializer is initializer) (hc : OptionalExpr cs condition)
      (hs : IsSymbol .semicolon semicolon) (hu : OptionalExpr us increment)
      (hr : IsSymbol .rightParen right) (hb : Statement nearest o ts body) :
      Statement nearest o (word :: left :: (is ++ (cs ++ semicolon :: (us ++ right :: ts))))
        (forTree initializer condition increment body)

/-- `declaration → classDecl | "fun" function | "var" varDecl | statement` -/
inductive Declaration (nearest : Bool) : List Token → Stmt → Prop where
  | classDef {word name left right : Token} {ss ts : List Token} {superclass : Option Expr}
      {methods : List FunctionDecl} (hw : IsWord .classWord word) (hn : IsName name)
      (hs : Superclass ss superclass) (hl : IsSymbol .leftBrace left)
      (hm : Methods nearest ts methods) (hr : IsSymbol .rightBrace right) :
      Declaration nearest (word :: name :: (ss ++ left :: (ts ++ [right])))
        (.classDef name superclass methods)
  | function {word : Token} {ts : List Token} {decl : FunctionDecl} (hw : IsWord .funWord word)
      (h : Function nearest ts decl) : Declaration nearest (word :: ts) (.function decl)
  | var {word : Token} {ts : List Token} {s : Stmt} (hw : IsWord .varWord word)
      (h : Variable ts s) : Declaration nearest (word :: ts) s
  | statement {ts : List Token} {s : Stmt} {o : Bool} (h : Statement nearest o ts s) :
      Declaration nearest ts s

/-- `program → declaration*`, and what stands in a block. -/
inductive Program (nearest : Bool) : List Token → List Stmt → Prop where
  | nil : Program nearest [] []
  | cons {ts us : List Token} {s : Stmt} {rest : List Stmt} (h : Declaration nearest ts s)
      (hs : Program nearest us rest) : Program nearest (ts ++ us) (s :: rest)

/-- `block → "{" declaration* "}"` -/
inductive Block (nearest : Bool) : List Token → List Stmt → Prop where
  | mk {left right : Token} {ts : List Token} {body : List Stmt} (hl : IsSymbol .leftBrace left)
      (h : Program nearest ts body) (hr : IsSymbol .rightBrace right) :
      Block nearest (left :: (ts ++ [right])) body

/-- `function → NAME "(" parameters? ")" block` -/
inductive Function (nearest : Bool) : List Token → FunctionDecl → Prop where
  | mk {name left right : Token} {ps ts params : List Token} {body : List Stmt} (hn : IsName name)
      (hl : IsSymbol .leftParen left) (hp : Params ps params) (hm : params.length ≤ 255)
      (hr : IsSymbol .rightParen right) (hb : Block nearest ts body) :
      Function nearest (name :: left :: (ps ++ right :: ts)) ⟨name, params, body⟩

/-- `function*`, in a class. -/
inductive Methods (nearest : Bool) : List Token → List FunctionDecl → Prop where
  | nil : Methods nearest [] []
  | cons {ts us : List Token} {d : FunctionDecl} {rest : List FunctionDecl}
      (h : Function nearest ts d) (hs : Methods nearest us rest) :
      Methods nearest (ts ++ us) (d :: rest)

end

end Grammar

end Lox
