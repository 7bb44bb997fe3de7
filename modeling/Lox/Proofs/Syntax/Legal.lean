import Lox.Proofs.Syntax.Formed

/-!
# Operators and names in trees from a source

In a tree from a source the operators are the operators of the language, and no variable that is
read or assigned to is spelled like `this` or `super`. The first comes from the grammar, the second
from the scanner.
-/

namespace Lox

/-- A token that stands for an operator with one operand. -/
abbrev Token.IsUnary (t : Token) : Prop := t.kind = .symbol .bang ∨ t.kind = .symbol .minus

/-- A token that stands for an operator with two operands that are both evaluated. -/
abbrev Token.IsBinary (t : Token) : Prop := ∃ l, Grammar.BinaryOperator l t.kind

namespace Expr

mutual

/-- Operators are operators, and names of variables are free. -/
def Legal : Expr → Prop
  | .literal _ => True
  | .grouping inner => Legal inner
  | .unary operator right => operator.IsUnary ∧ Legal right
  | .binary left operator right => operator.IsBinary ∧ Legal left ∧ Legal right
  | .logical left _ right => Legal left ∧ Legal right
  | .variable _ name => name.IsFree
  | .assign _ name value => name.IsFree ∧ Legal value
  | .call callee _ arguments => Legal callee ∧ LegalAll arguments
  | .get object _ => Legal object
  | .set object _ value => Legal object ∧ Legal value
  | .thisRef _ _ => True
  | .superRef _ _ _ => True

/-- Each expression is legal. -/
def LegalAll : List Expr → Prop
  | [] => True
  | e :: rest => Legal e ∧ LegalAll rest

end

/-- An expression that may be missing is legal. -/
def Legal? (e? : Option Expr) : Prop :=
  ∀ e, e? = some e → e.Legal

end Expr

namespace Stmt

mutual

/-- Each expression in the statement is legal. -/
def Legal : Stmt → Prop
  | .expression value => value.Legal
  | .print value => value.Legal
  | .var _ initializer => Expr.Legal? initializer
  | .block body => LegalAll body
  | .ifThen condition thenBranch => condition.Legal ∧ Legal thenBranch
  | .ifThenElse condition thenBranch elseBranch =>
    condition.Legal ∧ Legal thenBranch ∧ Legal elseBranch
  | .whileLoop condition body => condition.Legal ∧ Legal body
  | .function decl => LegalFunction decl
  | .returnWith _ value => Expr.Legal? value
  | .classDef _ superclass methods => Expr.Legal? superclass ∧ LegalMethods methods

/-- Each statement is legal. -/
def LegalAll : List Stmt → Prop
  | [] => True
  | s :: rest => Legal s ∧ LegalAll rest

/-- The body of the function is legal. -/
def LegalFunction : FunctionDecl → Prop
  | ⟨_, _, body⟩ => LegalAll body

/-- Each method is legal. -/
def LegalMethods : List FunctionDecl → Prop
  | [] => True
  | d :: rest => LegalFunction d ∧ LegalMethods rest

end

end Stmt

/-! ## Trees made of spelled tokens -/

namespace Expr

mutual

/-- An expression made of spelled tokens is legal. -/
theorem legal_of_madeOf : ∀ (e : Expr), e.MadeOf Token.Spelled → e.Legal
  | .literal _, _ | .thisRef _ _, _ | .superRef _ _ _, _ => trivial
  | .grouping e, h | .get e _, ⟨_, h⟩ => legal_of_madeOf e h
  | .unary _ e, ⟨⟨ho, _⟩, h⟩ => ⟨ho, legal_of_madeOf e h⟩
  | .binary a _ b, ⟨⟨ho, _⟩, ha, hb⟩ => ⟨ho, legal_of_madeOf a ha, legal_of_madeOf b hb⟩
  | .logical a _ b, ⟨_, ha, hb⟩ | .set a _ b, ⟨_, ha, hb⟩ =>
    ⟨legal_of_madeOf a ha, legal_of_madeOf b hb⟩
  | .variable _ _, ⟨hname, h⟩ => h.isFree hname
  | .assign _ _ e, ⟨⟨hname, h⟩, he⟩ => ⟨h.isFree hname, legal_of_madeOf e he⟩
  | .call callee _ arguments, ⟨_, hc, ha⟩ =>
    ⟨legal_of_madeOf callee hc, legalAll_of_madeOf arguments ha⟩

theorem legalAll_of_madeOf : ∀ (es : List Expr), MadeOfAll Token.Spelled es → LegalAll es
  | [], _ => trivial
  | e :: rest, ⟨h, hs⟩ => ⟨legal_of_madeOf e h, legalAll_of_madeOf rest hs⟩

end

theorem legal?_of_madeOf {e? : Option Expr} (h : MadeOf? Token.Spelled e?) : Legal? e? :=
  fun e he => legal_of_madeOf e (h e he)

end Expr

namespace Stmt

mutual

/-- A statement made of spelled tokens is legal. -/
theorem legal_of_madeOf : ∀ (s : Stmt), s.MadeOf Token.Spelled → s.Legal
  | .expression e, h | .print e, h => Expr.legal_of_madeOf e h
  | .var _ _, ⟨_, h⟩ | .returnWith _ _, ⟨_, h⟩ => Expr.legal?_of_madeOf h
  | .block body, h => legalAll_of_madeOf body h
  | .ifThen e s, ⟨he, _, hs⟩ | .whileLoop e s, ⟨he, _, hs⟩ =>
    ⟨Expr.legal_of_madeOf e he, legal_of_madeOf s hs⟩
  | .ifThenElse e s s', ⟨he, ⟨_, hs⟩, _, hs'⟩ =>
    ⟨Expr.legal_of_madeOf e he, legal_of_madeOf s hs, legal_of_madeOf s' hs'⟩
  | .function decl, h => legalFunction_of_madeOf decl h
  | .classDef _ _ methods, ⟨_, hsuper, hm⟩ => by
    refine ⟨fun e he => ?_, legalMethods_of_madeOf methods hm⟩
    obtain ⟨id, superName, rfl, hname, h⟩ := hsuper e he
    exact h.isFree hname

theorem legalAll_of_madeOf : ∀ (body : List Stmt), MadeOfAll Token.Spelled body → LegalAll body
  | [], _ => trivial
  | s :: rest, ⟨h, hs⟩ => ⟨legal_of_madeOf s h, legalAll_of_madeOf rest hs⟩

/-- A function made of spelled tokens is legal. -/
theorem legalFunction_of_madeOf :
    ∀ (d : FunctionDecl), FunctionMadeOf Token.Spelled d → LegalFunction d
  | ⟨_, _, body⟩, ⟨_, _, hb⟩ => legalAll_of_madeOf body hb

theorem legalMethods_of_madeOf :
    ∀ (ds : List FunctionDecl), MethodsMadeOf Token.Spelled ds → LegalMethods ds
  | [], _ => trivial
  | d :: rest, ⟨h, hs⟩ => ⟨legalFunction_of_madeOf d h, legalMethods_of_madeOf rest hs⟩

end

end Stmt

/-- A program read from a source is legal. -/
theorem Parse.legal (source : List UInt8) (nextId : NodeId) :
    Stmt.LegalAll (Parse.ofTokens (Scan.ofSource source).tokens nextId).program :=
  Stmt.legalAll_of_madeOf _ (Parse.madeOf fun _ => Scan.spelled)

end Lox
