import Lox.Proofs.Binding.Visits

/-!
# Kinds of functions and classes

The walk knows of which kind the function and the class around a place are. Entering a function or a
class changes what it knows, and leaving brings back what it knew. So no expression and no statement
changes it (`Stmt.kinds_resolve`).
-/

namespace Lox

namespace Resolver

/-- The kinds of the function and the class around are the same. -/
structure SameKinds (r r' : Resolver) : Prop where
  functionKind : r'.functionKind = r.functionKind
  classKind : r'.classKind = r.classKind

namespace SameKinds

variable {r r₁ r₂ : Resolver}

theorem refl : SameKinds r r :=
  ⟨rfl, rfl⟩

theorem trans (h : SameKinds r r₁) (h' : SameKinds r₁ r₂) : SameKinds r r₂ :=
  ⟨h'.functionKind.trans h.functionKind, h'.classKind.trans h.classKind⟩

end SameKinds

variable (r : Resolver)

/-- A report changes no kind. -/
theorem kinds_reportIf (broken : Bool) (t : Token) (fault : StaticFault) :
    SameKinds r (r.reportIf broken t fault) := by
  cases broken <;> exact ⟨rfl, rfl⟩

/-- Marking a name changes no kind. -/
theorem kinds_mark (name : String) (b : Bool) : SameKinds r (r.mark name b) := by
  unfold mark
  split <;> exact ⟨rfl, rfl⟩

theorem kinds_declare (name : Token) : SameKinds r (r.declare name) :=
  (r.kinds_mark name.lexeme false).trans (kinds_reportIf _ _ _ _)

theorem kinds_define (name : Token) : SameKinds r (r.define name) := by
  unfold define
  split
  · exact ⟨rfl, rfl⟩
  · exact r.kinds_mark name.lexeme true

/-- Parameters change no kind. -/
theorem kinds_introduce (names : List Token) : SameKinds r (r.introduce names) := by
  induction names generalizing r with
  | nil => exact .refl
  | cons name rest ih => exact ((r.kinds_declare name).trans (kinds_define _ name)).trans (ih _)

/-- Recording a use changes no kind. -/
theorem kinds_record (id : NodeId) (name : String) : SameKinds r (r.record id name) := by
  unfold record
  split <;> exact ⟨rfl, rfl⟩

theorem kinds_beginInitializer (name : String) : SameKinds r (r.beginInitializer name) := by
  unfold beginInitializer
  split <;> exact ⟨rfl, rfl⟩

theorem kinds_endInitializer : SameKinds r r.endInitializer :=
  ⟨rfl, rfl⟩

/-- A return statement changes no kind. -/
theorem kinds_atReturn (word : Token) (value : Option Expr) : SameKinds r (r.atReturn word value) :=
  (r.kinds_reportIf _ word _).trans (kinds_reportIf _ _ word _)

theorem functionKind_atSuperclass (name : Token) (e : Expr) :
    (r.atSuperclass name e).functionKind = r.functionKind := by
  have h := (kinds_declare { r with classKind := .plain } name).trans (kinds_define _ name)
  cases e with
  | «variable» id superName => exact (kinds_reportIf _ _ _ _).functionKind.trans h.functionKind
  | _ => exact h.functionKind

end Resolver

open Resolver (SameKinds)

namespace Expr

mutual

/-- An expression changes no kind. -/
theorem kinds_resolve : ∀ (e : Expr) (r : Resolver), SameKinds r (e.resolve r)
  | .literal _, _ => .refl
  | .grouping e, r | .unary _ e, r | .get e _, r => kinds_resolve e r
  | .binary a _ b, r | .logical a _ b, r | .set b _ a, r =>
    (kinds_resolve a r).trans (kinds_resolve b _)
  | .variable _ _, r | .superRef _ _ _, r =>
    ((r.kinds_reportIf _ _ _).trans (Resolver.kinds_reportIf _ _ _ _)).trans
      (Resolver.kinds_record _ _ _)
  | .assign _ _ value, r => (kinds_resolve value r).trans (Resolver.kinds_record _ _ _)
  | .call callee _ arguments, r => (kinds_resolve callee r).trans (kinds_resolveAll arguments _)
  | .thisRef id word, r => by
    unfold resolve
    split
    · exact ⟨rfl, rfl⟩
    · exact r.kinds_record id word.lexeme

theorem kinds_resolveAll : ∀ (es : List Expr) (r : Resolver), SameKinds r (resolveAll es r)
  | [], _ => .refl
  | e :: rest, r => (kinds_resolve e r).trans (kinds_resolveAll rest _)

end

end Expr

/-- A class is in the function that is around it. -/
theorem Resolver.functionKind_enterClass (r : Resolver) (name : Token) (superclass : Option Expr) :
    (r.enterClass name superclass).functionKind = r.functionKind := by
  cases superclass with
  | none =>
    exact ((kinds_declare { r with classKind := .plain } name).trans
      (kinds_define _ name)).functionKind
  | some e =>
    rw [enterClass_some]
    exact (e.kinds_resolve _).functionKind.trans (r.functionKind_atSuperclass name e)

/-- Which kind of class is around a method depends on inheritance only. -/
theorem Resolver.classKind_enterClass (r : Resolver) (name : Token) (superclass : Option Expr) :
    (r.enterClass name superclass).classKind = if superclass.isSome then .subclass else .plain := by
  cases superclass with
  | none =>
    exact ((kinds_declare { r with classKind := .plain } name).trans
      (kinds_define _ name)).classKind
  | some e =>
    rw [enterClass_some]
    exact (e.kinds_resolve _).classKind

/-- Entering a function changes the kind of function only. -/
theorem Resolver.kinds_enterFunction (r : Resolver) (kind : FunctionKind) (params : List Token) :
    (r.enterFunction kind params).functionKind = kind ∧
      (r.enterFunction kind params).classKind = r.classKind := by
  have h := kinds_introduce (({ r with functionKind := kind }).push ∅) params
  exact ⟨h.functionKind, h.classKind⟩

namespace Stmt

mutual

/-- A statement restores the kinds that it changes. -/
theorem kinds_resolve : ∀ (s : Stmt) (r : Resolver), SameKinds r (s.resolve r)
  | .expression value, r | .print value, r => value.kinds_resolve r
  | .var name none, r => (r.kinds_declare name).trans (Resolver.kinds_define _ name)
  | .var name (some value), r => by
    have h := ((r.kinds_declare name).trans (Resolver.kinds_beginInitializer _ name.lexeme)).trans
      (value.kinds_resolve _)
    exact (h.trans (Resolver.kinds_endInitializer _)).trans (Resolver.kinds_define _ name)
  | .block body, r => by
    have h := kinds_resolveAll body (r.push ∅)
    exact ⟨h.functionKind, h.classKind⟩
  | .ifThen e s, r | .whileLoop e s, r => (e.kinds_resolve r).trans (kinds_resolve s _)
  | .ifThenElse e s s', r =>
    ((e.kinds_resolve r).trans (kinds_resolve s _)).trans (kinds_resolve s' _)
  | .function decl, r =>
    ((r.kinds_declare decl.name).trans (Resolver.kinds_define _ decl.name)).trans
      (kinds_resolveFunction .function decl _)
  | .returnWith word value, r => by
    refine (r.kinds_atReturn word value).trans ?_
    cases value with
    | none => exact .refl
    | some e => exact e.kinds_resolve _
  | .classDef name superclass methods, r => by
    have h := kinds_resolveMethods methods (r.enterClass name superclass)
    have hfunction := h.functionKind.trans (r.functionKind_enterClass name superclass)
    cases superclass <;> exact ⟨hfunction, rfl⟩

theorem kinds_resolveFunction : ∀ (kind : FunctionKind) (d : FunctionDecl) (r : Resolver),
    SameKinds r (resolveFunction kind d r)
  | kind, ⟨_, params, body⟩, r => by
    have h := kinds_resolveAll body (r.enterFunction kind params)
    exact ⟨rfl, h.classKind.trans (r.kinds_enterFunction kind params).2⟩

theorem kinds_resolveAll : ∀ (body : List Stmt) (r : Resolver), SameKinds r (resolveAll body r)
  | [], _ => .refl
  | s :: rest, r => (kinds_resolve s r).trans (kinds_resolveAll rest _)

theorem kinds_resolveMethods :
    ∀ (ds : List FunctionDecl) (r : Resolver), SameKinds r (resolveMethods ds r)
  | [], _ => .refl
  | d :: rest, r => (kinds_resolveFunction _ d r).trans (kinds_resolveMethods rest _)

end

end Stmt

end Lox
