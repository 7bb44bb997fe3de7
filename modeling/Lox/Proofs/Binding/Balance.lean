import Lox.Proofs.Binding.Kinds

/-!
# The walk leaves its context as it was

Scopes are entered and left by hand around the parts of a tree, and so are functions and classes.
Whatever the tree is, and whatever was known before it, a statement leaves as many scopes as there
were, changes no scope but the innermost, and takes no name and no definition out of that one
(`Scopes.Grows`). What else is known of the place is the same again.

`Stmt.scopes_resolve` says more, but only of trees from a source: here nothing is asked of the tree.
-/

namespace Lox

namespace Scopes

/-- The mark of a name in the innermost scope. -/
def mark? (Γ : Scopes) (name : String) : Option Bool :=
  Γ.head?.bind fun t => t.find? name

/-- Only the innermost scope has changed: it has the names that it had, and those that were defined
still are. -/
structure Grows (Γ Γ' : Scopes) : Prop where
  height : Γ'.length = Γ.length
  outer : Γ'.tail = Γ.tail
  declared : ∀ name, (Γ.mark? name).isSome = true → (Γ'.mark? name).isSome = true
  defined : ∀ name, Γ.mark? name = some true → Γ'.mark? name = some true

theorem mark?_mark (Γ : Scopes) (name other : String) (b : Bool) :
    (Γ.mark name b).mark? other = if other = name ∧ Γ ≠ [] then some b else Γ.mark? other := by
  cases Γ with
  | nil => simp [mark, mark?]
  | cons t outer => simp [mark, mark?, NameTable.find?_insert]

namespace Grows

variable {Γ Γ' Γ'' : Scopes}

theorem refl : Grows Γ Γ :=
  ⟨rfl, rfl, fun _ h => h, fun _ h => h⟩

theorem of_eq (h : Γ' = Γ) : Grows Γ Γ' := by
  rw [h]
  exact .refl

theorem trans (h : Grows Γ Γ') (h' : Grows Γ' Γ'') : Grows Γ Γ'' where
  height := h'.height.trans h.height
  outer := h'.outer.trans h.outer
  declared name hname := h'.declared name (h.declared name hname)
  defined name hname := h'.defined name (h.defined name hname)

/-- A name that is declared and then defined takes nothing away. -/
theorem mark (name : String) : Grows Γ (Γ.mark name true) := by
  refine ⟨length_mark Γ name true, tail_mark Γ name true, ?_, ?_⟩
  · intro other hother
    rw [mark?_mark]
    split
    · rfl
    · exact hother
  · intro other hother
    rw [mark?_mark]
    split
    · rfl
    · exact hother

end Grows

end Scopes

namespace Stmt

open Scopes (Grows)

mutual

/-- A statement changes the innermost scope only, and takes nothing out of it. -/
theorem resolve_grows : ∀ (s : Stmt) (r : Resolver), Grows r.scopes (s.resolve r).scopes
  | .expression value, r => .of_eq (value.scopes_resolve r)
  | .print value, r => .of_eq (value.scopes_resolve r)
  | .var name none, r => by
    have h : ((Stmt.var name none).resolve r).scopes = Scopes.mark r.scopes name.lexeme true :=
      r.scopes_define_declare name
    rw [h]
    exact .mark name.lexeme
  | .var name (some value), r => by
    -- The name is declared before its initial value is looked at and defined after it, so that it
    -- is marked twice.
    have hvalue :
        (value.resolve ((r.declare name).beginInitializer name.lexeme)).endInitializer.scopes =
        Scopes.mark r.scopes name.lexeme false := by
      show (value.resolve _).scopes = _
      rw [Expr.scopes_resolve, Resolver.scopes_beginInitializer, Resolver.scopes_declare]
    have h : ((Stmt.var name (some value)).resolve r).scopes =
        Scopes.mark r.scopes name.lexeme true := by
      show ((value.resolve _).endInitializer.define name).scopes = _
      rw [Resolver.scopes_define, hvalue, Scopes.mark_mark]
    rw [h]
    exact .mark name.lexeme
  | .block body, r => by
    have h := (resolveAll_grows body (r.push ∅)).outer
    exact .of_eq h
  | .ifThen condition thenBranch, r => by
    have h := resolve_grows thenBranch (condition.resolve r)
    rw [condition.scopes_resolve] at h
    exact h
  | .ifThenElse condition thenBranch elseBranch, r => by
    have h := resolve_grows thenBranch (condition.resolve r)
    rw [condition.scopes_resolve] at h
    exact h.trans (resolve_grows elseBranch _)
  | .whileLoop condition body, r => by
    have h := resolve_grows body (condition.resolve r)
    rw [condition.scopes_resolve] at h
    exact h
  | .function decl, r => by
    have h := function_restores_scopes .function decl ((r.declare decl.name).define decl.name)
    rw [r.scopes_define_declare] at h
    show Grows r.scopes (resolveFunction .function decl _).scopes
    rw [h]
    exact .mark decl.name.lexeme
  | .returnWith word value, r => by
    refine .of_eq ?_
    simp [resolve]
  | .classDef name superclass methods, r => by
    -- As many scopes are left as were entered, since both look at the superclass.
    have hmethods := methods_restore_scopes methods (r.enterClass name superclass)
    rw [r.scopes_enterClass name superclass] at hmethods
    have h : ((Stmt.classDef name superclass methods).resolve r).scopes =
        Scopes.mark r.scopes name.lexeme true := by
      show (Resolver.leaveClass _ superclass r.classKind).scopes = _
      cases superclass with
      | none =>
        show (resolveMethods methods _).scopes.tail = _
        rw [hmethods]
        rfl
      | some e =>
        show (resolveMethods methods _).scopes.tail.tail = _
        rw [hmethods]
        rfl
    rw [h]
    exact .mark name.lexeme

/-- Statements in turn change the innermost scope only, and take nothing out of it. -/
theorem resolveAll_grows :
    ∀ (body : List Stmt) (r : Resolver), Grows r.scopes (resolveAll body r).scopes
  | [], _ => .refl
  | s :: rest, r => (resolve_grows s r).trans (resolveAll_grows rest _)

/-- A function leaves the scope that it enters, with all that its body declares. -/
theorem function_restores_scopes : ∀ (kind : FunctionKind) (d : FunctionDecl) (r : Resolver),
    (resolveFunction kind d r).scopes = r.scopes
  | kind, ⟨_, params, body⟩, r => by
    have h := (resolveAll_grows body (r.enterFunction kind params)).outer
    rw [r.scopes_enterFunction kind params] at h
    exact h

theorem methods_restore_scopes :
    ∀ (ds : List FunctionDecl) (r : Resolver), (resolveMethods ds r).scopes = r.scopes
  | [], _ => rfl
  | d :: rest, r => (methods_restore_scopes rest _).trans (function_restores_scopes _ d r)

end

end Stmt

namespace Resolver

end Resolver

end Lox
