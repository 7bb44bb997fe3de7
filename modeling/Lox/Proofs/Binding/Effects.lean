import Lox.Binding.Resolve
import Lox.Proofs.Syntax.Formed

/-!
# What the walk over a tree changes

Looking at a node changes little. Reports are only added, distances are recorded only for the ids of
the node (`Touches`), and the scopes afterwards are those before, with the name that the node
declares (`Stmt.scopesAfter`).
-/

namespace Lox

/-! ## Scopes -/

/-- The scopes around a place, the innermost first. -/
abbrev Scopes := List (NameTable Bool)

namespace Scopes

/-- Marks a name in the innermost scope. -/
def mark (Γ : Scopes) (name : String) (isDefined : Bool) : Scopes :=
  match Γ with
  | [] => []
  | t :: outer => t.insert name isDefined :: outer

/-- Writing a mark twice keeps the second one. -/
theorem mark_mark (Γ : Scopes) (name : String) (a b : Bool) :
    (Γ.mark name a).mark name b = Γ.mark name b := by
  have hentry (entries : List (String × Bool)) :
      NameTable.insertEntry name b (NameTable.insertEntry name a entries) =
      NameTable.insertEntry name b entries := by
    induction entries with
    | nil => simp [NameTable.insertEntry]
    | cons e rest ih =>
      obtain ⟨key, c⟩ := e
      by_cases hk : key = name <;> simp [NameTable.insertEntry, hk, ih]
  cases Γ with
  | nil => rfl
  | cons t outer => simp [mark, NameTable.insert, hentry]

/-- Only the innermost scope is marked. -/
theorem tail_mark (Γ : Scopes) (name : String) (b : Bool) : (Γ.mark name b).tail = Γ.tail := by
  cases Γ <;> rfl

theorem length_mark (Γ : Scopes) (name : String) (b : Bool) :
    (Γ.mark name b).length = Γ.length := by
  cases Γ <;> rfl

end Scopes

/-! ## Operations -/

namespace Resolver

variable (r : Resolver)

theorem scopes_mark (name : String) (b : Bool) :
    (r.mark name b).scopes = Scopes.mark r.scopes name b := by
  cases h : r.scopes <;> simp [mark, Scopes.mark, h]

/-- Whether something has gone wrong is noted exactly if something has been reported. -/
def Flagged (r : Resolver) : Prop :=
  r.hadError = !r.errors.isEmpty

/-- A step of the walk that adds reports, notes that it does so, and records distances of some ids
only. -/
structure Touches (ids : List NodeId) (r r' : Resolver) : Prop where
  errors : r.errors <+: r'.errors
  flagged : r.Flagged → r'.Flagged
  distances : ∀ id, id ∉ ids → r'.distances[id]? = r.distances[id]?

namespace Touches

variable {r r₁ r₂ : Resolver} {xs ys : List NodeId}

theorem refl : Touches [] r r :=
  ⟨List.prefix_rfl, id, fun _ _ => rfl⟩

/-- One step after another. -/
theorem trans (h : Touches xs r r₁) (h' : Touches ys r₁ r₂) : Touches (xs ++ ys) r r₂ := by
  refine ⟨h.errors.trans h'.errors, h'.flagged ∘ h.flagged, fun id hid => ?_⟩
  rw [List.mem_append, not_or] at hid
  rw [h'.distances id hid.2, h.distances id hid.1]

/-- A step that records nothing may follow. -/
theorem after (h : Touches xs r r₁) (h' : Touches [] r₁ r₂) : Touches xs r r₂ := by
  simpa using h.trans h'

/-- A step that records nothing may come first. -/
theorem before (h : Touches [] r r₁) (h' : Touches xs r₁ r₂) : Touches xs r r₂ :=
  h.trans h'

theorem mono (h : Touches xs r r₁) (hsub : ∀ id, id ∈ xs → id ∈ ys) : Touches ys r r₁ :=
  ⟨h.errors, h.flagged, fun id hid => h.distances id fun hx => hid (hsub id hx)⟩

/-- A step that leaves reports and distances alone. -/
theorem of_eq (he : r₁.errors = r.errors) (hf : r₁.hadError = r.hadError)
    (hd : r₁.distances = r.distances) : Touches [] r r₁ :=
  ⟨he ▸ List.prefix_rfl, fun h => by rw [Flagged, hf, he, h], fun _ _ => by rw [hd]⟩

end Touches

/-- A report records no distance. -/
theorem touches_reportIf (broken : Bool) (t : Token) (fault : StaticFault) :
    Touches [] r (r.reportIf broken t fault) := by
  cases broken with
  | true =>
    exact ⟨List.prefix_append _ _, fun _ => by simp [Flagged, reportIf, report], fun _ _ => rfl⟩
  | false => exact .refl

theorem touches_mark (name : String) (b : Bool) : Touches [] r (r.mark name b) := by
  unfold mark
  split
  · exact .of_eq rfl rfl rfl
  · exact .refl

theorem touches_declare (name : Token) : Touches [] r (r.declare name) :=
  (r.touches_mark name.lexeme false).trans (touches_reportIf _ _ _ _)

theorem touches_define (name : Token) : Touches [] r (r.define name) := by
  unfold define
  split
  · exact .of_eq rfl rfl rfl
  · exact r.touches_mark name.lexeme true

theorem touches_introduce (names : List Token) : Touches [] r (r.introduce names) := by
  induction names generalizing r with
  | nil => exact .refl
  | cons name rest ih =>
    exact ((r.touches_declare name).trans ((r.declare name).touches_define name)).trans (ih _)

/-- Recording a use touches the distance of its id only. -/
theorem touches_record (id : NodeId) (name : String) : Touches [id] r (r.record id name) := by
  unfold record
  split
  · refine ⟨List.prefix_rfl, fun h => h, fun other hother => ?_⟩
    rw [Std.HashMap.getElem?_insert, if_neg]
    intro h
    exact hother (List.mem_singleton.mpr (beq_iff_eq.mp h).symm)
  · exact ⟨List.prefix_rfl, fun h => h, fun _ _ => rfl⟩

theorem touches_beginInitializer (name : String) : Touches [] r (r.beginInitializer name) := by
  unfold beginInitializer
  split
  · exact .of_eq rfl rfl rfl
  · exact .refl

@[simp] theorem scopes_reportIf (broken : Bool) (t : Token) (fault : StaticFault) :
    (r.reportIf broken t fault).scopes = r.scopes := by
  cases broken <;> rfl

/-- Declaring marks the name as not yet defined. -/
@[simp] theorem scopes_declare (name : Token) :
    (r.declare name).scopes = Scopes.mark r.scopes name.lexeme false := by
  rw [declare, scopes_reportIf, scopes_mark]

/-- Defining marks the name as defined. -/
@[simp] theorem scopes_define (name : Token) :
    (r.define name).scopes = Scopes.mark r.scopes name.lexeme true := by
  unfold define
  split
  · next h => simp [h, Scopes.mark]
  · exact r.scopes_mark name.lexeme true

/-- Once a name is defined, that it was only declared is forgotten. -/
theorem scopes_define_declare (name : Token) :
    ((r.declare name).define name).scopes = Scopes.mark r.scopes name.lexeme true := by
  rw [scopes_define, scopes_declare, Scopes.mark_mark]

@[simp] theorem scopes_record (id : NodeId) (name : String) :
    (r.record id name).scopes = r.scopes := by
  unfold record
  split <;> rfl

@[simp] theorem scopes_beginInitializer (name : String) :
    (r.beginInitializer name).scopes = r.scopes := by
  unfold beginInitializer
  split <;> rfl

/-- What is known where the superclass of a class is looked at. -/
def atSuperclass (r : Resolver) (name : Token) (superclass : Expr) : Resolver :=
  let r := ({ r with classKind := .plain }.declare name).define name
  let r := match superclass with
    | .variable _ superName =>
      r.reportIf (superName.lexeme == name.lexeme) superName .inheritsFromItself
    | _ => r
  { r with classKind := .subclass }

/-- A class that inherits enters the scopes of `super` and `this`, in this order. -/
theorem enterClass_some (name : Token) (e : Expr) : r.enterClass name (some e) =
    ((e.resolve (r.atSuperclass name e)).push (synthetic "super")).push (synthetic "this") := rfl

theorem scopes_atSuperclass (name : Token) (e : Expr) :
    (r.atSuperclass name e).scopes = Scopes.mark r.scopes name.lexeme true := by
  have h := scopes_define_declare { r with classKind := .plain } name
  cases e with
  | «variable» id superName => exact (scopes_reportIf _ _ _ _).trans h
  | _ => exact h

/-- Nothing is recorded before the superclass is looked at. -/
theorem touches_atSuperclass (name : Token) (e : Expr) : Touches [] r (r.atSuperclass name e) := by
  have h : Touches [] r (({ r with classKind := .plain }.declare name).define name) :=
    ((Touches.of_eq rfl rfl rfl : Touches [] r { r with classKind := .plain }).trans
      (touches_declare _ name)).trans (touches_define _ name)
  cases e with
  | «variable» id superName => exact (h.trans (touches_reportIf _ _ _ _)).trans (.of_eq rfl rfl rfl)
  | _ => exact h.trans (.of_eq rfl rfl rfl)

end Resolver

/-! ## Expressions -/

namespace Expr

open Resolver (Touches)

mutual

/-- Resolving an expression records distances of its own ids only. -/
theorem touches_resolve : ∀ (e : Expr) (r : Resolver), Touches e.ids r (e.resolve r)
  | .literal _, _ => .refl
  | .grouping inner, r => touches_resolve inner r
  | .unary _ right, r => touches_resolve right r
  | .binary left _ right, r => (touches_resolve left r).trans (touches_resolve right _)
  | .logical left _ right, r => (touches_resolve left r).trans (touches_resolve right _)
  | .variable _ _, r => ((r.touches_reportIf _ _ _).trans (Resolver.touches_reportIf _ _ _ _)).trans
      (Resolver.touches_record _ _ _)
  | .assign _ _ value, r => (touches_resolve value r).trans (Resolver.touches_record _ _ _)
  | .call callee _ arguments, r => (touches_resolve callee r).trans (touches_resolveAll arguments _)
  | .get object _, r => touches_resolve object r
  | .set object _ value, r =>
    ((touches_resolve value r).trans (touches_resolve object _)).mono fun id hid => by
      rw [ids, List.mem_append]
      exact (List.mem_append.mp hid).symm
  | .thisRef id word, r => by
    unfold resolve
    split
    · exact (r.touches_reportIf true word .thisOutsideClass).mono fun _ h => nomatch h
    · exact r.touches_record id word.lexeme
  | .superRef _ _ _, r =>
    ((r.touches_reportIf _ _ _).trans (Resolver.touches_reportIf _ _ _ _)).trans
      (Resolver.touches_record _ _ _)

theorem touches_resolveAll :
    ∀ (es : List Expr) (r : Resolver), Touches (idsAll es) r (resolveAll es r)
  | [], _ => .refl
  | e :: rest, r => (touches_resolve e r).trans (touches_resolveAll rest _)

end

theorem touches_resolve? (e? : Option Expr) (r : Resolver) :
    Touches (ids? e?) r (resolve? e? r) := by
  cases e? with
  | none => exact .refl
  | some e => exact e.touches_resolve r

mutual

/-- An expression declares nothing. -/
@[simp] theorem scopes_resolve : ∀ (e : Expr) (r : Resolver), (e.resolve r).scopes = r.scopes
  | .literal _, _ => rfl
  | .grouping inner, r => scopes_resolve inner r
  | .unary _ right, r => scopes_resolve right r
  | .binary left _ right, r => (scopes_resolve right _).trans (scopes_resolve left r)
  | .logical left _ right, r => (scopes_resolve right _).trans (scopes_resolve left r)
  | .variable _ _, r => by simp [resolve]
  | .assign _ _ value, r => (Resolver.scopes_record _ _ _).trans (scopes_resolve value r)
  | .call callee _ arguments, r => (scopes_resolveAll arguments _).trans (scopes_resolve callee r)
  | .get object _, r => scopes_resolve object r
  | .set object _ value, r => (scopes_resolve object _).trans (scopes_resolve value r)
  | .thisRef id word, r => by
    unfold resolve
    split
    · rfl
    · exact r.scopes_record id word.lexeme
  | .superRef _ _ _, r => by simp [resolve]

@[simp] theorem scopes_resolveAll :
    ∀ (es : List Expr) (r : Resolver), (resolveAll es r).scopes = r.scopes
  | [], _ => rfl
  | e :: rest, r => (scopes_resolveAll rest _).trans (scopes_resolve e r)

end

@[simp] theorem scopes_resolve? (e? : Option Expr) (r : Resolver) :
    (resolve? e? r).scopes = r.scopes := by
  cases e? with
  | none => rfl
  | some e => exact e.scopes_resolve r

end Expr

/-! ## Entering and leaving -/

namespace Resolver

variable (r : Resolver)

theorem touches_push (scope : NameTable Bool) : Touches [] r (r.push scope) := .of_eq rfl rfl rfl

theorem touches_pop : Touches [] r r.pop := .of_eq rfl rfl rfl

theorem touches_endInitializer : Touches [] r r.endInitializer := .of_eq rfl rfl rfl

/-- Entering a class records what its superclass uses. -/
theorem touches_enterClass (name : Token) (superclass : Option Expr) :
    Touches (Expr.ids? superclass) r (r.enterClass name superclass) := by
  cases superclass with
  | none =>
    have h : Touches [] r { r with classKind := .plain } := .of_eq rfl rfl rfl
    exact ((h.trans (touches_declare _ name)).trans (touches_define _ name)).trans
      (touches_push _ _)
  | some e =>
    rw [enterClass_some]
    exact ((r.touches_atSuperclass name e).before (e.touches_resolve _)).after
      ((touches_push _ _).trans (touches_push _ _))

theorem touches_leaveClass (superclass : Option Expr) (outside : ClassKind) :
    Touches [] r (r.leaveClass superclass outside) := by
  cases superclass <;> exact .of_eq rfl rfl rfl

theorem touches_enterFunction (kind : FunctionKind) (params : List Token) :
    Touches [] r (r.enterFunction kind params) := by
  have h : Touches [] r (({ r with functionKind := kind }).push ∅) := .of_eq rfl rfl rfl
  exact h.trans (touches_introduce _ params)

theorem touches_leaveFunction (outside : FunctionKind) : Touches [] r (r.leaveFunction outside) :=
  .of_eq rfl rfl rfl

/-- The scopes around the methods of a class, the innermost first. -/
def classScopes (inherits : Bool) : Scopes :=
  synthetic "this" :: if inherits then [synthetic "super"] else []

/-- Around the methods of a class are its own scopes and the name of the class. -/
theorem scopes_enterClass (name : Token) (superclass : Option Expr) :
    (r.enterClass name superclass).scopes =
      classScopes superclass.isSome ++ Scopes.mark r.scopes name.lexeme true := by
  cases superclass with
  | none =>
    show _ :: (({ r with classKind := .plain }.declare name).define name).scopes = _
    rw [scopes_define_declare]
    rfl
  | some e =>
    rw [enterClass_some]
    show _ :: _ :: (e.resolve (r.atSuperclass name e)).scopes = _
    rw [Expr.scopes_resolve, scopes_atSuperclass]
    rfl

/-- The scope of a function before its body, with its parameters. -/
def paramScope (params : List Token) : NameTable Bool :=
  params.foldl (fun t name => t.insert name.lexeme true) ∅

theorem scopes_introduce {t : NameTable Bool} {Γ : Scopes} (params : List Token)
    (h : r.scopes = t :: Γ) :
    (r.introduce params).scopes =
      params.foldl (fun t name => t.insert name.lexeme true) t :: Γ := by
  induction params generalizing r t with
  | nil => exact h
  | cons name rest ih =>
    refine ih _ ?_
    rw [scopes_define_declare, h]
    rfl

/-- A function opens one scope, with its parameters. -/
theorem scopes_enterFunction (kind : FunctionKind) (params : List Token) :
    (r.enterFunction kind params).scopes = paramScope params :: r.scopes :=
  scopes_introduce _ params rfl

end Resolver

/-! ## Statements -/

namespace Stmt

open Resolver (Touches)

mutual

/-- Resolving a statement records distances of its own ids only. -/
theorem touches_resolve : ∀ (s : Stmt) (r : Resolver), Touches s.ids r (s.resolve r)
  | .expression value, r => value.touches_resolve r
  | .print value, r => value.touches_resolve r
  | .var name none, r => (r.touches_declare name).trans (Resolver.touches_define _ name)
  | .var name (some value), r =>
    (((r.touches_declare name).trans (Resolver.touches_beginInitializer _ name.lexeme)).before
      (value.touches_resolve _)).after
      ((Resolver.touches_endInitializer _).trans (Resolver.touches_define _ name))
  | .block body, r =>
    (r.touches_push ∅).before ((touches_resolveAll body (r.push ∅)).after (Resolver.touches_pop _))
  | .ifThen condition thenBranch, r =>
    (condition.touches_resolve r).trans (touches_resolve thenBranch _)
  | .ifThenElse condition thenBranch elseBranch, r =>
    (condition.touches_resolve r).trans
      ((touches_resolve thenBranch _).trans (touches_resolve elseBranch _))
  | .whileLoop condition body, r => (condition.touches_resolve r).trans (touches_resolve body _)
  | .function decl, r =>
    ((r.touches_declare decl.name).trans (Resolver.touches_define _ decl.name)).before
      (touches_resolveFunction .function decl _)
  | .returnWith word value, r =>
    ((r.touches_reportIf _ word _).trans (Resolver.touches_reportIf _ _ word _)).before
      (Expr.touches_resolve? value _)
  | .classDef name superclass methods, r =>
    (r.touches_enterClass name superclass).trans
      ((touches_resolveMethods methods _).after
        (Resolver.touches_leaveClass _ superclass r.classKind))

theorem touches_resolveFunction : ∀ (kind : FunctionKind) (d : FunctionDecl) (r : Resolver),
    Touches (functionIds d) r (resolveFunction kind d r)
  | kind, ⟨_, params, body⟩, r =>
    (r.touches_enterFunction kind params).before
      ((touches_resolveAll body _).after (Resolver.touches_leaveFunction _ r.functionKind))

theorem touches_resolveAll :
    ∀ (body : List Stmt) (r : Resolver), Touches (idsAll body) r (resolveAll body r)
  | [], _ => .refl
  | s :: rest, r => (touches_resolve s r).trans (touches_resolveAll rest _)

theorem touches_resolveMethods : ∀ (ds : List FunctionDecl) (r : Resolver),
    Touches (methodIds ds) r (resolveMethods ds r)
  | [], _ => .refl
  | d :: rest, r => (touches_resolveFunction _ d r).trans (touches_resolveMethods rest _)

end

/-- **Resolving notes that it has gone wrong exactly if it reports something.** -/
theorem hadError_ofProgram (isGlobal : String → Bool) (distances : Distances)
    (program : List Stmt) :
    (Resolution.ofProgram isGlobal distances program).hadError =
      !(Resolution.ofProgram isGlobal distances program).errors.isEmpty :=
  (touches_resolveAll program (.start isGlobal distances)).flagged rfl

/-- The scopes after a statement: those before, with the name that it declares. -/
def scopesAfter (s : Stmt) (Γ : Scopes) : Scopes :=
  match s.declares? with
  | some name => Γ.mark name.lexeme true
  | none => Γ

/-- A statement that declares nothing leaves the scopes alone. -/
theorem scopesAfter_of_none {s : Stmt} (h : s.declares? = none) (Γ : Scopes) :
    s.scopesAfter Γ = Γ := by
  rw [scopesAfter, h]

theorem tail_scopesAfter (s : Stmt) (Γ : Scopes) : (s.scopesAfter Γ).tail = Γ.tail := by
  unfold scopesAfter
  split
  · exact Scopes.tail_mark Γ _ true
  · rfl

mutual

/-- Resolving a statement declares its name, and leaves every scope that it enters. -/
theorem scopes_resolve :
    ∀ {s : Stmt} {r : Resolver}, s.Formed → (s.resolve r).scopes = s.scopesAfter r.scopes
  | .expression value, r, _ => value.scopes_resolve r
  | .print value, r, _ => value.scopes_resolve r
  | .var name none, r, _ => r.scopes_define_declare name
  | .var name (some value), r, _ => by
    show ((value.resolve _).endInitializer.define name).scopes =
      Scopes.mark r.scopes name.lexeme true
    rw [Resolver.scopes_define]
    show Scopes.mark (value.resolve _).scopes name.lexeme true = _
    rw [Expr.scopes_resolve, Resolver.scopes_beginInitializer, Resolver.scopes_declare,
      Scopes.mark_mark]
  | .block body, r, h => tail_scopes_resolveAll (r := r.push ∅) h
  | .ifThen condition thenBranch, r, ⟨_, hdecl, h⟩ => by
    show (thenBranch.resolve (condition.resolve r)).scopes = r.scopes
    rw [scopes_resolve h, scopesAfter_of_none hdecl, Expr.scopes_resolve]
  | .ifThenElse condition thenBranch elseBranch, r, ⟨_, ⟨hthen, h⟩, helse, h'⟩ => by
    show (elseBranch.resolve (thenBranch.resolve (condition.resolve r))).scopes = r.scopes
    rw [scopes_resolve h', scopesAfter_of_none helse, scopes_resolve h, scopesAfter_of_none hthen,
      Expr.scopes_resolve]
  | .whileLoop condition body, r, ⟨_, hdecl, h⟩ => by
    show (body.resolve (condition.resolve r)).scopes = r.scopes
    rw [scopes_resolve h, scopesAfter_of_none hdecl, Expr.scopes_resolve]
  | .function decl, r, h => (scopes_resolveFunction h).trans (r.scopes_define_declare decl.name)
  | .returnWith word value, r, _ => by simp [resolve, scopesAfter, declares?]
  | .classDef name superclass methods, r, ⟨_, _, h⟩ => by
    show (Resolver.leaveClass _ superclass r.classKind).scopes =
      Scopes.mark r.scopes name.lexeme true
    cases superclass with
    | none =>
      show (resolveMethods methods _).scopes.tail = _
      rw [scopes_resolveMethods h, Resolver.scopes_enterClass]
      rfl
    | some e =>
      show (resolveMethods methods _).scopes.tail.tail = _
      rw [scopes_resolveMethods h, Resolver.scopes_enterClass]
      rfl

/-- A function leaves its scope behind. -/
theorem scopes_resolveFunction :
    ∀ {kind : FunctionKind} {d : FunctionDecl} {r : Resolver}, FormedFunction d →
      (resolveFunction kind d r).scopes = r.scopes
  | kind, ⟨_, params, body⟩, r, ⟨_, _, h⟩ => by
    show (resolveAll body (r.enterFunction kind params)).scopes.tail = r.scopes
    rw [tail_scopes_resolveAll h, Resolver.scopes_enterFunction]
    rfl

/-- Statements declare names in the innermost scope only. -/
theorem tail_scopes_resolveAll : ∀ {body : List Stmt} {r : Resolver}, FormedAll body →
    (resolveAll body r).scopes.tail = r.scopes.tail
  | [], _, _ => rfl
  | s :: rest, r, ⟨hs, h⟩ => by
    show (resolveAll rest (s.resolve r)).scopes.tail = r.scopes.tail
    rw [tail_scopes_resolveAll h, scopes_resolve hs, tail_scopesAfter]

theorem scopes_resolveMethods : ∀ {ds : List FunctionDecl} {r : Resolver}, FormedMethods ds →
    (resolveMethods ds r).scopes = r.scopes
  | [], _, _ => rfl
  | _ :: _, _, ⟨hd, h⟩ => (scopes_resolveMethods h).trans (scopes_resolveFunction hd)

end

end Stmt

end Lox
