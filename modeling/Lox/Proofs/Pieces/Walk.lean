import Lox.Proofs.Lexical.Enclosures

/-!
# Looking at a program in pieces

What the walk knows of global variables comes from two sides: the names defined so far by the
program at hand, and the global variables that exist before it runs. It asks for both together
(`Resolver.knowsGlobal`), so walks that share the answers go alike, whichever side the answers come
from (`Stmt.resolveAll_alike`).

After the statements of a program the walk knows nothing of its inside any more. All that is left of
them are the names they have defined (`Stmt.globals_resolveAll`).
-/

namespace Lox

variable {op : Resolver → Resolver}

namespace Resolver

variable {r r' : Resolver}

/-! ## Walks with the same answers -/

/-- What is known at a place, with other global variables. -/
def withGlobals (r : Resolver) (defined : List String) (isGlobal : String → Bool) : Resolver :=
  { r with defined := defined, isGlobal := isGlobal }

/-- The same is known at two places, though the global variables may be known from different
sides. -/
structure Alike (r r' : Resolver) : Prop where
  same : r' = r.withGlobals r'.defined r'.isGlobal
  known : ∀ name, r'.knowsGlobal name = r.knowsGlobal name

/-- A step of the walk that has nothing to do with global variables. -/
structure Aloof (op : Resolver → Resolver) : Prop where
  commutes : ∀ (r : Resolver) (defined : List String) (isGlobal : String → Bool),
    op (r.withGlobals defined isGlobal) = (op r).withGlobals defined isGlobal
  initializing : ∀ r, (op r).initializing = r.initializing

theorem Aloof.defined (hop : Aloof op) (r : Resolver) : (op r).defined = r.defined := by
  show (op (r.withGlobals r.defined r.isGlobal)).defined = r.defined
  rw [hop.commutes]
  rfl

theorem Aloof.isGlobal (hop : Aloof op) (r : Resolver) : (op r).isGlobal = r.isGlobal := by
  show (op (r.withGlobals r.defined r.isGlobal)).isGlobal = r.isGlobal
  rw [hop.commutes]
  rfl

theorem aloof_id : Aloof fun r => r :=
  ⟨fun _ _ _ => rfl, fun _ => rfl⟩

theorem Aloof.comp {op' : Resolver → Resolver} (h : Aloof op) (h' : Aloof op') :
    Aloof fun r => op' (op r) := by
  refine ⟨fun r d i => ?_, fun r => (h'.initializing (op r)).trans (h.initializing r)⟩
  simp only [h.commutes r d i, h'.commutes (op r) d i]

/-- A report is aloof if its condition does not look at global variables. -/
theorem aloof_reportIf (broken : Resolver → Bool)
    (hb : ∀ r d i, broken (r.withGlobals d i) = broken r) (t : Token) (fault : StaticFault) :
    Aloof fun r => r.reportIf (broken r) t fault := by
  refine ⟨fun r d i => ?_, fun r => ?_⟩
  · simp only [reportIf, hb]
    split <;> rfl
  · cases broken r <;> rfl

theorem aloof_report (t : Token) (fault : StaticFault) : Aloof fun r => r.report t fault :=
  ⟨fun _ _ _ => rfl, fun _ => rfl⟩

theorem aloof_push (scope : NameTable Bool) : Aloof fun r => r.push scope :=
  ⟨fun _ _ _ => rfl, fun _ => rfl⟩

theorem aloof_pop : Aloof pop :=
  ⟨fun _ _ _ => rfl, fun _ => rfl⟩

theorem aloof_classKind (k : ClassKind) : Aloof fun r => { r with classKind := k } :=
  ⟨fun _ _ _ => rfl, fun _ => rfl⟩

theorem aloof_functionKind (k : FunctionKind) : Aloof fun r => { r with functionKind := k } :=
  ⟨fun _ _ _ => rfl, fun _ => rfl⟩

/-- Marking a name in a scope is aloof. -/
theorem aloof_mark (name : String) (b : Bool) : Aloof fun r => r.mark name b := by
  refine ⟨?_, ?_⟩
  · rintro ⟨scopes⟩ d i
    cases scopes <;> rfl
  · rintro ⟨scopes⟩
    cases scopes <;> rfl

/-- Recording a distance is aloof. -/
theorem aloof_record (id : NodeId) (name : String) : Aloof fun r => r.record id name := by
  refine ⟨fun r d i => ?_, fun r => ?_⟩
  · have hd : (r.withGlobals d i).distance? name = r.distance? name := rfl
    simp only [record, hd]
    split <;> rfl
  · simp only [record]
    split <;> rfl

/-- A declaration is aloof; only a definition at the top level is not. -/
theorem aloof_declare (name : Token) : Aloof fun r => r.declare name := by
  refine ⟨fun r d i => ?_, fun r => ?_⟩
  · simp only [declare, (aloof_mark name.lexeme false).commutes r d i]
    have hb : (r.withGlobals d i).isDeclaredHere name.lexeme = r.isDeclaredHere name.lexeme := rfl
    rw [hb]
    cases r.isDeclaredHere name.lexeme <;> rfl
  · rw [← (aloof_mark name.lexeme false).initializing r, declare]
    cases r.isDeclaredHere name.lexeme <;> rfl

theorem aloof_leaveFunction (kind : FunctionKind) : Aloof fun r => r.leaveFunction kind :=
  aloof_pop.comp (aloof_functionKind kind)

theorem aloof_leaveClass (superclass : Option Expr) (kind : ClassKind) :
    Aloof fun r => r.leaveClass superclass kind := by
  cases superclass with
  | none => exact aloof_pop.comp (aloof_classKind kind)
  | some e => exact (aloof_pop.comp aloof_pop).comp (aloof_classKind kind)

/-- At the top level a definition is noted among the global names. -/
theorem define_nil (h : r.scopes = []) (name : Token) :
    r.define name = { r with defined := name.lexeme :: r.defined } := by
  simp [define, h]

/-- In a scope a definition is a mark. -/
theorem define_cons {t : NameTable Bool} {outer : Scopes} (h : r.scopes = t :: outer)
    (name : Token) : r.define name = r.mark name.lexeme true := by
  simp [define, h]

namespace Alike

variable (h : Alike r r')

include h

/-- An aloof step keeps two places alike. -/
theorem aloof (hop : Aloof op) : Alike (op r) (op r') := by
  refine ⟨?_, fun name => ?_⟩
  · calc op r' = op (r.withGlobals r'.defined r'.isGlobal) := congrArg op h.same
      _ = (op r).withGlobals (op r').defined (op r').isGlobal := by
        rw [hop.commutes, hop.defined r', hop.isGlobal r']
  · have hknown := h.known name
    simp only [knowsGlobal, hop.defined, hop.isGlobal] at hknown ⊢
    exact hknown

theorem scopes : r'.scopes = r.scopes := by
  rw [h.same]
  rfl

theorem classKind : r'.classKind = r.classKind := by
  rw [h.same]
  rfl

theorem functionKind : r'.functionKind = r.functionKind := by
  rw [h.same]
  rfl

theorem distances : r'.distances = r.distances := by
  rw [h.same]
  rfl

theorem errors : r'.errors = r.errors := by
  rw [h.same]
  rfl

/-- At the top level, both walks get to know the new name. -/
theorem define (name : Token) : Alike (r.define name) (r'.define name) := by
  cases hs : r.scopes with
  | nil =>
    rw [define_nil hs, define_nil (h.scopes.trans hs)]
    refine ⟨congrArg (fun q : Resolver => { q with defined := name.lexeme :: r'.defined }) h.same,
      fun other => ?_⟩
    have hknown := h.known other
    simp only [knowsGlobal, List.contains_cons, Bool.or_assoc] at hknown ⊢
    rw [hknown]
  | cons t outer =>
    rw [define_cons hs, define_cons (h.scopes.trans hs)]
    exact h.aloof (aloof_mark name.lexeme true)

theorem introduce (names : List Token) : Alike (r.introduce names) (r'.introduce names) := by
  induction names generalizing r r' with
  | nil => exact h
  | cons name rest ih => exact ih ((h.aloof (aloof_declare name)).define name)

/-- Both walks know whether a variable is new. -/
theorem beginInitializer (name : String) :
    Alike (r.beginInitializer name) (r'.beginInitializer name) := by
  have hnew : (r'.scopes.isEmpty && !r'.knowsGlobal name) =
      (r.scopes.isEmpty && !r.knowsGlobal name) := by
    rw [h.scopes, h.known]
  unfold Resolver.beginInitializer
  by_cases hb : (r.scopes.isEmpty && !r.knowsGlobal name) = true
  · rw [if_pos hb, if_pos (hnew.trans hb)]
    exact ⟨congrArg (fun q : Resolver => { q with initializing := some name }) h.same, h.known⟩
  · rw [if_neg hb, if_neg (by rw [hnew]; exact hb)]
    exact h

theorem endInitializer : Alike r.endInitializer r'.endInitializer :=
  ⟨congrArg Resolver.endInitializer h.same, h.known⟩

/-- Entering a function at places that are alike. -/
theorem enterFunction (kind : FunctionKind) (params : List Token) :
    Alike (r.enterFunction kind params) (r'.enterFunction kind params) :=
  (h.aloof ((aloof_functionKind kind).comp (aloof_push ∅))).introduce params

end Alike

end Resolver

namespace Expr

open Resolver (Aloof)

mutual

/-- An expression defines no variables. -/
theorem aloof_resolve : ∀ (e : Expr), Aloof e.resolve
  | .literal _ => Resolver.aloof_id
  | .grouping e | .unary _ e | .get e _ => aloof_resolve e
  | .binary a _ b | .logical a _ b | .set b _ a => (aloof_resolve a).comp (aloof_resolve b)
  | .variable id name => by
    have h :=
      Resolver.aloof_reportIf (fun r => r.isUndefinedHere name.lexeme) (fun _ _ _ => rfl) name
        .localInOwnInitializer
    have h' :=
      Resolver.aloof_reportIf (fun r => r.initializing == some name.lexeme) (fun _ _ _ => rfl) name
        .globalInOwnInitializer
    exact (h.comp h').comp (Resolver.aloof_record id name.lexeme)
  | .assign id name value => (aloof_resolve value).comp (Resolver.aloof_record id name.lexeme)
  | .call callee _ arguments => (aloof_resolve callee).comp (aloof_resolveAll arguments)
  | .thisRef id word => by
    have hreport := Resolver.aloof_report word .thisOutsideClass
    have hrecord := Resolver.aloof_record id word.lexeme
    refine ⟨fun r d i => ?_, fun r => ?_⟩
    · have hk : (r.withGlobals d i).classKind = r.classKind := rfl
      simp only [resolve, hk]
      cases r.classKind with
      | none => exact hreport.commutes r d i
      | plain => exact hrecord.commutes r d i
      | subclass => exact hrecord.commutes r d i
    · simp only [resolve]
      cases r.classKind with
      | none => exact hreport.initializing r
      | plain => exact hrecord.initializing r
      | subclass => exact hrecord.initializing r
  | .superRef id word _ => by
    have h :=
      Resolver.aloof_reportIf (fun r => r.classKind == .none) (fun _ _ _ => rfl) word
        .superOutsideClass
    have h' := Resolver.aloof_reportIf (fun r => r.classKind == .plain) (fun _ _ _ => rfl) word
      .superWithoutSuperclass
    exact (h.comp h').comp (Resolver.aloof_record id word.lexeme)

theorem aloof_resolveAll : ∀ (es : List Expr), Aloof (resolveAll es)
  | [] => Resolver.aloof_id
  | e :: rest => (aloof_resolve e).comp (aloof_resolveAll rest)

end

theorem aloof_resolve? : ∀ (e? : Option Expr), Aloof (resolve? e?)
  | none => Resolver.aloof_id
  | some e => e.aloof_resolve

end Expr

namespace Resolver

/-- A return statement is aloof. -/
theorem aloof_atReturn (word : Token) (value : Option Expr) :
    Aloof fun r => r.atReturn word value :=
  (aloof_reportIf (fun r => r.functionKind == .none) (fun _ _ _ => rfl) word .returnAtTopLevel).comp
    (aloof_reportIf (fun r => value.isSome && r.functionKind == .initializer) (fun _ _ _ => rfl)
      word .returnFromInitializer)

/-- Once its name is defined, what else happens before the methods of a class are looked at. -/
theorem aloof_superclass (name : Token) (e : Expr) : ∃ op, Aloof op ∧ ∀ r : Resolver,
    r.enterClass name (some e) =
      op (({ r with classKind := .plain }.declare name).define name) := by
  have hsub := ((aloof_classKind .subclass).comp e.aloof_resolve).comp
    ((aloof_push (synthetic "super")).comp (aloof_push (synthetic "this")))
  cases e with
  | «variable» id superName =>
    exact ⟨_,
      (aloof_reportIf (fun _ => superName.lexeme == name.lexeme) (fun _ _ _ => rfl) superName
        .inheritsFromItself).comp hsub, fun _ => rfl⟩
  | _ => exact ⟨_, hsub, fun _ => rfl⟩

end Resolver

theorem Resolver.Alike.enterClass {r r' : Resolver} (h : Alike r r') (name : Token)
    (superclass : Option Expr) :
    Alike (r.enterClass name superclass) (r'.enterClass name superclass) := by
  have h := (h.aloof ((aloof_classKind .plain).comp (aloof_declare name))).define name
  cases superclass with
  | none => exact h.aloof (aloof_push _)
  | some e =>
    obtain ⟨op, hop, heq⟩ := aloof_superclass name e
    rw [heq, heq]
    exact h.aloof hop

namespace Stmt

open Resolver (Alike)

mutual

/-- A statement keeps two places alike. -/
theorem resolve_alike :
    ∀ (s : Stmt) {r r' : Resolver}, Alike r r' → Alike (s.resolve r) (s.resolve r')
  | .expression value, _, _, h | .print value, _, _, h => h.aloof value.aloof_resolve
  | .var name none, _, _, h => (h.aloof (Resolver.aloof_declare name)).define name
  | .var name (some value), _, _, h => by
    have h := (h.aloof (Resolver.aloof_declare name)).beginInitializer name.lexeme
    exact (h.aloof value.aloof_resolve).endInitializer.define name
  | .block body, _, _, h =>
    (resolveAll_alike body (h.aloof (Resolver.aloof_push ∅))).aloof Resolver.aloof_pop
  | .ifThen condition s, _, _, h | .whileLoop condition s, _, _, h =>
    resolve_alike s (h.aloof condition.aloof_resolve)
  | .ifThenElse condition s s', _, _, h =>
    resolve_alike s' (resolve_alike s (h.aloof condition.aloof_resolve))
  | .function decl, _, _, h =>
    resolveFunction_alike .function decl
      ((h.aloof (Resolver.aloof_declare decl.name)).define decl.name)
  | .returnWith word value, _, _, h =>
    h.aloof ((Resolver.aloof_atReturn word value).comp (Expr.aloof_resolve? value))
  | .classDef name superclass methods, r, _, h => by
    have hin := resolveMethods_alike methods (h.enterClass name superclass)
    simp only [resolve, h.classKind]
    exact hin.aloof (Resolver.aloof_leaveClass superclass r.classKind)

theorem resolveFunction_alike (kind : FunctionKind) :
    ∀ (d : FunctionDecl) {r r' : Resolver}, Alike r r' →
      Alike (resolveFunction kind d r) (resolveFunction kind d r')
  | ⟨_, params, body⟩, r, _, h => by
    have hin := resolveAll_alike body (h.enterFunction kind params)
    simp only [resolveFunction, h.functionKind]
    exact hin.aloof (Resolver.aloof_leaveFunction r.functionKind)

/-- **Walks that know the same go alike.** -/
theorem resolveAll_alike : ∀ (body : List Stmt) {r r' : Resolver}, Alike r r' →
    Alike (resolveAll body r) (resolveAll body r')
  | [], _, _, h => h
  | s :: rest, _, _, h => resolveAll_alike rest (resolve_alike s h)

theorem resolveMethods_alike : ∀ (ds : List FunctionDecl) {r r' : Resolver}, Alike r r' →
    Alike (resolveMethods ds r) (resolveMethods ds r')
  | [], _, _, h => h
  | d :: rest, _, _, h => resolveMethods_alike rest (resolveFunction_alike _ d h)

end

end Stmt

/-! ## What statements leave behind -/

namespace Resolver

/-- A part of the walk that defines some names at the top level, and leaves no initial value half
looked at. -/
structure Gains (names : List String) (r r' : Resolver) : Prop where
  isGlobal : r'.isGlobal = r.isGlobal
  defined : r'.defined = names ++ r.defined
  initializing : r.initializing = none → r'.initializing = none

variable {r r₁ r₂ : Resolver} {xs ys : List String}

/-- An aloof step defines nothing at the top level. -/
theorem Aloof.gains (hop : Aloof op) (r : Resolver) : Gains [] r (op r) :=
  ⟨hop.isGlobal r, hop.defined r, fun h => (hop.initializing r).trans h⟩

namespace Gains

theorem trans (h : Gains xs r r₁) (h' : Gains ys r₁ r₂) : Gains (ys ++ xs) r r₂ := by
  refine ⟨h'.isGlobal.trans h.isGlobal, ?_, fun hr => h'.initializing (h.initializing hr)⟩
  rw [h'.defined, h.defined, List.append_assoc]

theorem aloof (h : Gains xs r r₁) (hop : Aloof op) : Gains xs r (op r₁) :=
  h.trans (hop.gains r₁)

end Gains

/-- The names that a declaration adds to those of the top level: none inside a scope. -/
def gained (Γ : Scopes) (names : List String) : List String :=
  if Γ.isEmpty then names else []

@[simp] theorem gained_nil (Γ : Scopes) : gained Γ [] = [] := by
  unfold gained
  split <;> rfl

theorem gained_mark (Γ : Scopes) (name : String) (b : Bool) :
    gained (Γ.mark name b) = gained Γ := by
  cases Γ <;> rfl

theorem gained_append (Γ : Scopes) (xs ys : List String) :
    gained Γ (xs ++ ys) = gained Γ xs ++ gained Γ ys := by
  unfold gained
  split <;> rfl

/-- A definition at the top level gains its name. -/
theorem gains_define (r : Resolver) (name : Token) :
    Gains (gained r.scopes [name.lexeme]) r (r.define name) := by
  cases hs : r.scopes with
  | nil =>
    rw [define_nil hs]
    exact ⟨rfl, rfl, id⟩
  | cons t outer =>
    rw [define_cons hs]
    exact (aloof_mark name.lexeme true).gains r

/-- A declaration gains its name, too. -/
theorem gains_declaration (r : Resolver) (name : Token) :
    Gains (gained r.scopes [name.lexeme]) r ((r.declare name).define name) := by
  have h := ((aloof_declare name).gains r).trans (gains_define (r.declare name) name)
  rw [List.append_nil, scopes_declare, gained_mark] at h
  exact h

/-- Parameters are defined in a scope. -/
theorem gains_enterFunction (r : Resolver) (kind : FunctionKind) (params : List Token) :
    Gains [] r (r.enterFunction kind params) := by
  have h := ((aloof_functionKind kind).comp (aloof_push ∅)).gains r
  have hscopes : (({ r with functionKind := kind } : Resolver).push ∅).scopes ≠ [] := by simp [push]
  unfold enterFunction
  generalize ({ r with functionKind := kind } : Resolver).push ∅ = r₁ at h hscopes ⊢
  induction params generalizing r₁ with
  | nil => exact h
  | cons name rest ih =>
    have hname := gains_declaration r₁ name
    rw [gained, if_neg (by simpa using hscopes)] at hname
    refine ih _ (h.trans hname) ?_
    rw [scopes_define_declare]
    cases hs : r₁.scopes with
    | nil => exact absurd hs hscopes
    | cons t outer => simp [Scopes.mark]

/-- A class gains its name. -/
theorem gains_enterClass (r : Resolver) (name : Token) (superclass : Option Expr) :
    Gains (gained r.scopes [name.lexeme]) r (r.enterClass name superclass) := by
  have h := gains_declaration { r with classKind := .plain } name
  have h := ((aloof_classKind .plain).gains r).trans h
  rw [List.append_nil] at h
  cases superclass with
  | none => exact h.aloof (aloof_push _)
  | some e =>
    obtain ⟨op, hop, heq⟩ := aloof_superclass name e
    rw [heq]
    exact h.aloof hop

/-- Whatever variable is getting its initial value, it has got it in the end. -/
theorem gains_initializer (r : Resolver) (name : Token) (value : Expr) :
    Gains [] r (value.resolve ((r.declare name).beginInitializer name.lexeme)).endInitializer := by
  have hdeclare := aloof_declare name
  have hbegin : ((r.declare name).beginInitializer name.lexeme).isGlobal = (r.declare
      name).isGlobal ∧
      ((r.declare name).beginInitializer name.lexeme).defined = (r.declare name).defined := by
    unfold beginInitializer
    split <;> exact ⟨rfl, rfl⟩
  refine ⟨?_, ?_, fun _ => rfl⟩
  · show (value.resolve _).isGlobal = r.isGlobal
    rw [value.aloof_resolve.isGlobal, hbegin.1, hdeclare.isGlobal]
  · show (value.resolve _).defined = r.defined
    rw [value.aloof_resolve.defined, hbegin.2, hdeclare.defined]

end Resolver

namespace Stmt

open Resolver (Gains gained)

/-- A statement does not change whether the place is at the top level. -/
theorem gained_scopesAfter (s : Stmt) (Γ : Scopes) : gained (s.scopesAfter Γ) = gained Γ := by
  unfold scopesAfter
  split
  · exact Resolver.gained_mark Γ _ true
  · rfl

theorem declared_of_none {s : Stmt} (h : s.declares? = none) : declared [s] = [] := by
  simp [declared, h]

theorem reverse_declared_cons (s : Stmt) (rest : List Stmt) :
    (declared (s :: rest)).reverse = (declared rest).reverse ++ declared [s] := by
  cases h : s.declares? <;> simp [declared, h]

mutual

/-- A statement defines at the top level what it declares there. -/
theorem gains_resolve : ∀ {s : Stmt} {r : Resolver}, s.Formed →
    Gains (gained r.scopes (declared [s])) r (s.resolve r)
  | .expression value, r, _ | .print value, r, _ => by
    rw [declared_of_none rfl, Resolver.gained_nil]
    exact value.aloof_resolve.gains r
  | .var name none, r, _ => r.gains_declaration name
  | .var name (some value), r, _ => by
    have h := (r.gains_initializer name value).trans (Resolver.gains_define _ name)
    have hscopes :
        (value.resolve ((r.declare name).beginInitializer name.lexeme)).endInitializer.scopes =
        Scopes.mark r.scopes name.lexeme false := by
      simp [Resolver.endInitializer]
    rw [List.append_nil, hscopes, Resolver.gained_mark] at h
    exact h
  | .block body, r, h => by
    rw [declared_of_none rfl, Resolver.gained_nil]
    exact (((Resolver.aloof_push ∅).gains r).trans (gains_resolveAll h)).aloof Resolver.aloof_pop
  | .ifThen condition s, r, ⟨_, hdecl, h⟩ | .whileLoop condition s, r, ⟨_, hdecl, h⟩ => by
    have hs := gains_resolve (r := condition.resolve r) h
    rw [declared_of_none hdecl, Resolver.gained_nil] at hs
    rw [declared_of_none rfl, Resolver.gained_nil]
    exact (condition.aloof_resolve.gains r).trans hs
  | .ifThenElse condition s s', r, ⟨_, ⟨hdecl, h⟩, hdecl', h'⟩ => by
    have hs := gains_resolve (r := condition.resolve r) h
    have hs' := gains_resolve (r := s.resolve (condition.resolve r)) h'
    rw [declared_of_none hdecl, Resolver.gained_nil] at hs
    rw [declared_of_none hdecl', Resolver.gained_nil] at hs'
    rw [declared_of_none rfl, Resolver.gained_nil]
    exact ((condition.aloof_resolve.gains r).trans hs).trans hs'
  | .function decl, r, h => (r.gains_declaration decl.name).trans (gains_resolveFunction h)
  | .returnWith word value, r, _ => by
    rw [declared_of_none rfl, Resolver.gained_nil]
    exact ((Resolver.aloof_atReturn word value).comp (Expr.aloof_resolve? value)).gains r
  | .classDef name superclass methods, r, ⟨_, _, h⟩ =>
    ((r.gains_enterClass name superclass).trans (gains_resolveMethods h)).aloof
      (Resolver.aloof_leaveClass superclass r.classKind)

theorem gains_resolveFunction :
    ∀ {kind : FunctionKind} {d : FunctionDecl} {r : Resolver}, FormedFunction d →
      Gains [] r (resolveFunction kind d r)
  | kind, ⟨_, params, body⟩, r, ⟨_, _, h⟩ => by
    have hbody := gains_resolveAll (r := r.enterFunction kind params) h
    rw [Resolver.scopes_enterFunction] at hbody
    exact ((r.gains_enterFunction kind params).trans hbody).aloof
      (Resolver.aloof_leaveFunction r.functionKind)

/-- Statements define at the top level what they declare there, the last one first. -/
theorem gains_resolveAll : ∀ {body : List Stmt} {r : Resolver}, FormedAll body →
    Gains (gained r.scopes (declared body).reverse) r (resolveAll body r)
  | [], r, _ => by
    rw [declared, List.filterMap_nil, List.reverse_nil, Resolver.gained_nil]
    exact Resolver.aloof_id.gains r
  | s :: rest, r, ⟨hs, h⟩ => by
    have hrest := gains_resolveAll (r := s.resolve r) h
    rw [scopes_resolve hs, gained_scopesAfter] at hrest
    rw [reverse_declared_cons, Resolver.gained_append]
    exact (gains_resolve hs).trans hrest

theorem gains_resolveMethods : ∀ {ds : List FunctionDecl} {r : Resolver}, FormedMethods ds →
    Gains [] r (resolveMethods ds r)
  | [], r, _ => Resolver.aloof_id.gains r
  | _ :: _, _, ⟨hd, h⟩ => (gains_resolveFunction hd).trans (gains_resolveMethods h)

end

/-- At the top level no scopes are left. -/
theorem scopes_resolveAll_nil {body : List Stmt} {r : Resolver} (h : FormedAll body)
    (hr : r.scopes = []) : (resolveAll body r).scopes = [] := by
  induction body generalizing r with
  | nil => exact hr
  | cons s rest ih =>
    refine ih h.2 ?_
    rw [scopes_resolve h.1, hr, scopesAfter]
    split <;> rfl

/-- **After a program, all that is left of it are the names it has defined.** A walk over further
statements goes on as one that starts there, if that one is told that these names are global
variables. -/
theorem resolveAll_leaves {program : List Stmt} (h : FormedAll program)
    {isGlobal isGlobal' : String → Bool} {D : Distances}
    (hclean : (resolveAll program (.start isGlobal D)).errors = [])
    (hglobal : ∀ name, isGlobal' name = (decide (name ∈ declared program) || isGlobal name)) :
    Resolver.Alike (.start isGlobal' (resolveAll program (.start isGlobal D)).distances)
      (resolveAll program (.start isGlobal D)) := by
  have hgains := gains_resolveAll (r := .start isGlobal D) h
  have hkinds := kinds_resolveAll program (.start isGlobal D)
  have hscopes := scopes_resolveAll_nil (r := .start isGlobal D) h rfl
  have hdefined : (resolveAll program (.start isGlobal D)).defined =
      (declared program).reverse := by
    rw [hgains.defined]
    exact List.append_nil _
  refine ⟨?_, fun name => ?_⟩
  -- Except for the names defined, the walk is back where it started, field by field.
  · have hfunction := hkinds.functionKind
    have hclass := hkinds.classKind
    have hinitializing := hgains.initializing rfl
    have hflagged := (touches_resolveAll program (.start isGlobal D)).flagged rfl
    generalize resolveAll program (.start isGlobal D) = r
      at hclean hscopes hfunction hclass hinitializing hflagged ⊢
    obtain ⟨scopes, functionKind, classKind, defined, isGlobal, initializing, distances, errors,
        hadError⟩ := r
    subst hclean hscopes hfunction hclass hinitializing
    cases hflagged
    rfl
  · have hcontains : (declared program).reverse.contains name =
        decide (name ∈ declared program) := by
      simp
    rw [Resolver.knowsGlobal, hdefined, hgains.isGlobal, hcontains]
    exact (hglobal name).symm

/-- The walk over two programs is a walk after a walk. -/
theorem resolveAll_append (P Q : List Stmt) (r : Resolver) :
    resolveAll (P ++ Q) r = resolveAll Q (resolveAll P r) := by
  induction P generalizing r with
  | nil => rfl
  | cons s rest ih => exact ih (s.resolve r)

end Stmt

end Lox
