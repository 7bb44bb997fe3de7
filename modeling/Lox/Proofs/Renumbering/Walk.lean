import Lox.Proofs.Binding.Effects

/-!
# Renumbering and the walk over a tree

The walk over a renumbered tree reports the same broken rules and records the same distances, for
the renumbered ids (`Stmt.resolveAll_renumbers`). Distances are only written on the way, never read,
so all steps of the walk but one are blind to them (`Resolver.Blind`); the one that records a
distance needs the renumbering to keep ids apart.
-/

namespace Lox

variable {f : NodeId → NodeId}

/-- The distances of renumbered ids are those of the ids. -/
def Distances.Renumbers (f : NodeId → NodeId) (D D' : Distances) : Prop :=
  ∀ id, D'[f id]? = D[id]?

namespace Resolver

variable {f : NodeId → NodeId} {r r' : Resolver} {op : Resolver → Resolver}

/-- What is known at a place, with other distances. -/
def withDistances (r : Resolver) (D : Distances) : Resolver :=
  { r with distances := D }

/-- The same is known at two places, and the distances of the second are for renumbered ids. -/
structure Renumbers (f : NodeId → NodeId) (r r' : Resolver) : Prop where
  same : r' = r.withDistances r'.distances
  distances : Distances.Renumbers f r.distances r'.distances

/-- A step of the walk that neither reads nor writes distances. -/
def Blind (op : Resolver → Resolver) : Prop :=
  ∀ (r : Resolver) (D : Distances), op (r.withDistances D) = (op r).withDistances D

/-- A blind step goes alike with new ids. -/
theorem Renumbers.blind (h : Renumbers f r r') (hop : Blind op) : Renumbers f (op r) (op r') := by
  have hr : (op r).distances = r.distances := by
    simpa [withDistances] using congrArg Resolver.distances (hop r r.distances)
  have hr' : (op r').distances = r'.distances := by
    simpa [withDistances] using congrArg Resolver.distances (hop r' r'.distances)
  constructor
  · calc op r' = op (r.withDistances r'.distances) := congrArg op h.same
      _ = (op r).withDistances (op r').distances := by rw [hop, hr']
  · rw [hr, hr']
    exact h.distances

/-! ## Steps that are blind to distances -/

/-- Blind steps one after the other. -/
theorem Blind.comp {op' : Resolver → Resolver} (h : Blind op) (h' : Blind op') :
    Blind fun r => op' (op r) := by
  intro r D
  simp only [h r D, h' (op r) D]

/-- A report is blind if its condition does not look at distances. -/
theorem blind_reportIf (broken : Resolver → Bool)
    (hb : ∀ r D, broken (r.withDistances D) = broken r) (t : Token) (fault : StaticFault) :
    Blind fun r => r.reportIf (broken r) t fault := by
  intro r D
  simp only [reportIf, hb]
  split <;> rfl

theorem blind_push (scope : NameTable Bool) : Blind fun r => r.push scope :=
  fun _ _ => rfl

theorem blind_pop : Blind pop :=
  fun _ _ => rfl

theorem blind_endInitializer : Blind endInitializer :=
  fun _ _ => rfl

theorem blind_classKind (k : ClassKind) : Blind fun r => { r with classKind := k } :=
  fun _ _ => rfl

theorem blind_functionKind (k : FunctionKind) : Blind fun r => { r with functionKind := k } :=
  fun _ _ => rfl

/-- Marking a name is blind. -/
theorem blind_mark (name : String) (b : Bool) : Blind fun r => r.mark name b := by
  rintro ⟨scopes⟩ D
  cases scopes <;> rfl

/-- A definition is blind. -/
theorem blind_define (name : Token) : Blind fun r => r.define name := by
  rintro ⟨scopes⟩ D
  cases scopes <;> rfl

/-- A declaration is blind. -/
theorem blind_declare (name : Token) : Blind fun r => r.declare name := by
  intro r D
  simp only [declare, blind_mark name.lexeme false r D]
  have hb : (r.withDistances D).isDeclaredHere name.lexeme = r.isDeclaredHere name.lexeme := rfl
  rw [hb]
  cases r.isDeclaredHere name.lexeme <;> rfl

theorem blind_introduce (names : List Token) : Blind fun r => r.introduce names := by
  induction names with
  | nil => exact fun _ _ => rfl
  | cons name rest ih => exact ((blind_declare name).comp (blind_define name)).comp ih

theorem blind_beginInitializer (name : String) : Blind fun r => r.beginInitializer name := by
  intro r D
  have hb : (r.withDistances D).knowsGlobal name = r.knowsGlobal name := rfl
  simp only [beginInitializer, hb]
  cases h : r.scopes.isEmpty && !r.knowsGlobal name <;> simp [withDistances, h]

/-- Entering a function is blind. -/
theorem blind_enterFunction (kind : FunctionKind) (params : List Token) :
    Blind fun r => r.enterFunction kind params :=
  ((blind_functionKind kind).comp (blind_push ∅)).comp (blind_introduce params)

theorem blind_leaveFunction (kind : FunctionKind) : Blind fun r => r.leaveFunction kind :=
  blind_pop.comp (blind_functionKind kind)

/-- Leaving a class is blind. -/
theorem blind_leaveClass (superclass : Option Expr) (kind : ClassKind) :
    Blind fun r => r.leaveClass superclass kind := by
  cases superclass with
  | none => exact blind_pop.comp (blind_classKind kind)
  | some e => exact (blind_pop.comp blind_pop).comp (blind_classKind kind)

/-! ## Recording -/

namespace Renumbers

theorem classKind (h : Renumbers f r r') : r'.classKind = r.classKind := by
  rw [h.same]
  rfl

theorem functionKind (h : Renumbers f r r') : r'.functionKind = r.functionKind := by
  rw [h.same]
  rfl

theorem errors (h : Renumbers f r r') : r'.errors = r.errors := by
  rw [h.same]
  rfl

/-- Recording is where ids have to be kept apart. -/
theorem record (h : Renumbers f r r') (hf : Function.Injective f) (id : NodeId) (name : String) :
    Renumbers f (r.record id name) (r'.record (f id) name) := by
  have hd : r'.distance? name = r.distance? name := by
    rw [h.same]
    rfl
  unfold Resolver.record
  rw [hd]
  cases r.distance? name with
  | none => exact h
  | some d =>
    refine ⟨?_, fun other => ?_⟩
    · show ({ r' with distances := _ } : Resolver) = _
      rw [h.same]
      rfl
    · show (r'.distances.insert (f id) d)[f other]? = (r.distances.insert id d)[other]?
      rw [Std.HashMap.getElem?_insert, Std.HashMap.getElem?_insert, h.distances other]
      simp only [beq_iff_eq, hf.eq_iff]

end Renumbers

end Resolver

/-! ## Trees -/

namespace Expr

open Resolver (Renumbers)

variable {f : NodeId → NodeId} {r r' : Resolver}

mutual

/-- The walk over a renumbered expression records the same for renumbered ids. -/
theorem resolve_renumbers (hf : Function.Injective f) :
    ∀ (e : Expr) {r r' : Resolver}, Renumbers f r r' →
      Renumbers f (e.resolve r) ((e.renumber f).resolve r')
  | .literal _, _, _, h => h
  | .grouping inner, _, _, h => resolve_renumbers hf inner h
  | .unary _ right, _, _, h => resolve_renumbers hf right h
  | .binary left _ right, _, _, h | .logical left _ right, _, _, h =>
    resolve_renumbers hf right (resolve_renumbers hf left h)
  | .variable id name, _, _, h => by
    have h :=
      h.blind (Resolver.blind_reportIf (fun r => r.isUndefinedHere name.lexeme) (fun _ _ => rfl)
        name .localInOwnInitializer)
    have h :=
      h.blind
        (Resolver.blind_reportIf (fun r => r.initializing == some name.lexeme) (fun _ _ => rfl) name
      .globalInOwnInitializer)
    exact h.record hf id name.lexeme
  | .assign id name value, _, _, h => (resolve_renumbers hf value h).record hf id name.lexeme
  | .call callee _ arguments, _, _, h =>
    resolveAll_renumbers hf arguments (resolve_renumbers hf callee h)
  | .get object _, _, _, h => resolve_renumbers hf object h
  | .set object _ value, _, _, h => resolve_renumbers hf object (resolve_renumbers hf value h)
  | .thisRef id word, r, _, h => by
    simp only [renumber, resolve, h.classKind]
    cases r.classKind with
    | none =>
      have hreport : Resolver.Blind fun r => r.report word .thisOutsideClass := fun _ _ => rfl
      exact h.blind hreport
    | plain => exact h.record hf id word.lexeme
    | subclass => exact h.record hf id word.lexeme
  | .superRef id word _, _, _, h => by
    have h := h.blind (Resolver.blind_reportIf (fun r => r.classKind == .none) (fun _ _ => rfl) word
      .superOutsideClass)
    have h :=
      h.blind (Resolver.blind_reportIf (fun r => r.classKind == .plain) (fun _ _ => rfl) word
        .superWithoutSuperclass)
    exact h.record hf id word.lexeme

theorem resolveAll_renumbers (hf : Function.Injective f) :
    ∀ (es : List Expr) {r r' : Resolver}, Renumbers f r r' →
      Renumbers f (resolveAll es r) (resolveAll (renumberAll f es) r')
  | [], _, _, h => h
  | e :: rest, _, _, h => resolveAll_renumbers hf rest (resolve_renumbers hf e h)

end

theorem resolve?_renumbers (hf : Function.Injective f) (e? : Option Expr) (h : Renumbers f r r') :
    Renumbers f (resolve? e? r) (resolve? (e?.map (renumber f)) r') := by
  cases e? with
  | none => exact h
  | some e => exact resolve_renumbers hf e h

end Expr

/-- A class is entered with the same scopes; only the name of its superclass has an id. -/
theorem Resolver.Renumbers.enterClass {r r' : Resolver} (hf : Function.Injective f)
    (h : Renumbers f r r') (name : Token) (superclass : Option Expr) :
    Renumbers f (r.enterClass name superclass)
      (r'.enterClass name (superclass.map (Expr.renumber f))) := by
  have h := h.blind (((blind_classKind .plain).comp (blind_declare name)).comp (blind_define name))
  cases superclass with
  | none => exact h.blind (blind_push _)
  | some e =>
    have hpush := (blind_push (synthetic "super")).comp (blind_push (synthetic "this"))
    have hsub {r r' : Resolver} (h : Renumbers f r r') := (Expr.resolve_renumbers hf e (h.blind
      (blind_classKind .subclass))).blind hpush
    cases e with
    | «variable» id superName =>
      exact hsub
        (h.blind (blind_reportIf (fun _ => superName.lexeme == name.lexeme) (fun _ _ => rfl)
          superName .inheritsFromItself))
    | _ => exact hsub h

namespace Stmt

open Resolver (Renumbers)

variable {f : NodeId → NodeId}

mutual

/-- Resolving a statement with new ids records distances under them. -/
theorem resolve_renumbers (hf : Function.Injective f) :
    ∀ (s : Stmt) {r r' : Resolver}, Renumbers f r r' →
      Renumbers f (s.resolve r) ((s.renumber f).resolve r')
  | .expression value, _, _, h | .print value, _, _, h => value.resolve_renumbers hf h
  | .var name none, _, _, h =>
    h.blind ((Resolver.blind_declare name).comp (Resolver.blind_define name))
  | .var name (some value), _, _, h => by
    have h :=
      h.blind ((Resolver.blind_declare name).comp (Resolver.blind_beginInitializer name.lexeme))
    have h := value.resolve_renumbers hf h
    exact h.blind (Resolver.blind_endInitializer.comp (Resolver.blind_define name))
  | .block body, _, _, h =>
    (resolveAll_renumbers hf body (h.blind (Resolver.blind_push ∅))).blind Resolver.blind_pop
  | .ifThen condition s, _, _, h | .whileLoop condition s, _, _, h =>
    resolve_renumbers hf s (condition.resolve_renumbers hf h)
  | .ifThenElse condition thenBranch elseBranch, _, _, h =>
    resolve_renumbers hf elseBranch
      (resolve_renumbers hf thenBranch (condition.resolve_renumbers hf h))
  | .function ⟨name, params, body⟩, _, _, h =>
    resolveFunction_renumbers hf .function ⟨name, params, body⟩
      (h.blind ((Resolver.blind_declare name).comp (Resolver.blind_define name)))
  | .returnWith word value, _, _, h => by
    have h :=
      h.blind (Resolver.blind_reportIf (fun r => r.functionKind == .none) (fun _ _ => rfl) word
        .returnAtTopLevel)
    have h :=
      h.blind (Resolver.blind_reportIf (fun r => value.isSome && r.functionKind == .initializer)
        (fun _ _ => rfl) word .returnFromInitializer)
    simp only [renumber, resolve, Option.isSome_map]
    exact Expr.resolve?_renumbers hf value h
  | .classDef name superclass methods, r, _, h => by
    have hin := resolveMethods_renumbers hf methods (h.enterClass hf name superclass)
    have hout := hin.blind (Resolver.blind_leaveClass superclass r.classKind)
    simp only [renumber, resolve, h.classKind]
    cases superclass <;> exact hout

theorem resolveFunction_renumbers (hf : Function.Injective f) (kind : FunctionKind) :
    ∀ (d : FunctionDecl) {r r' : Resolver}, Renumbers f r r' →
    Renumbers f (resolveFunction kind d r) (resolveFunction kind (renumberFunction f d) r')
  | ⟨_, params, body⟩, r, _, h => by
    have hin := resolveAll_renumbers hf body (h.blind (Resolver.blind_enterFunction kind params))
    simp only [renumberFunction, resolveFunction, h.functionKind]
    exact hin.blind (Resolver.blind_leaveFunction r.functionKind)

theorem resolveAll_renumbers (hf : Function.Injective f) :
    ∀ (body : List Stmt) {r r' : Resolver}, Renumbers f r r' →
      Renumbers f (resolveAll body r) (resolveAll (renumberAll f body) r')
  | [], _, _, h => h
  | s :: rest, _, _, h => resolveAll_renumbers hf rest (resolve_renumbers hf s h)

theorem resolveMethods_renumbers (hf : Function.Injective f) :
    ∀ (ds : List FunctionDecl) {r r' : Resolver}, Renumbers f r r' →
    Renumbers f (resolveMethods ds r) (resolveMethods (renumberMethods f ds) r')
  | [], _, _, h => h
  | ⟨_, _, _⟩ :: rest, _, _, h =>
    resolveMethods_renumbers hf rest (resolveFunction_renumbers hf _ _ h)

end

end Stmt

/-- **A renumbered program breaks the same rules, and its nodes get the same distances.** -/
theorem Resolution.ofProgram_renumbers (hf : Function.Injective f) {D D' : Distances}
    (hD : Distances.Renumbers f D D') (isGlobal : String → Bool) (program : List Stmt) :
    (ofProgram isGlobal D' (Stmt.renumberAll f program)).errors = (ofProgram isGlobal D
      program).errors ∧
      Distances.Renumbers f (ofProgram isGlobal D program).distances
        (ofProgram isGlobal D' (Stmt.renumberAll f program)).distances := by
  have hstart : Resolver.Renumbers f (Resolver.start isGlobal D) (Resolver.start isGlobal D') :=
    ⟨rfl, hD⟩
  have h := Stmt.resolveAll_renumbers hf program hstart
  exact ⟨h.errors, h.distances⟩

end Lox
