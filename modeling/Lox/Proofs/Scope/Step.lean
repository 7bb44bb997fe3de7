import Lox.Proofs.Scope.Operations

/-!
# Steps through a program

No step takes a machine away from the places of a program: if its control was visited where the
scopes that its environment matches were known, then so is the control after the step
(`Machine.Sound.step`), and so it is after any number of steps.
-/

namespace Lox

variable {V : Visit → Prop} {g : ScopeId} {D : Distances} {r : Resolver}

/-- A name that gets an initial value was not declared before. -/
theorem Visit.Accepted.notDeclared {name : Token} {value : Expr}
    (h : Accepted D ⟨.stmt (.var name (some value)), r⟩) {t : NameTable Bool} {outer : Scopes}
    (hscopes : r.scopes = t :: outer) : t.contains name.lexeme = false := by
  have hclean := (Expr.touches_resolve value _).clean (h.part List.mem_cons_self).clean
  have hdeclare := (Resolver.touches_beginInitializer _ name.lexeme).clean hclean
  have hnot := Resolver.reportIf_clean hdeclare
  simpa only [Resolver.isDeclaredHere, hscopes] using hnot

/-- A class does not inherit from itself. -/
theorem Visit.Accepted.superclass_ne {name superName : Token} {id : NodeId}
    {methods : List FunctionDecl}
    (h : Accepted D ⟨.stmt (.classDef name (some (.variable id superName)) methods), r⟩) :
    name.lexeme ≠ superName.lexeme := by
  have hclean :=
    (Expr.touches_resolve (.variable id superName) _).clean (h.part List.mem_cons_self).clean
  have hnot := Resolver.reportIf_clean hclean
  intro heq
  simp [heq] at hnot

namespace Machine

variable {st : Interpreter} {Γ : Scopes} {frames : List Frame}

/-! ## Starting -/

variable (hV : Visit.Family D V)

include hV

/-- Starting an expression that was resolved. -/
theorem Sound.stepEval {e : Expr} (hv : V ⟨.expr e, r⟩) (hsees : e.Sees r.scopes Γ)
    (h : st.Fits V g D Γ Γ frames) : Sound V g D (stepEval e frames st) := by
  rcases hsees with rfl | ⟨id, name, _, rfl, -⟩
  · cases e with
    | literal l => exact .value (Value.sound_of_isPlain (Value.isPlain_ofLiteral l) _) h
    | «variable» id name => exact .give h fun v hv => Interpreter.lookUp_sound h.store hv
    | thisRef id word => exact .give h fun v hv => Interpreter.lookUp_sound h.store hv
    | superRef id word method =>
      exact .give (h.keeps (Interpreter.superMethod_keeps h.store h.env.top_lt id word method))
        fun v hv =>
        Interpreter.superMethod_sound h.store hv
    | grouping inner =>
      exact .eval (hV.first hv rfl) (.inl rfl) h
    | unary operator right =>
      exact .eval (hV.first hv rfl) (.inl rfl) (h.push .unary)
    | binary left operator right =>
      have hright : (Node.expr right).Seen V r.scopes :=
        ⟨_, hV.second hv rfl, left.scopes_resolve r⟩
      exact .eval (hV.first hv rfl) (.inl rfl) (h.push (.binaryLeft hright))
    | logical left operator right =>
      have hright : (Node.expr right).Seen V r.scopes :=
        ⟨_, hV.second hv rfl, left.scopes_resolve r⟩
      exact .eval (hV.first hv rfl) (.inl rfl) (h.push (.logical hright))
    | assign id name value =>
      exact .eval (hV.first hv rfl) (.inl rfl) (h.push (.assign ⟨r, hv, rfl⟩))
    | call callee paren arguments =>
      have harguments : (Node.exprs arguments).Seen V r.scopes :=
        ⟨_, hV.second hv rfl, callee.scopes_resolve r⟩
      exact .eval (hV.first hv rfl) (.inl rfl) (h.push (.callee harguments))
    | get object name =>
      exact .eval (hV.first hv rfl) (.inl rfl) (h.push .get)
    | set object name value =>
      -- The walk looks at the value first, the machine at the object.
      have hobject : (Node.expr object).Seen V r.scopes :=
        ⟨_, hV.second hv rfl, value.scopes_resolve r⟩
      exact .seen hobject (h.push (.setObject ⟨r, hV.first hv rfl, rfl⟩))
  · exact .give h fun v hv => Interpreter.lookUp_sound h.store hv

/-- Starting a statement that was resolved. -/
theorem Sound.stepExec {s : Stmt} (hv : V ⟨.stmt s, r⟩)
    (h : st.Fits V g D r.scopes (s.scopesAfter r.scopes) frames) :
    Sound V g D (stepExec s frames st) := by
  have haccepted := hV.accepted hv
  cases s with
  | expression value => exact .eval (hV.first hv rfl) (.inl rfl) (h.push .discard)
  | print value => exact .eval (hV.first hv rfl) (.inl rfl) (h.push .print)
  | var name initializer =>
    cases initializer with
    | none => exact .flow (f := .normal) trivial (h.define name.lexeme trivial)
    | some value =>
      -- While the initial value is evaluated, the name is declared but not bound.
      have henv := h.env.undefine fun t outer hscopes => haccepted.notDeclared hscopes
      have hvalue : (Node.expr value).Seen V (Scopes.mark r.scopes name.lexeme false) :=
        ⟨_, hV.first hv rfl, by simp⟩
      have hframes : Frame.Resume V g st.store st.env (Scopes.mark r.scopes name.lexeme false)
          (.declare name :: frames) := by
        refine .frame .declare ?_
        rw [Scopes.mark_mark]
        exact h.frames
      exact .seen hvalue ⟨h.globals, h.distances, h.store, henv, hframes⟩
  | block body =>
    have hbody : (Node.stmts body).Seen V (∅ :: r.scopes) := ⟨_, hV.first hv rfl, rfl⟩
    refine .flow (f := .normal) trivial
      (h.enter h.env.agrees (fun name => ?_) (fun name v hv => ?_) hbody)
    · exact ⟨fun hf => (by cases hf), fun hf => (by cases hf)⟩
    · cases hv
  | ifThen condition thenBranch =>
    obtain ⟨-, hdecl, -⟩ := haccepted.formed
    have hthen : thenBranch.SeenBranch V r.scopes :=
      ⟨⟨_, hV.second hv rfl, condition.scopes_resolve r⟩, hdecl⟩
    refine .eval (hV.first hv rfl) (.inl rfl) (h.push (.branch hthen ?_))
    exact fun b hb => by cases hb
  | ifThenElse condition thenBranch elseBranch =>
    obtain ⟨-, ⟨hdecl, hformed⟩, hdecl', -⟩ := haccepted.formed
    have hthen : thenBranch.SeenBranch V r.scopes :=
      ⟨⟨_, hV.second hv rfl, condition.scopes_resolve r⟩, hdecl⟩
    have helse : elseBranch.SeenBranch V r.scopes := by
      refine ⟨⟨_, hV.part hv (List.mem_cons_of_mem _ (List.mem_cons_of_mem _ List.mem_cons_self)),
        ?_⟩, hdecl'⟩
      show (thenBranch.resolve (condition.resolve r)).scopes = r.scopes
      rw [Stmt.scopes_resolve hformed, Stmt.scopesAfter_of_none hdecl, Expr.scopes_resolve]
    refine .eval (hV.first hv rfl) (.inl rfl) (h.push (.branch hthen ?_))
    rintro _ ⟨⟩
    exact helse
  | whileLoop condition body =>
    obtain ⟨-, hdecl, -⟩ := haccepted.formed
    have hbody : body.SeenBranch V r.scopes :=
      ⟨⟨_, hV.second hv rfl, condition.scopes_resolve r⟩, hdecl⟩
    have hcondition := hV.first hv rfl
    exact .eval hcondition (.inl rfl) (h.push (.loopTest ⟨_, hcondition, rfl⟩ hbody))
  | function decl =>
    have hclose := h.keeps (Interpreter.addIdentity_keeps h.store)
    -- The closure knows its own name: it is bound by the time that anything can call it.
    refine .flow (f := .normal) trivial (hclose.define decl.name.lexeme ?_)
    have hagrees :=
      (hclose.env.define decl.name.lexeme (.closure (st.close st.env false decl).1)).agrees
    refine ⟨.function, _, hV.first hv rfl, ?_⟩
    rw [Resolver.scopes_define_declare]
    exact hagrees
  | returnWith word value =>
    cases value with
    | none => exact .flow (f := .returned .nil) trivial h
    | some value =>
      have hvalue : (Node.expr value).Seen V r.scopes :=
        ⟨_, hV.first hv rfl, by simp [Resolver.atReturn]⟩
      exact .seen hvalue (h.push .returning)
  | classDef name superclass methods =>
    cases superclass with
    | none =>
      refine .defineClass hV h (fun c hc => by cases hc) ?_
      exact ⟨_, hV.first hv rfl, r.scopes_enterClass name none⟩
    | some e =>
      obtain ⟨id, superName, rfl⟩ := haccepted.formed.2.1 e rfl
      refine .eval (hV.first hv rfl)
        (.inr ⟨id, superName, name.lexeme, rfl, haccepted.superclass_ne,
          r.scopes_atSuperclass name _⟩)
        (h.push (.superclass ⟨_, hV.second hv rfl, ?_⟩))
      exact r.scopes_enterClass name (some _)

/-! ## Going on with a result -/

theorem Sound.stepArguments (h : st.Fits V g D Γ Γ frames) {callee : Value} (paren : Token)
    {done : List Value} {todo : List Expr} (hcallee : callee.Sound V g st.store)
    (hdone : ∀ v ∈ done, v.Sound V g st.store) (htodo : (Node.exprs todo).Seen V Γ) :
    Sound V g D (stepArguments callee paren done todo frames st) := by
  cases todo with
  | nil => exact .call hV h paren hcallee fun v hv => hdone v (List.mem_reverse.mp hv)
  | cons e rest =>
    obtain ⟨r, hv, rfl⟩ := htodo
    have hrest : (Node.exprs rest).Seen V r.scopes :=
      ⟨_, hV.second hv rfl, e.scopes_resolve r⟩
    exact .eval (hV.first hv rfl) (.inl rfl) (h.push (.argument hcallee hdone hrest))

theorem Sound.stepValue {v : Value} {frame : Frame} (hv : v.Sound V g st.store)
    (h : st.Fits V g D Γ Γ (frame :: frames)) : Sound V g D (stepValue v frame frames st) := by
  rcases h.frames.cons_cases with ⟨Δ, hawaits, hrest⟩ | ⟨_, rfl, -⟩ | ⟨_, _, rfl, -⟩
  · -- But for declarations, a frame leaves the scopes as they are.
    cases hawaits with
    | unary => exact .answer (h.resume hrest) (Value.unary_operates _ v)
    | binaryLeft hright => exact .seen hright ((h.resume hrest).push .binaryRight)
    | binaryRight => exact .answer (h.resume hrest) (Value.binary_operates _ _ v)
    | logical hright =>
      simp only [Machine.stepValue]
      split
      · exact .value hv (h.resume hrest)
      · exact .seen hright (h.resume hrest)
    | @assign id name value _ =>
      have hkeeps := Interpreter.assign_keeps h.store hv id name
      refine .give ((h.resume hrest).keeps hkeeps) fun w hw => ?_
      have hw' : w = v := by
        simp only [Interpreter.assign] at hw
        split at hw <;> cases hw
        rfl
      exact hw' ▸ hv.grows hkeeps.grows
    | @callee paren arguments harguments =>
      exact .stepArguments hV (h.resume hrest) paren hv (fun w hw => by cases hw) harguments
    | @argument callee paren done todo hcallee hdone htodo =>
      refine .stepArguments hV (h.resume hrest) paren hcallee (fun w hw => ?_) htodo
      rcases List.mem_cons.mp hw with rfl | hw
      · exact hv
      · exact hdone w hw
    | @get name =>
      cases v with
      | object o =>
        refine .give
          ((h.resume hrest).keeps (Interpreter.property_keeps h.store h.env.top_lt hv name))
          fun w hw => ?_
        exact Interpreter.property_sound h.store hv hw
      | _ => exact .fault h.store
    | setObject hvalue =>
      cases v with
      | object o => exact .seen hvalue ((h.resume hrest).push .setValue)
      | _ => exact .fault h.store
    | @setValue o name =>
      have hkeeps : Interpreter.Keeps V g st (st.setField o name.lexeme v) :=
        ⟨⟨rfl, rfl, rfl, rfl, rfl⟩, .of_scopes rfl, h.store.setField hv⟩
      exact .value (hv.grows hkeeps.grows) ((h.resume hrest).keeps hkeeps)
    | discard => exact .flow (f := .normal) trivial (h.resume hrest)
    | print =>
      have hkeeps : Interpreter.Keeps V g st (st.print v).2 :=
        ⟨Interpreter.print_samePlace, .refl, h.store⟩
      exact .finish ((h.resume hrest).keeps hkeeps)
    | @declare name =>
      have hdefined := hv.grows (Store.Grows.define st.env name.lexeme v)
      exact .flow (f := .normal) trivial ((h.resume hrest).define name.lexeme hdefined)
    | @branch thenBranch elseBranch hthen helse =>
      simp only [Machine.stepValue]
      split
      · exact .branch hthen (h.resume hrest)
      · split
        · exact .branch (helse _ rfl) (h.resume hrest)
        · exact .flow (f := .normal) trivial (h.resume hrest)
    | loopTest hcondition hbody =>
      simp only [Machine.stepValue]
      split
      · exact .branch hbody ((h.resume hrest).push (.loopBody hcondition hbody))
      · exact .flow (f := .normal) trivial (h.resume hrest)
    | loopBody => exact .flow (f := .normal) trivial h
    | returning => exact .flow (f := .returned v) hv (h.resume hrest)
    | superclass hmethods =>
      cases v with
      | cls c =>
        refine .defineClass hV (h.resume hrest) ?_ hmethods
        rintro _ ⟨⟩
        exact hv
      | _ => exact .fault h.store
    | endCall => exact .value hv ((h.resume hrest).callDepth _)
    | construct hcls => exact .value hcls (h.resume hrest)
    | initializer => exact .flow (f := .normal) trivial h
  · exact .flow (f := .normal) trivial h
  · exact .flow (f := .normal) trivial h

theorem Sound.stepFlow {f : Flow} {frame : Frame} (hf : f.result.Sound V g st.store)
    (h : st.Fits V g D Γ Γ (frame :: frames)) : Sound V g D (stepFlow f frame frames st) := by
  rcases h.frames.cons_cases with
    ⟨Δ, hawaits, hrest⟩ | ⟨rest, rfl, hseen, hresume, outer, fs, hleave⟩ | ⟨outer, Δ, rfl, henv,
    hrest⟩
  · cases hawaits with
    | loopBody hcondition hbody =>
      cases f with
      | normal => exact .seen hcondition ((h.resume hrest).push (.loopTest hcondition hbody))
      | returned v => exact .flow hf (h.resume hrest)
    | initializer =>
      refine .give (h.resume hrest) fun v hv => ?_
      obtain ⟨scope, hfind⟩ := Store.exists_find?_of_getAt? (Interpreter.eq_some_of_found hv)
      exact h.store.values scope _ v hfind
    | _ => exact .value hf h
  · cases f with
    | returned v => exact .flow hf (h.resume (hresume Γ))
    | normal =>
      cases rest with
      | nil => exact .flow hf (h.resume (hresume Γ))
      | cons s rest =>
        obtain ⟨r, hv, rfl⟩ := hseen
        have hrest : (Node.stmts rest).Seen V (s.scopesAfter r.scopes) :=
          ⟨_, hV.second hv rfl, Stmt.scopes_resolve (hV.accepted hv).formed.1⟩
        subst hleave
        exact .exec (hV.first hv rfl) (h.resume (.sequence hrest (hresume _)))
  · exact .flow hf ⟨h.globals, h.distances, h.store, henv, hrest⟩

/-- **No step takes a machine away from the places of a program.** -/
theorem Sound.step {m : Machine} (h : Sound V g D m) : Sound V g D m.step := by
  cases h with
  | eval hv hsees h => exact .stepEval hV hv hsees h
  | exec hv h => exact .stepExec hV hv h
  | @value v Γ frames st hv h =>
    cases frames with
    | nil => exact .value hv h
    | cons frame frames => exact .stepValue hV hv h
  | @flow f Γ frames st hf h =>
    cases frames with
    | nil => exact .flow hf h
    | cons frame frames => exact .stepFlow hV hf h
  | @fault f frames st h =>
    cases frames with
    | nil => exact .fault h
    | cons frame frames =>
      rw [Machine.step, stepFault_eq]
      cases frame <;> exact .fault h

theorem Sound.run (budget : Nat) {m : Machine} (h : Sound V g D m) :
    Sound V g D (run budget m) := by
  induction budget generalizing m with
  | zero => exact h
  | succ budget ih =>
    rw [Machine.run]
    split
    · exact h
    · exact ih (h.step hV)

end Machine

end Lox
