import Lox.Proofs.Lexical.Calls

/-!
# Steps inside enclosures

Each step leads from a place of the text to another one, with an environment that follows the
enclosures there, and the scopes that it makes are for the text that it enters
(`Machine.Lexical.step`). So this holds after any number of steps, and all scopes were made by the
machines on the way (`Machine.Lexical.run`).
-/

namespace Lox

variable {L : List Enclosure → Visit → Prop} {plan : Plan} {g : ScopeId} {D : Distances}

namespace Machine

variable {st : Interpreter} {E : List Enclosure} {frames : List Frame}

/-! ## Starting -/

section

variable (hL : Visit.Lexicon D L)

include hL

/-- Starting an expression keeps to the text. -/
theorem FollowsFrom.stepEval {e : Expr} (hn : (Node.expr e).Placed L E)
    (h : st.Stands L plan g D E frames) :
    FollowsFrom L plan g D ⟨.eval e, frames, st⟩ (stepEval e frames st) := by
  obtain ⟨r, hv⟩ := hn
  have hlegal := (hL.known hv).legal
  cases e with
  | literal l =>
    exact Lexical.followsFrom (.value (Value.follows_of_isPlain (Value.isPlain_ofLiteral l)) h)
  | «variable» id name =>
    refine Lexical.followsFrom (.give h ?_ ?_)
    · exact fun v hfound => Interpreter.lookUp_follows h.store hfound
    · exact fun f hmissing => Interpreter.lookUp_external hlegal hmissing
  | thisRef id word =>
    obtain ⟨o, hfound⟩ := h.this_bound hL ⟨r, hv⟩
    rw [Machine.stepEval, hfound]
    exact Lexical.followsFrom (.value (Interpreter.lookUp_follows h.store hfound) h)
  | superRef id word name => exact .superMethod hL ⟨r, hv⟩ h rfl rfl
  | grouping inner => exact Lexical.followsFrom (.eval ⟨_, hL.first hv rfl⟩ h)
  | unary operator right =>
    exact Lexical.followsFrom (.eval ⟨_, hL.first hv rfl⟩ (h.pushOperand hlegal.1 rfl))
  | binary left operator right =>
    have hright : (Node.expr right).Placed L E := ⟨_, hL.second hv rfl⟩
    refine Lexical.followsFrom (.eval ⟨_, hL.first hv rfl⟩ ?_)
    exact h.pushOperand ⟨hlegal.1, hright⟩ rfl
  | logical left operator right =>
    have hright : (Node.expr right).Placed L E := ⟨_, hL.second hv rfl⟩
    exact Lexical.followsFrom (.eval ⟨_, hL.first hv rfl⟩ (h.pushOperand hright rfl))
  | assign id name value =>
    exact Lexical.followsFrom (.eval ⟨_, hL.first hv rfl⟩ (h.pushOperand hlegal.1 rfl))
  | call callee paren arguments =>
    have harguments : (Node.exprs arguments).Placed L E := ⟨_, hL.second hv rfl⟩
    exact Lexical.followsFrom (.eval ⟨_, hL.first hv rfl⟩ (h.pushOperand harguments rfl))
  | get object name =>
    exact Lexical.followsFrom (.eval ⟨_, hL.first hv rfl⟩ (h.pushOperand trivial rfl))
  | set object name value =>
    -- The walk looks at the value first, the machine at the object.
    have hvalue : (Node.expr value).Placed L E := ⟨_, hL.first hv rfl⟩
    have hobject : (Node.expr object).Placed L E := ⟨_, hL.second hv rfl⟩
    exact Lexical.followsFrom (.eval hobject (h.pushOperand hvalue rfl))

/-- Starting a statement keeps to the text. -/
theorem FollowsFrom.stepExec {s : Stmt} (hn : (Node.stmt s).Placed L E)
    (hend : Frame.bodyEnd? frames = none) (h : st.Stands L plan g D E frames) :
    FollowsFrom L plan g D ⟨.exec s, frames, st⟩ (stepExec s frames st) := by
  obtain ⟨r, hv⟩ := hn
  have haccepted := hL.accepted hv
  have hknown := hL.known hv
  obtain ⟨hE, hdeclares⟩ := hknown.nested
  cases s with
  | expression value =>
    exact Lexical.followsFrom (.eval ⟨_, hL.first hv rfl⟩ (h.push trivial fun _ => hend))
  | print value =>
    exact Lexical.followsFrom (.eval ⟨_, hL.first hv rfl⟩ (h.push trivial fun _ => hend))
  | var name initializer =>
    have hname : name.IsFree := haccepted.formed.isFree rfl
    cases initializer with
    | none => exact Lexical.followsFrom (.normal (h.define trivial hname (hdeclares name rfl)))
    | some value =>
      refine Lexical.followsFrom (.eval ⟨_, hL.first hv rfl⟩ ?_)
      exact h.push ⟨hname, hdeclares name rfl⟩ fun _ => hend
  | block body =>
    refine ⟨_, .add h.store.fresh _, .normal (h.enter rfl h.env ?_ ?_ ⟨_, hL.first hv rfl⟩ ?_ ?_)⟩
    · intro hclass
      rw [hE] at hclass
      cases hclass
    · exact fun _ _ hfind => by cases hfind
    · exact fun _ => rfl
    · intro hbody
      rw [hend] at hbody
      cases hbody
  | ifThen condition thenBranch =>
    have hthen : (Node.stmt thenBranch).Placed L E := ⟨_, hL.second hv rfl⟩
    refine Lexical.followsFrom (.eval ⟨_, hL.first hv rfl⟩ (h.push ⟨hthen, ?_⟩ fun _ => hend))
    exact fun _ hnone => by cases hnone
  | ifThenElse condition thenBranch elseBranch =>
    have hthen : (Node.stmt thenBranch).Placed L E := ⟨_, hL.second hv rfl⟩
    have helse : (Node.stmt elseBranch).Placed L E :=
      ⟨_, hL.part hv (List.mem_cons_of_mem _ (List.mem_cons_of_mem _ List.mem_cons_self))⟩
    refine Lexical.followsFrom (.eval ⟨_, hL.first hv rfl⟩ (h.push ⟨hthen, ?_⟩ fun _ => hend))
    rintro _ ⟨⟩
    exact helse
  | whileLoop condition body =>
    have hcondition : (Node.expr condition).Placed L E := ⟨_, hL.first hv rfl⟩
    have hbody : (Node.stmt body).Placed L E := ⟨_, hL.second hv rfl⟩
    exact Lexical.followsFrom (.eval hcondition (h.push ⟨hcondition, hbody⟩ fun _ => hend))
  | function decl =>
    have hname : decl.name.IsFree := haccepted.formed.isFree rfl
    have hclosed := h.withStore h.store.addIdentity
    have hclosure : Closure.Follows L plan g (st.close st.env false decl).1 := by
      refine ⟨.function, E, ⟨_, hL.first hv rfl⟩, h.env, ?_, fun hinit => by cases hinit⟩
      intro hclass
      rw [hE] at hclass
      cases hclass
    exact Lexical.followsFrom
      (.normal (hclosed.define (v := .closure _) hclosure hname (hdeclares decl.name rfl)))
  | returnWith word value =>
    obtain ⟨hfunction, hinitializer⟩ := haccepted.returns hknown
    cases value with
    | none =>
      exact Lexical.followsFrom
        (.flow (f := .returned .nil) trivial (fun _ => ⟨hfunction, fun _ => rfl⟩) h)
    | some value =>
      refine Lexical.followsFrom (.eval ⟨_, hL.first hv rfl⟩ ?_)
      exact h.push ⟨hfunction, hinitializer rfl⟩ fun _ => hend
  | classDef name superclass methods =>
    cases superclass with
    | none =>
      exact .defineClass hL h ⟨name, none, methods⟩ ⟨r, hv⟩ rfl (fun _ hnone => by cases hnone)
        fun _ hnone => by cases hnone
    | some e =>
      refine Lexical.followsFrom (.eval ⟨_, hL.first hv rfl⟩ ?_)
      exact h.push ⟨e, r, hv⟩ fun _ => hend

/-! ## Going on with a result -/

theorem FollowsFrom.stepArguments (h : st.Stands L plan g D E frames) {maker : Machine}
    {callee : Value} {paren : Token} {done : List Value} {todo : List Expr}
    (hcallee : callee.Follows L plan g) (hdone : ∀ v ∈ done, v.Follows L plan g)
    (htodo : (Node.exprs todo).Placed L E) (hstate : maker.state = st)
    (hstep : maker.step = Machine.stepArguments callee paren done todo frames st) :
    FollowsFrom L plan g D maker (Machine.stepArguments callee paren done todo frames st) := by
  cases todo with
  | nil => exact .call hL h hcallee (fun v hv => hdone v (List.mem_reverse.mp hv)) hstate hstep
  | cons e rest =>
    obtain ⟨r, hv⟩ := htodo
    have hrest : (Node.exprs rest).Placed L E := ⟨_, hL.second hv rfl⟩
    refine Lexical.followsFrom (.eval ⟨_, hL.first hv rfl⟩ ?_)
    exact h.pushOperand ⟨hcallee, hdone, hrest⟩ rfl

/-- Going on with a value keeps to the text. -/
theorem FollowsFrom.stepValue {v : Value} {frame : Frame} (hv : v.Follows L plan g)
    (h : st.Stands L plan g D E (frame :: frames)) :
    FollowsFrom L plan g D ⟨.value v, frame :: frames, st⟩ (stepValue v frame frames st) := by
  rcases h.frames.cons_cases with ⟨hwaits, hend, hrest⟩ | ⟨_, _, rfl, -⟩
  · have hst := h.resume hrest
    cases frame with
    | unary operator => exact Lexical.followsFrom (.plain hst (Value.unary_plain hwaits v))
    | binaryLeft operator right =>
      exact Lexical.followsFrom (.eval hwaits.2 (hst.pushOperand hwaits.1 rfl))
    | binaryRight left operator =>
      exact Lexical.followsFrom (.plain hst (Value.binary_plain hwaits left v))
    | logical operator right =>
      simp only [Machine.stepValue]
      split
      · exact Lexical.followsFrom (.value hv hst)
      · exact Lexical.followsFrom (.eval hwaits hst)
    | assign id name => exact Lexical.followsFrom (hst.assign hv hwaits)
    | callee paren arguments =>
      exact .stepArguments hL hst hv (fun _ hw => by cases hw) hwaits rfl rfl
    | argument callee paren done todo =>
      obtain ⟨hcallee, hdone, htodo⟩ := hwaits
      exact .stepArguments hL hst hcallee (List.forall_mem_cons.mpr ⟨hv, hdone⟩) htodo rfl rfl
    | get name =>
      cases v with
      | object o => exact .property hst hv rfl rfl
      | _ => exact Lexical.followsFrom (.fault rfl h.store)
    | setObject name value =>
      cases v with
      | object o => exact Lexical.followsFrom (.eval hwaits (hst.pushOperand trivial rfl))
      | _ => exact Lexical.followsFrom (.fault rfl h.store)
    | setValue o name => exact Lexical.followsFrom (.value hv (hst.withStore (h.store.setField hv)))
    | discard => exact Lexical.followsFrom (.normal hst)
    | print => exact Lexical.followsFrom (hst.print v)
    | declare name => exact Lexical.followsFrom (.normal (hst.define hv hwaits.1 hwaits.2))
    | branch thenBranch elseBranch =>
      simp only [Machine.stepValue]
      split
      · exact Lexical.followsFrom (.exec hwaits.1 (hend rfl) hst)
      · split
        · exact Lexical.followsFrom (.exec (hwaits.2 _ rfl) (hend rfl) hst)
        · exact Lexical.followsFrom (.normal hst)
    | loopTest condition body =>
      simp only [Machine.stepValue]
      split
      · exact Lexical.followsFrom (.exec hwaits.2 rfl (hst.push hwaits fun _ => hend rfl))
      · exact Lexical.followsFrom (.normal hst)
    | returning =>
      refine Lexical.followsFrom
        (.flow (f := .returned v) hv (fun _ => ⟨hwaits.1, fun hinit => ?_⟩) hst)
      exact absurd hinit hwaits.2
    | superclass name line methods =>
      cases v with
      | cls k =>
        obtain ⟨e, hplaced⟩ := hwaits
        refine .defineClass hL hst ⟨name, some e, methods⟩ hplaced rfl ?_ ?_
        · rintro _ ⟨⟩
          exact hv
        · rintro _ ⟨⟩
          exact ⟨line, frames, rfl⟩
      | _ => exact Lexical.followsFrom (.fault rfl h.store)
    | endCall => exact Lexical.followsFrom (.value hv (hst.callDepth _))
    | construct o => exact Lexical.followsFrom (.value (v := .object o) hwaits hst)
    | sequence rest => exact Lexical.followsFrom (.normal h)
    | loopBody condition body => exact Lexical.followsFrom (.normal h)
    | initializer c => exact Lexical.followsFrom (.normal h)
    | leave env => exact hwaits.elim
  · exact Lexical.followsFrom (.normal h)

theorem FollowsFrom.stepFlow {f : Flow} {frame : Frame} {maker : Machine}
    (hv : f.result.Follows L plan g)
    (hflow : Frame.bodyEnd? (frame :: frames) = none → f.Allowed (Enclosure.functionKind E))
    (h : st.Stands L plan g D E (frame :: frames)) :
    FollowsFrom L plan g D maker (stepFlow f frame frames st) := by
  rcases h.frames.cons_cases with ⟨hwaits, hend, hrest⟩ | ⟨env, outside, rfl, henv, hblock, hrest⟩
  · have hst := h.resume hrest
    cases frame with
    | sequence rest =>
      cases f with
      | returned v => exact Lexical.followsFrom (.flow hv (fun _ => hflow rfl) hst)
      | normal =>
        cases rest with
        | nil => exact Lexical.followsFrom (.normal hst)
        | cons s rest =>
          obtain ⟨r, hseen⟩ := hwaits
          have hrest' : (Node.stmts rest).Placed L E := ⟨_, hL.second hseen rfl⟩
          exact Lexical.followsFrom (.exec ⟨_, hL.first hseen rfl⟩ rfl (hst.push hrest' hend))
    | loopBody condition body =>
      cases f with
      | normal => exact Lexical.followsFrom (.eval hwaits.1 (hst.push hwaits hend))
      | returned v => exact Lexical.followsFrom (.flow hv (fun _ => hflow rfl) hst)
    | initializer c =>
      -- The innermost scope of an initializer holds its object.
      obtain ⟨d, scope, env, site, method, o, henv, hsite, hrole, -⟩ := hwaits
      have hfind := h.store.receiver hsite hrole
      have hthis : st.store.getAt? c.env 0 "this" = some (.object o) := by
        rw [henv]
        exact hfind
      simp only [Machine.stepFlow, hthis]
      exact Lexical.followsFrom (.value (h.store.values scope "this" _ hfind) hst)
    | leave env => exact hwaits.elim
    | _ => exact Lexical.followsFrom (.value hv h)
  · have hallowed := hflow rfl
    refine Lexical.followsFrom
      (.flow hv (fun hnone => ?_) ⟨h.globals, h.distances, h.store, henv, hrest⟩)
    rw [hblock hnone]
    exact hallowed

/-- **Each step leads from a place of the text to another one.** The scopes that it makes are for
the text that it enters. -/
theorem Lexical.step {m : Machine} (h : m.Lexical L plan g D) :
    ∃ plan', plan.GrowsBy m plan' ∧ m.step.Lexical L plan' g D := by
  cases h with
  | eval hn h => exact FollowsFrom.stepEval hL hn h
  | exec hn hend h => exact FollowsFrom.stepExec hL hn hend h
  | @value v E frames st hv h =>
    cases frames with
    | nil => exact Lexical.followsFrom (.value hv h)
    | cons frame frames => exact FollowsFrom.stepValue hL hv h
  | @flow f E frames st hv hflow h =>
    cases frames with
    | nil => exact Lexical.followsFrom (.flow hv hflow h)
    | cons frame frames => exact FollowsFrom.stepFlow hL hv hflow h
  | @fault f frames st hf h =>
    cases frames with
    | nil => exact Lexical.followsFrom (.fault hf h)
    | cons frame frames =>
      rw [Machine.step, stepFault_eq]
      cases frame <;> exact Lexical.followsFrom (.fault hf h)

end

/-- The machines that take a step when a machine runs, in order. -/
def taken : Nat → Machine → List Machine
  | 0, _ => []
  | budget + 1, m => if m.isDone then [] else m :: taken budget m.step

/-- After a run, all new scopes were made on the way. -/
theorem Lexical.run (hL : Visit.Lexicon D L) (budget : Nat) {m : Machine}
    (h : m.Lexical L plan g D) :
    ∃ plan', plan.Sub plan' ∧
      (∀ scope site, plan' scope = some site →
        plan scope = some site ∨ site.maker ∈ taken budget m) ∧
      (run budget m).Lexical L plan' g D := by
  induction budget generalizing m plan with
  | zero => exact ⟨plan, .refl, fun _ _ hsite => .inl hsite, h⟩
  | succ budget ih =>
    rw [Machine.run, taken]
    split
    · exact ⟨plan, .refl, fun _ _ hsite => .inl hsite, h⟩
    · obtain ⟨plan₁, hgrows, hstep⟩ := h.step hL
      obtain ⟨plan₂, hsub, hmade, hrun⟩ := ih hstep
      refine ⟨plan₂, hgrows.sub.trans hsub, fun scope site hsite => ?_, hrun⟩
      rcases hmade scope site hsite with hold | hlater
      · rcases hgrows.new scope site hold with hold | hnow
        · exact .inl hold
        · exact .inr (hnow ▸ List.mem_cons_self)
      · exact .inr (List.mem_cons_of_mem _ hlater)

end Machine

end Lox
