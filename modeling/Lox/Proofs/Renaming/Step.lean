import Lox.Proofs.Renaming.Operations

/-!
# A renamed machine

Two machines are related if they are at the same place of a program and of the renamed one, with
related states and frames (`Machine.Renamed`). The marks of the place say which scopes of the
environment are renamed. A frame that goes back to an environment goes back to the marks of that
environment too.

Related machines take related steps (`Machine.step_renamed`), so one ends when the other does, and
they end alike.
-/

namespace Lox

variable {R : Renaming} {M M' : ScopeMarks} {marks : Marks}

/-! ## Frames -/

namespace Frame

/-- A frame that goes on at a place with some marks, and that of the renamed program. -/
inductive Renamed (R : Renaming) (M : ScopeMarks) (marks : Marks) : Frame → Frame → Prop where
  | unary (operator : Token) : Renamed R M marks (.unary operator) (.unary operator)
  | binaryLeft {operator : Token} {e e' : Expr} (h : e.Renamed R marks e') :
      Renamed R M marks (.binaryLeft operator e) (.binaryLeft operator e')
  | binaryRight {v v' : Value} {operator : Token} (h : v.Renamed R M v') :
      Renamed R M marks (.binaryRight v operator) (.binaryRight v' operator)
  | logical {operator : Token} {e e' : Expr} (h : e.Renamed R marks e') :
      Renamed R M marks (.logical operator e) (.logical operator e')
  | assign (id : NodeId) {name : Token} (hname : name.lexeme ≠ R.new) :
      Renamed R M marks (.assign id name) (.assign id (R.token (marks.at? R.distances[id]?) name))
  | callee {paren : Token} {es es' : List Expr} (h : Expr.RenamedAll R marks es es') :
      Renamed R M marks (.callee paren es) (.callee paren es')
  | argument {v v' : Value} {paren : Token} {done done' : List Value} {todo todo' : List Expr}
      (hv : v.Renamed R M v') (hdone : List.Forall₂ (Value.Renamed R M) done done')
      (htodo : Expr.RenamedAll R marks todo todo') :
      Renamed R M marks (.argument v paren done todo) (.argument v' paren done' todo')
  | get (name : Token) : Renamed R M marks (.get name) (.get name)
  | setObject {name : Token} {e e' : Expr} (h : e.Renamed R marks e') :
      Renamed R M marks (.setObject name e) (.setObject name e')
  | setValue {o o' : Object} (name : Token) (h : o.Renamed R M o') :
      Renamed R M marks (.setValue o name) (.setValue o' name)
  | discard : Renamed R M marks .discard .discard
  | print : Renamed R M marks .print .print
  | declare {name : Token} (hname : name.lexeme ≠ R.new) :
      Renamed R M marks (.declare name) (.declare (R.token marks.here name))
  | branch {s s' : Stmt} {t? t'? : Option Stmt} (hs : s.Renamed R marks s')
      (ht : Option.Rel (Stmt.Renamed R marks) t? t'?) :
      Renamed R M marks (.branch s t?) (.branch s' t'?)
  | loopTest {e e' : Expr} {s s' : Stmt} (he : e.Renamed R marks e') (hs : s.Renamed R marks s') :
      Renamed R M marks (.loopTest e s) (.loopTest e' s')
  | returning : Renamed R M marks .returning .returning
  | superclass {name : Token} (line : Nat) {ds ds' : List FunctionDecl}
      (hname : R.Keeps marks name.lexeme)
      (h : Stmt.RenamedMethods R (false :: false :: marks) ds ds') :
      Renamed R M marks (.superclass name line ds) (.superclass name line ds')
  | endCall : Renamed R M marks .endCall .endCall
  | construct {o o' : Object} (h : o.Renamed R M o') :
      Renamed R M marks (.construct o) (.construct o')
  | sequence {rest rest' : List Stmt} (h : Stmt.RenamedAll R marks rest rest') :
      Renamed R M marks (.sequence rest) (.sequence rest')
  | loopBody {e e' : Expr} {s s' : Stmt} (he : e.Renamed R marks e') (hs : s.Renamed R marks s') :
      Renamed R M marks (.loopBody e s) (.loopBody e' s')
  | initializer {c c' : Closure} (h : c.Renamed R M [] c') :
      Renamed R M marks (.initializer c) (.initializer c')

/-- Frames that go on at a place with some marks, and those of the renamed program. -/
inductive RenamedAll (R : Renaming) (M : ScopeMarks) : Marks → List Frame → List Frame → Prop where
  | nil {marks : Marks} : RenamedAll R M marks [] []
  | frame {marks : Marks} {frame frame' : Frame} {frames frames' : List Frame}
      (h : Renamed R M marks frame frame') (hrest : RenamedAll R M marks frames frames') :
      RenamedAll R M marks (frame :: frames) (frame' :: frames')
  | leave {marks outer : Marks} {env : Env} {frames frames' : List Frame} (h : env.Marked M outer)
      (hrest : RenamedAll R M outer frames frames') :
      RenamedAll R M marks (.leave env :: frames) (.leave env :: frames')

theorem Renamed.mono {frame frame' : Frame} (h : Renamed R M marks frame frame') (hM : M <+: M') :
    Renamed R M' marks frame frame' := by
  cases h with
  | binaryRight h => exact .binaryRight (h.mono hM)
  | argument hv hdone htodo =>
    exact .argument (hv.mono hM) (hdone.imp fun _ _ => Value.Renamed.mono hM) htodo
  | setValue name h => exact .setValue name (h.mono hM)
  | construct h => exact .construct (h.mono hM)
  | initializer h => exact .initializer (h.mono hM)
  | _ => constructor <;> assumption

theorem RenamedAll.mono {frames frames' : List Frame} (h : RenamedAll R M marks frames frames')
    (hM : M <+: M') :
    RenamedAll R M' marks frames frames' := by
  induction h with
  | nil => exact .nil
  | frame h _ ih => exact .frame (h.mono hM) ih
  | leave h _ ih => exact .leave (h.mono hM) ih

end Frame

/-! ## Machines -/

/-- How a statement ended, and how the renamed one did. -/
inductive Flow.Renamed (R : Renaming) (M : ScopeMarks) : Flow → Flow → Prop where
  | normal : Renamed R M .normal .normal
  | returned {v v' : Value} (h : v.Renamed R M v') : Renamed R M (.returned v) (.returned v')

/-- Related endings have related results. -/
theorem Flow.Renamed.result {f f' : Flow} (h : f.Renamed R M f') :
    f.result.Renamed R M f'.result := by
  cases h with
  | normal => exact .nil
  | returned h => exact h

/-- What happens next at a place with some marks, and in the renamed program. -/
inductive Control.Renamed (R : Renaming) (M : ScopeMarks) (marks : Marks) :
    Control → Control → Prop where
  | eval {e e' : Expr} (h : e.Renamed R marks e') : Renamed R M marks (.eval e) (.eval e')
  | exec {s s' : Stmt} (h : s.Renamed R marks s') : Renamed R M marks (.exec s) (.exec s')
  | value {v v' : Value} (h : v.Renamed R M v') : Renamed R M marks (.value v) (.value v')
  | flow {f f' : Flow} (h : f.Renamed R M f') : Renamed R M marks (.flow f) (.flow f')
  | fault {f f' : Fault} (h : f.Renamed R f') : Renamed R M marks (.fault f) (.fault f')

/-- A machine at a place of a program, and one at that place of the renamed program. -/
inductive Machine.Renamed (R : Renaming) : Machine → Machine → Prop where
  | mk {M : ScopeMarks} {marks : Marks} {c c' : Control} {frames frames' : List Frame}
      {st st' : Interpreter} (hc : c.Renamed R M marks c')
      (hf : Frame.RenamedAll R M marks frames frames') (hst : st.Renamed R M marks st') :
      Renamed R ⟨c, frames, st⟩ ⟨c', frames', st'⟩

namespace Machine

variable {frames frames' : List Frame} {st st' : Interpreter} {v v' : Value} {m m' : Machine}

section

variable (hf : Frame.RenamedAll R M marks frames frames')

include hf

/-- Handing on the answers of an operation. -/
theorem give_renamed {r r' : Except Fault Value × Interpreter}
    (h : Answered R M marks (Value.Renamed R) r r') :
    Renamed R (give r frames) (give r' frames') := by
  obtain ⟨answer, st⟩ := r
  obtain ⟨answer', st'⟩ := r'
  obtain ⟨hM, hanswer, hst⟩ := h
  cases hanswer with
  | ok hv => exact .mk (.value hv) (hf.mono hM) hst
  | error he => exact .mk (.fault he) (hf.mono hM) hst

theorem finish_renamed {r r' : Except Fault Unit × Interpreter}
    (h : Answered R M marks (fun _ _ _ => True) r r') :
    Renamed R (finish r frames) (finish r' frames') := by
  obtain ⟨answer, st⟩ := r
  obtain ⟨answer', st'⟩ := r'
  obtain ⟨hM, hanswer, hst⟩ := h
  cases hanswer with
  | ok _ => exact .mk (.flow .normal) (hf.mono hM) hst
  | error he => exact .mk (.fault he) (hf.mono hM) hst

/-! ## Starting -/

variable (hst : st.Renamed R M marks st')

include hst

/-- Related expressions start alike. -/
theorem stepEval_renamed (hR : R.Proper) {e e' : Expr} (he : e.Renamed R marks e') :
    Renamed R (stepEval e frames st) (stepEval e' frames' st') := by
  cases he with
  | literal l => exact .mk (.value (Value.renamed_ofLiteral l)) hf hst
  | grouping h => exact .mk (.eval h) hf hst
  | unary h => exact .mk (.eval h) (.frame (.unary _) hf) hst
  | binary hl hr => exact .mk (.eval hl) (.frame (.binaryLeft hr) hf) hst
  | logical hl hr => exact .mk (.eval hl) (.frame (.logical hr) hf) hst
  | «variable» hname => exact give_renamed hf (.here (hst.lookUp _ hname) hst)
  | assign hname h => exact .mk (.eval h) (.frame (.assign _ hname) hf) hst
  | call h hs => exact .mk (.eval h) (.frame (.callee hs) hf) hst
  | get h => exact .mk (.eval h) (.frame (.get _) hf) hst
  | set ho hv => exact .mk (.eval ho) (.frame (.setObject hv) hf) hst
  | thisRef id hword =>
    -- The word `this` is not the renamed name.
    rename_i word
    have hold : word.lexeme ≠ R.old := by rw [hword]; exact hR.old.1.symm
    have hnew : word.lexeme ≠ R.new := by rw [hword]; exact hR.new.1.symm
    have hlook := hst.lookUp id hnew
    rw [Renaming.token_of_ne _ hold] at hlook
    exact give_renamed hf (.here hlook hst)
  | superRef id _ method => exact give_renamed hf (hst.superMethod hR id _ method)

omit hf hst in
theorem superclassLine_eq (name : Token) {e e' : Expr} (h : e.Renamed R marks e') :
    superclassLine name e' = superclassLine name e := by
  cases h <;> rfl

/-- Entering a new scope to run statements in it, with a way back. -/
theorem enter_renamed {env : Env} {outer : Marks} (henv : env.Marked M outer) {here : Bool}
    {t t' : NameTable Value}
    (ht : ∀ {n}, n ≠ R.new → Option.Rel (Value.Renamed R M) (t.find? n) (t'.find? (R.name here n)))
    {body body' : List Stmt} (hbody : Stmt.RenamedAll R (here :: outer) body body') :
    Renamed R ⟨.flow .normal, .sequence body :: .leave st.env :: frames, st.enter env t⟩
      ⟨.flow .normal, .sequence body' :: .leave st'.env :: frames', st'.enter env t'⟩ := by
  have hM : M <+: M ++ [here] := List.prefix_append M [here]
  rw [hst.env_eq]
  exact .mk (.flow .normal) (.frame (.sequence hbody) (.leave (hst.marked.mono hM) (hf.mono hM)))
    (hst.enter henv ht)

/-- Related statements start alike. -/
theorem stepExec_renamed {s s' : Stmt} (hs : s.Renamed R marks s') :
    Renamed R (stepExec s frames st) (stepExec s' frames' st') := by
  cases hs with
  | expression h => exact .mk (.eval h) (.frame .discard hf) hst
  | print h => exact .mk (.eval h) (.frame .print hf) hst
  | var hname => exact .mk (.flow .normal) hf (hst.define hname .nil)
  | initialized hname h => exact .mk (.eval h) (.frame (.declare hname) hf) hst
  | block here h =>
    have hempty {n : String} (_ : n ≠ R.new) : Option.Rel (Value.Renamed R M)
        ((∅ : NameTable Value).find? n) ((∅ : NameTable Value).find? (R.name here n)) := .none
    have henter := enter_renamed hf hst hst.marked hempty h
    rw [hst.env_eq] at henter
    simp only [stepExec, hst.env_eq]
    exact henter
  | ifThen he h => exact .mk (.eval he) (.frame (.branch h .none) hf) hst
  | ifThenElse he h h' => exact .mk (.eval he) (.frame (.branch h (.some h')) hf) hst
  | whileLoop he h => exact .mk (.eval he) (.frame (.loopTest he h) hf) hst
  | function hname h =>
    have hclosed := hst.close [] hst.marked false h
    have hdefine := hclosed.2.define hname.fresh (.closure hclosed.1)
    rw [hname.name_eq] at hdefine
    simp only [stepExec, hst.env_eq, h.name_eq]
    exact .mk (.flow .normal) hf hdefine
  | returnNothing word => exact .mk (.flow (.returned .nil)) hf hst
  | returnValue h => exact .mk (.eval h) (.frame .returning hf) hst
  | plainClass hname h => exact finish_renamed hf (hst.defineClass hname .none h)
  | subclass hname he h =>
    simp only [stepExec, superclassLine_eq _ he]
    exact .mk (.eval he) (.frame (.superclass _ hname h) hf) hst

end

/-! ## Calls -/

variable {arguments arguments' : List Value}

/-- The body of a function runs in a scope that is marked as its declaration says. -/
theorem enterClosure_renamed (hf : Frame.RenamedAll R M marks frames frames')
    (hst : st.Renamed R M marks st') {c c' : Closure} (hc : c.Renamed R M [] c')
    (hargs : List.Forall₂ (Value.Renamed R M) arguments arguments') :
    Renamed R (enterClosure c arguments frames st) (enterClosure c' arguments' frames' st') := by
  have hframes : Frame.RenamedAll R M marks
      (if c.isInitializer then .initializer c :: frames else frames) (if c.isInitializer then
        .initializer c' :: frames' else frames') := by
    split
    · exact .frame (.initializer hc) hf
    · exact hf
  simp only [enterClosure, hc.env_eq, hc.isInitializer_eq]
  -- The body stands where the function was declared, not where it is called.
  obtain ⟨-, outer, henv, hdecl⟩ := hc
  obtain ⟨here, hfresh, hparams, hbody⟩ := hdecl.parts
  rw [hparams]
  exact enter_renamed hframes hst henv (callVariables_renamed hfresh here hargs) hbody

theorem instantiate_renamed (hf : Frame.RenamedAll R M marks frames frames')
    (hst : st.Renamed R M marks st') {c c' : Class} (hc : c.Renamed R M c')
    (hargs : List.Forall₂ (Value.Renamed R M) arguments arguments') :
    Renamed R (instantiate c arguments frames st) (instantiate c' arguments' frames' st') := by
  have hnext : st'.store.nextObject = st.store.nextObject := hst.stores.objects
  have ho : Object.Renamed R M ⟨st.store.nextObject, c⟩ ⟨st.store.nextObject, c'⟩ := ⟨rfl, hc⟩
  have hinit := hc.findMethod? "init"
  simp only [instantiate, hnext]
  generalize c.findMethod? "init" = m? at hinit
  generalize c'.findMethod? "init" = m'? at hinit
  cases hinit with
  | none => exact .mk (.value (.object ho)) hf hst.addObject
  | some hm =>
    obtain ⟨hbound, hstate⟩ := hst.addObject.bind hm ho
    -- Binding `this` adds a scope, and what waits or was passed is older than that.
    have hM : M <+: M ++ [false] := List.prefix_append M [false]
    have hframes := Frame.RenamedAll.frame (.construct ho) hf
    exact enterClosure_renamed (hframes.mono hM) hstate hbound
      (hargs.imp fun _ _ => Value.Renamed.mono hM)

theorem arity?_eq (hv : v.Renamed R M v') : arity? v' = arity? v := by
  cases hv with
  | closure hc => exact congrArg some hc.arity_eq
  | cls hc => exact congrArg some hc.arity_eq
  | _ => rfl

theorem startCall_renamed (hf : Frame.RenamedAll R M marks frames frames')
    (hst : st.Renamed R M marks st') (hv : v.Renamed R M v') (paren : Token)
    (hargs : List.Forall₂ (Value.Renamed R M) arguments arguments') :
    Renamed R (startCall v paren arguments frames st) (startCall v' paren arguments' frames'
      st') := by
  have hcounted := hst.withCallDepth (st.callDepth + 1)
  have hframes : Frame.RenamedAll R M marks (.endCall :: frames) (.endCall :: frames') :=
    .frame .endCall hf
  simp only [startCall, hst.callDepth_eq]
  cases hv with
  | native n => exact give_renamed hframes (callNative_renamed hcounted n paren hargs)
  | closure hc => exact enterClosure_renamed hframes hcounted hc hargs
  | cls hc => exact instantiate_renamed hframes hcounted hc hargs
  | _ => exact .mk (.fault (.same _)) hframes hcounted

/-- Related values are called alike. -/
theorem call_renamed (hf : Frame.RenamedAll R M marks frames frames')
    (hst : st.Renamed R M marks st') (hv : v.Renamed R M v') (paren : Token)
    (hargs : List.Forall₂ (Value.Renamed R M) arguments arguments') :
    Renamed R (call v paren arguments frames st) (call v' paren arguments' frames' st') := by
  simp only [call, arity?_eq hv, ← hargs.length_eq, hst.callDepth_eq, hst.maxCallDepth_eq]
  cases arity? v with
  | none => exact .mk (.fault (.same _)) hf hst
  | some n =>
    dsimp only
    split
    · exact .mk (.fault (.same _)) hf hst
    · split
      · exact .mk (.fault (.same _)) hf hst
      · exact startCall_renamed hf hst hv paren hargs

theorem stepArguments_renamed (hf : Frame.RenamedAll R M marks frames frames')
    (hst : st.Renamed R M marks st') (hv : v.Renamed R M v') (paren : Token)
    {done done' : List Value} (hdone : List.Forall₂ (Value.Renamed R M) done done')
    {todo todo' : List Expr} (htodo : Expr.RenamedAll R marks todo todo') :
    Renamed R (stepArguments v paren done todo frames st) (stepArguments v' paren done' todo'
      frames' st') := by
  cases htodo with
  | nil => exact call_renamed hf hst hv paren (List.forall₂_reverse_iff.mpr hdone)
  | cons he htodo => exact .mk (.eval he) (.frame (.argument hv hdone htodo) hf) hst

/-! ## Results -/

section

variable {frame frame' : Frame}
  (hf : Frame.RenamedAll R M marks (frame :: frames) (frame' :: frames'))
  (hst : st.Renamed R M marks st')

include hf hst

/-- Related frames take related values alike. -/
theorem stepValue_renamed (hv : v.Renamed R M v') :
    Renamed R (stepValue v frame frames st) (stepValue v' frame' frames' st') := by
  cases hf with
  | leave henv hf => exact .mk (.flow .normal) (.leave henv hf) hst
  | frame h hf =>
    cases h with
    | unary operator => exact give_renamed hf (.here (Value.unary_renamed operator hv) hst)
    | binaryLeft he => exact .mk (.eval he) (.frame (.binaryRight hv) hf) hst
    | binaryRight hleft => exact give_renamed hf (.here (Value.binary_renamed _ hleft hv) hst)
    | logical he =>
      simp only [stepValue, hv.decides_eq]
      split
      · exact .mk (.value hv) hf hst
      · exact .mk (.eval he) hf hst
    | assign id hname => exact give_renamed hf (hst.assign id hname hv)
    | callee hes => exact stepArguments_renamed hf hst hv _ .nil hes
    | argument hcallee hdone htodo =>
      exact stepArguments_renamed hf hst hcallee _ (.cons hv hdone) htodo
    | get name =>
      cases hv with
      | object ho => exact give_renamed hf (hst.property ho name)
      | _ => exact .mk (.fault (.same _)) hf hst
    | setObject he =>
      cases hv with
      | object ho => exact .mk (.eval he) (.frame (.setValue _ ho) hf) hst
      | _ => exact .mk (.fault (.same _)) hf hst
    | setValue name ho => exact .mk (.value hv) hf (hst.setField ho name.lexeme hv)
    | discard => exact .mk (.flow .normal) hf hst
    | print => exact finish_renamed hf (hst.print hv)
    | declare hname => exact .mk (.flow .normal) hf (hst.define hname hv)
    | branch hs ht =>
      simp only [stepValue, hv.isTruthy_eq]
      split
      · exact .mk (.exec hs) hf hst
      · cases ht with
        | some ht => exact .mk (.exec ht) hf hst
        | none => exact .mk (.flow .normal) hf hst
    | loopTest he hs =>
      simp only [stepValue, hv.isTruthy_eq]
      split
      · exact .mk (.exec hs) (.frame (.loopBody he hs) hf) hst
      · exact .mk (.flow .normal) hf hst
    | returning => exact .mk (.flow (.returned hv)) hf hst
    | superclass line hname hds =>
      cases hv with
      | cls hc => exact finish_renamed hf (hst.defineClass hname (.some hc) hds)
      | _ => exact .mk (.fault (.same _)) hf hst
    | endCall =>
      simp only [stepValue, hst.callDepth_eq]
      exact .mk (.value hv) hf (hst.withCallDepth _)
    | construct ho => exact .mk (.value (.object ho)) hf hst
    | sequence h => exact .mk (.flow .normal) (.frame (.sequence h) hf) hst
    | loopBody he hs => exact .mk (.flow .normal) (.frame (.loopBody he hs) hf) hst
    | initializer hc => exact .mk (.flow .normal) (.frame (.initializer hc) hf) hst

/-- Related frames take the end of a statement alike. -/
theorem stepFlow_renamed (hR : R.Proper) {f f' : Flow} (hflow : f.Renamed R M f') :
    Renamed R (stepFlow f frame frames st) (stepFlow f' frame' frames' st') := by
  cases hf with
  | leave henv hf => exact .mk (.flow hflow) hf (hst.leave henv)
  | frame h hf =>
    cases h with
    | sequence hrest =>
      cases hflow with
      | normal =>
        cases hrest with
        | nil => exact .mk (.flow .normal) hf hst
        | cons hs hrest => exact .mk (.exec hs) (.frame (.sequence hrest) hf) hst
      | returned hv => exact .mk (.flow (.returned hv)) hf hst
    | loopBody he hs =>
      cases hflow with
      | normal => exact .mk (.eval he) (.frame (.loopTest he hs) hf) hst
      | returned hv => exact .mk (.flow (.returned hv)) hf hst
    | @initializer c c' hc =>
      have hname : c'.decl.name = c.decl.name := by
        obtain ⟨-, _, -, hdecl⟩ := hc
        exact hdecl.name_eq
      -- An initializer gives `this`, whatever its body returns.
      have hthis : Option.Rel (Value.Renamed R M) (st.store.getAt? c.env 0 "this")
          (st'.store.getAt? c.env 0 "this") := by
        obtain ⟨-, _, henv, -⟩ := hc
        exact hst.stores.getAt?_of_ne henv 0 hR.new.1.symm hR.old.1.symm
      have hfound := Interpreter.found_renamed false "this" c.decl.name.line hthis
      simp only [stepFlow, hc.env_eq, hname]
      exact give_renamed hf (.here hfound hst)
    | _ =>
      refine .mk (.value hflow.result) (.frame ?_ hf) hst
      constructor <;> assumption

theorem stepFault_renamed {f f' : Fault} (hfault : f.Renamed R f') :
    Renamed R (stepFault f frame frames st) (stepFault f' frame' frames' st') := by
  cases hf with
  | leave henv hf => exact .mk (.fault hfault) hf (hst.leave henv)
  | frame h hf =>
    cases h with
    | endCall =>
      simp only [stepFault, hst.callDepth_eq]
      exact .mk (.fault hfault) hf (hst.withCallDepth _)
    | _ => exact .mk (.fault hfault) hf hst

end

/-- **Related machines take related steps.** -/
theorem step_renamed (hR : R.Proper) (h : m.Renamed R m') : m.step.Renamed R m'.step := by
  obtain ⟨hc, hf, hst⟩ := h
  cases hc with
  | eval he => exact stepEval_renamed hf hst hR he
  | exec hs => exact stepExec_renamed hf hst hs
  | value hv =>
    cases hf with
    | nil => exact .mk (.value hv) .nil hst
    | frame h hf => exact stepValue_renamed (.frame h hf) hst hv
    | leave h hf => exact stepValue_renamed (.leave h hf) hst hv
  | flow hflow =>
    cases hf with
    | nil => exact .mk (.flow hflow) .nil hst
    | frame h hf => exact stepFlow_renamed (.frame h hf) hst hR hflow
    | leave h hf => exact stepFlow_renamed (.leave h hf) hst hR hflow
  | fault hfault =>
    cases hf with
    | nil => exact .mk (.fault hfault) .nil hst
    | frame h hf => exact stepFault_renamed (.frame h hf) hst hfault
    | leave h hf => exact stepFault_renamed (.leave h hf) hst hfault

theorem isDone_eq (h : m.Renamed R m') : m'.isDone = m.isDone := by
  obtain ⟨hc, hf, -⟩ := h
  cases hc <;> cases hf <;> rfl

/-- Related machines run alike, to related ends. -/
theorem run_renamed (hR : R.Proper) (budget : Nat) (h : m.Renamed R m') :
    (run budget m).Renamed R (run budget m') := by
  induction budget generalizing m m' with
  | zero => exact h
  | succ budget ih =>
    simp only [run, isDone_eq h]
    split
    · exact h
    · exact ih (step_renamed hR h)

end Machine

end Lox
