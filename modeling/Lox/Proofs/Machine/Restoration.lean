import Lox.Proofs.Machine.Values
import Lox.Proofs.Session.Stages

/-!
# What a run gives back

While a program runs, the current environment and the number of calls go up and down. Whatever a
statement or an expression does, and however it ends, both are afterwards what they were before.

The frames know what is to be given back: a `leave` frame the environment, an `endCall` frame one
call. `unwind` takes all frames away at once, as a fault does one by one. So the state that a
machine would be left with if it failed now is `home`, and no step moves that state to another place
(`step_returns`). A machine with a result and no frames is at home.
-/

namespace Lox

variable {st' : Interpreter} {r : Ending × Interpreter} {program : List Stmt}

namespace Interpreter

/-- Two states that agree in all that says where the program stands: the environment, the global
scope, the distances, the calls going on and how many there may be. -/
structure SamePlace (st st' : Interpreter) : Prop where
  env : st'.env = st.env
  globals : st'.globals = st.globals
  distances : st'.distances = st.distances
  callDepth : st'.callDepth = st.callDepth
  maxCallDepth : st'.maxCallDepth = st.maxCallDepth

namespace SamePlace

variable {st st₁ st₂ : Interpreter}

theorem refl : SamePlace st st := ⟨rfl, rfl, rfl, rfl, rfl⟩

theorem trans (h : SamePlace st st₁) (h' : SamePlace st₁ st₂) : SamePlace st st₂ :=
  ⟨h'.env.trans h.env, h'.globals.trans h.globals, h'.distances.trans h.distances,
    h'.callDepth.trans h.callDepth, h'.maxCallDepth.trans h.maxCallDepth⟩

end SamePlace

/-! ## Operations stay in place -/

theorem define_samePlace (st : Interpreter) (name : String) (v : Value) :
    SamePlace st (st.define name v) :=
  ⟨rfl, rfl, rfl, rfl, rfl⟩

variable {st : Interpreter} {id : NodeId} {name word method : Token} {v : Value} {o : Object}

/-- An assignment stays in its place. -/
theorem assign_samePlace : SamePlace st (st.assign id name v).2 := by
  unfold assign
  split
  · exact ⟨rfl, rfl, rfl, rfl, rfl⟩
  · exact .refl

theorem bindFound_samePlace {method : Option Closure} :
    SamePlace st (st.bindFound o name method).2 := by
  cases method with
  | some c => exact ⟨rfl, rfl, rfl, rfl, rfl⟩
  | none => exact .refl

/-- Reading a property stays in its place. -/
theorem property_samePlace : SamePlace st (st.property o name).2 := by
  unfold property
  split
  · exact .refl
  · exact bindFound_samePlace

theorem superMethod_samePlace : SamePlace st (st.superMethod id word method).2 := by
  unfold superMethod
  split
  · exact bindFound_samePlace
  · exact .refl

theorem closeMethods_samePlace (st : Interpreter) (env : Env) (methods : List FunctionDecl)
    (table : NameTable Closure) : SamePlace st (st.closeMethods env methods table).2 := by
  obtain ⟨n, heq⟩ := st.exists_closeMethods_eq env methods table
  rw [heq]
  exact ⟨rfl, rfl, rfl, rfl, rfl⟩

theorem enterSuperclass_samePlace (st : Interpreter) (superclass : Option Class) :
    SamePlace st (st.enterSuperclass superclass).2 := by
  cases superclass with
  | some c => exact ⟨rfl, rfl, rfl, rfl, rfl⟩
  | none => exact .refl

/-- Declaring a class comes back to its place. -/
theorem defineClass_samePlace {superclass : Option Class} {methods : List FunctionDecl} :
    SamePlace st (st.defineClass name superclass methods).2 := by
  have h := (define_samePlace st name.lexeme .nil).trans (enterSuperclass_samePlace _ superclass)
  have h := h.trans (closeMethods_samePlace _
    ((st.define name.lexeme .nil).enterSuperclass superclass).1 methods ∅)
  simp only [defineClass]
  split
  · exact h.trans ⟨rfl, rfl, rfl, rfl, rfl⟩
  · exact h.trans ⟨rfl, rfl, rfl, rfl, rfl⟩

theorem print_samePlace : SamePlace st (st.print v).2 :=
  ⟨rfl, rfl, rfl, rfl, rfl⟩

end Interpreter

namespace Machine

open Interpreter (SamePlace)

/-- A native function stays in its place. -/
theorem callNative_samePlace (n : Native) (paren : Token) (arguments : List Value)
    (st : Interpreter) : SamePlace st (callNative n paren arguments st).2 := by
  obtain ⟨k, heq⟩ := exists_callNative_eq n paren arguments st
  rw [heq]
  exact ⟨rfl, rfl, rfl, rfl, rfl⟩

end Machine

/-! ## Taking frames away -/

/-- What taking a frame away gives back. -/
def Frame.pop (frame : Frame) (st : Interpreter) : Interpreter :=
  match frame with
  | .leave env => st.leave env
  | .endCall => { st with callDepth := st.callDepth - 1 }
  | _ => st

/-- The state after all frames have been taken away. -/
def Frame.unwind : List Frame → Interpreter → Interpreter
  | [], st => st
  | frame :: frames, st => unwind frames (frame.pop st)

namespace Machine

open Interpreter (SamePlace)

variable {m : Machine}

/-- The state in which a machine would end if it failed now. -/
def home (m : Machine) : Interpreter :=
  Frame.unwind m.frames m.state

/-- A fault does to a frame what `unwind` does. -/
theorem stepFault_eq (f : Fault) (frame : Frame) (frames : List Frame) (st : Interpreter) :
    stepFault f frame frames st = ⟨.fault f, frames, frame.pop st⟩ := by
  cases frame <;> rfl

theorem pop_samePlace {st : Interpreter} (h : SamePlace st st') (frame : Frame) :
    SamePlace (frame.pop st) (frame.pop st') := by
  cases frame with
  | leave env => exact ⟨rfl, h.globals, h.distances, h.callDepth, h.maxCallDepth⟩
  | endCall =>
    refine ⟨h.env, h.globals, h.distances, ?_, h.maxCallDepth⟩
    show st'.callDepth - 1 = st.callDepth - 1
    rw [h.callDepth]
  | _ => exact h

/-- Taking frames away moves the place where the program stands, and changes nothing else. -/
theorem unwind_eq (frames : List Frame) (st : Interpreter) : Frame.unwind frames st =
    { st with env := (Frame.unwind frames st).env, callDepth := (Frame.unwind frames
      st).callDepth } := by
  induction frames generalizing st with
  | nil => rfl
  | cons frame frames ih =>
    rw [Frame.unwind, ih]
    cases frame <;> rfl

/-- What the frames go back to depends on the place only. -/
theorem unwind_samePlace (frames : List Frame) {st : Interpreter} (h : SamePlace st st') :
    SamePlace (Frame.unwind frames st) (Frame.unwind frames st') := by
  induction frames generalizing st st' with
  | nil => exact h
  | cons frame frames ih => exact ih (pop_samePlace h frame)

/-- A machine that goes on from some frames and a state: it will come back to the same place, and
does not exceed the number of calls if they do not. -/
structure Returns (frames : List Frame) (st : Interpreter) (m : Machine) : Prop where
  home : SamePlace (Frame.unwind frames st) m.home
  depth : st.callDepth ≤ st.maxCallDepth → m.state.callDepth ≤ m.state.maxCallDepth

namespace Returns

variable {frames fs : List Frame} {st st' : Interpreter} {m : Machine} {c : Control}

/-- A step to a state at the same place, with frames that give back the same. -/
theorem same (h : SamePlace st st') (hf : Frame.unwind fs st' = Frame.unwind frames st') :
    Returns frames st ⟨c, fs, st'⟩ := by
  refine ⟨?_, fun hd => ?_⟩
  · show SamePlace _ (Frame.unwind fs st')
    rw [hf]
    exact unwind_samePlace frames h
  · show st'.callDepth ≤ st'.maxCallDepth
    rw [h.callDepth, h.maxCallDepth]
    exact hd

theorem stay (hf : Frame.unwind fs st = Frame.unwind frames st) : Returns frames st ⟨c, fs, st⟩ :=
  same .refl hf

theorem give {r : Except Fault Value × Interpreter} (h : SamePlace st r.2) :
    Returns frames st (give r frames) := by
  unfold Machine.give
  split <;> exact same h rfl

theorem finish {r : Except Fault Unit × Interpreter} (h : SamePlace st r.2) :
    Returns frames st (finish r frames) := by
  unfold Machine.finish
  split <;> exact same h rfl

theorem trans (h : Returns frames st ⟨c, fs, st'⟩) (h' : Returns fs st' m) : Returns frames st m :=
  ⟨h.home.trans h'.home, fun hd => h'.depth (h.depth hd)⟩

/-- Going on after a frame has been taken away. -/
theorem afterPop {frame : Frame} (h : Returns frames (frame.pop st) m) :
    Returns (frame :: frames) st m := by
  refine ⟨h.home, fun hd => h.depth ?_⟩
  cases frame with
  | endCall => exact Nat.le_trans (Nat.sub_le _ _) hd
  | _ => exact hd

end Returns

/-! ## Calls -/

variable {frames : List Frame} {frame : Frame} {st : Interpreter} {callee v : Value} {paren : Token}
  {arguments done : List Value} {todo : List Expr} {e : Expr} {s : Stmt} {f : Flow}

/-- A call comes back to where it was made. -/
theorem enterClosure_returns (c : Closure) :
    Returns frames st (enterClosure c arguments frames st) := by
  have h : SamePlace st ((st.enter c.env (callVariables c.decl.params arguments)).leave st.env) :=
    ⟨rfl, rfl, rfl, rfl, rfl⟩
  refine ⟨?_, id⟩
  by_cases hi : c.isInitializer = true
  · simp only [enterClosure, hi, if_true, home, Frame.unwind]
    exact unwind_samePlace frames h
  · simp only [enterClosure, hi, home, Frame.unwind]
    exact unwind_samePlace frames h

/-- Making an object comes back to where it was made. -/
theorem instantiate_returns (c : Class) :
    Returns frames st (instantiate c arguments frames st) := by
  simp only [instantiate]
  split
  · next method _ =>
    have h : SamePlace st
        (({ st with store := st.store.addObject } : Interpreter).bind method
          ⟨st.store.nextObject, c⟩).2 :=
      ⟨rfl, rfl, rfl, rfl, rfl⟩
    have hf : Returns frames st ⟨.value .nil, .construct ⟨st.store.nextObject, c⟩ :: frames, _⟩ :=
      .same h rfl
    exact hf.trans (enterClosure_returns _)
  · exact .same ⟨rfl, rfl, rfl, rfl, rfl⟩ rfl

/-- A call that starts counts itself, and the frame that ends it takes that back. -/
theorem startCall_returns (hd : st.callDepth < st.maxCallDepth) :
    Returns frames st (startCall callee paren arguments frames st) := by
  have h : Returns frames st
      ⟨.value callee, .endCall :: frames, { st with callDepth := st.callDepth + 1 }⟩ :=
    ⟨unwind_samePlace frames ⟨rfl, rfl, rfl, rfl, rfl⟩, fun _ => hd⟩
  cases callee with
  | native n => exact h.trans (.give (callNative_samePlace n paren arguments _))
  | closure c => exact h.trans (enterClosure_returns c)
  | cls c => exact h.trans (instantiate_returns c)
  | _ => exact h.trans (.stay rfl)

theorem call_returns : Returns frames st (call callee paren arguments frames st) := by
  unfold call
  split
  · exact .stay rfl
  · split
    · exact .stay rfl
    · split
      · exact .stay rfl
      · next hd => exact startCall_returns (Nat.lt_of_not_le hd)

theorem stepArguments_returns :
    Returns frames st (stepArguments callee paren done todo frames st) := by
  cases todo with
  | cons e rest => exact .stay rfl
  | nil => exact call_returns

/-! ## One step -/

/-- Starting an expression, the machine will come back. -/
theorem stepEval_returns : Returns frames st (stepEval e frames st) := by
  cases e with
  | «variable» id name => exact .give .refl
  | thisRef id word => exact .give .refl
  | superRef id word method => exact .give Interpreter.superMethod_samePlace
  | _ => exact .stay rfl

/-- Starting a statement, the machine will come back. -/
theorem stepExec_returns : Returns frames st (stepExec s frames st) := by
  cases s with
  | var name initializer =>
    cases initializer with
    | none => exact .same (Interpreter.define_samePlace st name.lexeme .nil) rfl
    | some value => exact .stay rfl
  | block body => exact ⟨unwind_samePlace frames ⟨rfl, rfl, rfl, rfl, rfl⟩, id⟩
  | function decl => exact .same ⟨rfl, rfl, rfl, rfl, rfl⟩ rfl
  | returnWith word value => cases value <;> exact .stay rfl
  | classDef name superclass methods =>
    cases superclass with
    | none => exact .finish Interpreter.defineClass_samePlace
    | some e => exact .stay rfl
  | _ => exact .stay rfl

theorem stepValue_returns : Returns (frame :: frames) st (stepValue v frame frames st) := by
  cases frame with
  | unary operator => exact .afterPop (.give .refl)
  | binaryRight left operator => exact .afterPop (.give .refl)
  | logical operator right => simp only [stepValue]; split <;> exact .stay rfl
  | assign id name => exact .afterPop (.give Interpreter.assign_samePlace)
  | callee paren arguments => exact .afterPop stepArguments_returns
  | argument callee paren done todo => exact .afterPop stepArguments_returns
  | get name =>
    cases v with
    | object o => exact .afterPop (.give Interpreter.property_samePlace)
    | _ => exact .stay rfl
  | setObject name value => cases v <;> exact .stay rfl
  | setValue o name => exact .same ⟨rfl, rfl, rfl, rfl, rfl⟩ rfl
  | print => exact .afterPop (.finish Interpreter.print_samePlace)
  | declare name => exact .same (Interpreter.define_samePlace st name.lexeme v) rfl
  | branch thenBranch elseBranch =>
    simp only [stepValue]
    split
    · exact .stay rfl
    · cases elseBranch <;> exact .stay rfl
  | loopTest condition body => simp only [stepValue]; split <;> exact .stay rfl
  | superclass name line methods =>
    cases v with
    | cls c => exact .afterPop (.finish Interpreter.defineClass_samePlace)
    | _ => exact .stay rfl
  | endCall => exact .afterPop (.stay rfl)
  | _ => exact .stay rfl

theorem stepFlow_returns : Returns (frame :: frames) st (stepFlow f frame frames st) := by
  cases frame with
  | sequence rest =>
    cases f with
    | normal => cases rest <;> exact .stay rfl
    | returned v => exact .stay rfl
  | loopBody condition body => cases f <;> exact .stay rfl
  | leave env => exact .afterPop (.stay rfl)
  | initializer c => exact .afterPop (.give .refl)
  | _ => exact .stay rfl

/-- **No step moves the place where the program would stand if it failed now.** -/
theorem step_returns (m : Machine) : Returns m.frames m.state m.step := by
  obtain ⟨control, frames, st⟩ := m
  cases control with
  | eval e => exact stepEval_returns
  | exec s => exact stepExec_returns
  | value v =>
    cases frames with
    | nil => exact .stay rfl
    | cons frame frames => exact stepValue_returns
  | flow f =>
    cases frames with
    | nil => exact .stay rfl
    | cons frame frames => exact stepFlow_returns
  | fault f =>
    -- A fault takes one frame away, which is how `unwind` goes.
    cases frames with
    | nil => exact .stay rfl
    | cons frame frames => rw [step, stepFault_eq]; exact .afterPop (.stay rfl)

/-- Whatever a machine does, it will come back to the same place. -/
theorem run_returns (budget : Nat) (m : Machine) : Returns m.frames m.state (run budget m) := by
  induction budget generalizing m with
  | zero => exact .stay rfl
  | succ budget ih =>
    rw [run]
    split
    · exact .stay rfl
    · exact (step_returns m).trans (ih m.step)

theorem unwind_maxCallDepth (frames : List Frame) (st : Interpreter) :
    (Frame.unwind frames st).maxCallDepth = st.maxCallDepth := by
  induction frames generalizing st with
  | nil => rfl
  | cons frame frames ih =>
    rw [Frame.unwind, ih]
    cases frame <;> rfl

/-- The number of calls stays within its bound at every moment of a run. -/
theorem callDepth_run_le (budget : Nat) (h : m.state.callDepth ≤ m.state.maxCallDepth) :
    (run budget m).state.callDepth ≤ m.state.maxCallDepth := by
  have hr := run_returns budget m
  -- The bound is part of the place, and taking frames away does not change it.
  have hmax := hr.home.maxCallDepth
  rw [home, unwind_maxCallDepth, unwind_maxCallDepth] at hmax
  rw [← hmax]
  exact hr.depth h

/-! ## Endings -/

/-- A machine with an ending has no frames left. -/
theorem state_of_ending? (h : m.ending? = some r) : m.frames = [] ∧ m.state = r.2 := by
  obtain ⟨control, frames, st⟩ := m
  cases frames with
  | nil =>
    cases control <;> simp only [ending?, reduceCtorEq, Option.some.injEq] at h <;> subst h <;>
      exact ⟨rfl, rfl⟩
  | cons frame frames => cases control <;> simp [ending?] at h

theorem home_of_ending? (h : m.ending? = some r) : m.home = r.2 := by
  obtain ⟨hframes, hstate⟩ := state_of_ending? h
  rw [home, hframes, hstate, Frame.unwind]

/-- A machine with a result has no frames left. -/
theorem home_of_result? {r : Except Fault Value × Interpreter} (h : m.result? = some r) :
    m.home = r.2 := by
  obtain ⟨control, frames, st⟩ := m
  cases frames with
  | nil =>
    cases control <;> simp only [result?, reduceCtorEq, Option.some.injEq] at h <;> subst h <;> rfl
  | cons frame frames => cases control <;> simp [result?] at h

end Machine

namespace Interpreter

variable {budget : Nat} {st : Interpreter}

theorem execute_samePlace {s : Stmt} (h : st.execute budget s = some r) : SamePlace st r.2 := by
  have hr := (Machine.run_returns budget ⟨.exec s, [], st⟩).home
  rw [Machine.home_of_ending? h] at hr
  exact hr

theorem evaluate_samePlace {e : Expr} {r : Except Fault Value × Interpreter}
    (h : st.evaluate budget e = some r) : SamePlace st r.2 := by
  have hr := (Machine.run_returns budget ⟨.eval e, [], st⟩).home
  rw [Machine.home_of_result? h] at hr
  exact hr

theorem executeBlock_samePlace {body : List Stmt} {env : Env}
    (h : st.executeBlock budget body env = some r) : SamePlace st r.2 := by
  have hr := (Machine.run_returns budget
    ⟨.flow .normal, [.sequence body, .leave st.env], st.leave env⟩).home
  rw [Machine.home_of_ending? h] at hr
  exact hr

/-- A program ends where it started, whether it fails or not. -/
theorem executeAll_samePlace {r : Except Fault Unit × Interpreter}
    (h : st.executeAll budget program = some r) : SamePlace st r.2 := by
  induction program generalizing st with
  | nil => cases h; exact .refl
  | cons s rest ih =>
    rw [executeAll] at h
    split at h
    · next hs => exact (execute_samePlace hs).trans (ih h)
    · next hs => cases h; exact execute_samePlace hs
    · cases h

theorem interpret_samePlace {r : Except Fault Unit × Interpreter}
    (h : st.interpret budget program = some r) : SamePlace st r.2 := by
  rw [interpret] at h
  split at h
  · next hs =>
    have hp := executeAll_samePlace hs
    cases h
    exact hp
  · exact executeAll_samePlace h

/-- Nothing is going on: the current environment is the global one, and no call is counted. -/
structure AtRest (st : Interpreter) : Prop where
  env : st.env = [st.globals]
  callDepth : st.callDepth = 0

theorem AtRest.of_samePlace (h : AtRest st) (hs : SamePlace st st') : AtRest st' :=
  ⟨by rw [hs.env, hs.globals, h.env], by rw [hs.callDepth, h.callDepth]⟩

theorem new_atRest (natives : List Native) (output : Output) (maxCallDepth : Nat)
    (clock : Nat → Float) :
    AtRest (new natives output maxCallDepth clock) := ⟨rfl, rfl⟩

end Interpreter

/-! ## Sessions -/

namespace Session

open Interpreter (AtRest)

/-- Between two sources a session is at rest. -/
theorem Reached.atRest {start s : Session} (h : Reached start s) (hs : AtRest start.interpreter) :
    AtRest s.interpreter :=
  h.keeps (fun _ _ h => ⟨h.env, h.callDepth⟩)
    (fun h hi => h.of_samePlace (Interpreter.interpret_samePlace hi))
    (fun h hi => h.of_samePlace (Interpreter.evaluate_samePlace hi)) hs

end Session

open Interpreter (SamePlace AtRest) in
/-- **However a statement, an expression or a block ends, it gives back what it found.** The
environment, the number of calls, the global scope, the distances and the bound on calls are
afterwards what they were before; on the way the number of calls stays within the bound; and so a
session is at rest between its steps. -/
theorem execution_restores_place :
    (∀ (budget : Nat) (st : Interpreter) (s : Stmt) (r : Ending × Interpreter),
      st.execute budget s = some r → SamePlace st r.2) ∧
    (∀ (budget : Nat) (st : Interpreter) (e : Expr) (r : Except Fault Value × Interpreter),
      st.evaluate budget e = some r → SamePlace st r.2) ∧
    (∀ (budget : Nat) (st : Interpreter) (body : List Stmt) (env : Env) (r : Ending × Interpreter),
      st.executeBlock budget body env = some r → SamePlace st r.2) ∧
    (∀ (st : Interpreter) (steps : Nat), st.callDepth ≤ st.maxCallDepth →
      (∀ s : Stmt, (Machine.run steps ⟨.exec s, [], st⟩).state.callDepth ≤ st.maxCallDepth) ∧
      (∀ e : Expr, (Machine.run steps ⟨.eval e, [], st⟩).state.callDepth ≤ st.maxCallDepth) ∧
      (∀ (body : List Stmt) (env : Env),
        (Machine.run steps
            ⟨.flow .normal, [.sequence body, .leave st.env], st.leave env⟩).state.callDepth
          ≤ st.maxCallDepth)) ∧
    (∀ (natives : List Native) (output : Output) (maxCallDepth : Nat) (clock : Nat → Float)
      (s : Session),
      Session.Reached (Session.new (Interpreter.new natives output maxCallDepth clock)) s →
      AtRest s.interpreter) := by
  refine ⟨fun _ _ _ _ h => Interpreter.execute_samePlace h,
    fun _ _ _ _ h => Interpreter.evaluate_samePlace h, fun _ _ _ _ _ h =>
    Interpreter.executeBlock_samePlace h, fun st steps hd => ⟨fun s => ?_, fun e => ?_,
      fun body env => ?_⟩, fun natives output maxCallDepth clock s h => ?_⟩
  · exact Machine.callDepth_run_le steps hd
  · exact Machine.callDepth_run_le steps hd
  · exact Machine.callDepth_run_le (m := ⟨.flow .normal, _, st.leave env⟩) steps hd
  · exact h.atRest (Interpreter.new_atRest natives output maxCallDepth clock)

/-- The statement `{ while (true) { return -nil; } }`, which fails two blocks deep. -/
def failingLoop : Stmt :=
  .block [.whileLoop (.literal .true) (.block [.returnWith ⟨.keyword .returnWord, "return", 1⟩
    (some (.unary ⟨.symbol .minus, "-", 1⟩ (.literal .nil)))])]

theorem failingLoop_restores_place :
    (∃ st', (Interpreter.new [] .unlimited 1 fun _ => 0).execute 20 failingLoop
        = some (.error (.runtime 1 .operandNotNumber), st') ∧
      Interpreter.SamePlace (Interpreter.new [] .unlimited 1 fun _ => 0) st') ∧
    (∃ st', (Interpreter.new [] .unlimited 1 fun _ => 0).executeBlock 20 [failingLoop] [0, 0]
        = some (.error (.runtime 1 .operandNotNumber), st') ∧
      Interpreter.SamePlace (Interpreter.new [] .unlimited 1 fun _ => 0) st') ∧
    (Machine.run 9
      ⟨.exec failingLoop, [], Interpreter.new [] .unlimited 1 fun _ => 0⟩).state.callDepth ≤ 1 := by
  obtain ⟨hexec, -, hblock, hdepth, -⟩ := execution_restores_place
  refine ⟨⟨_, rfl, ?_⟩, ⟨_, rfl, ?_⟩, ?_⟩
  · exact hexec 20 _ failingLoop (.error (.runtime 1 .operandNotNumber), _) rfl
  · exact hblock 20 _ [failingLoop] [0, 0] (.error (.runtime 1 .operandNotNumber), _) rfl
  · exact (hdepth _ 9 (Nat.zero_le 1)).1 failingLoop

end Lox
