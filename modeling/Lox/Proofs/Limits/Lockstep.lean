import Lox.Proofs.Pieces.Whole

/-!
# What the limits decide

Two limits are set from outside of a program: how many calls may go on at once, and how much its
output takes. A step looks at the first only when it makes a call, and at the second only when it
prints. In all other steps, machines that differ in nothing but these limits and their outputs go
side by side (`Machine.step_under`).
-/

namespace Lox

/-! ## Another output and another bound -/

namespace Interpreter

/-- The interpreter with another output and another bound on calls. -/
def under (st : Interpreter) (o : Output) (limit : Nat) : Interpreter :=
  { st with output := o, maxCallDepth := limit }

/-- What an operation gives, with another output and another bound in the state after it. -/
def resultUnder {α : Type} (r : α × Interpreter) (o : Output) (limit : Nat) : α × Interpreter :=
  (r.1, r.2.under o limit)

variable {st : Interpreter} {o : Output} {limit : Nat} {id : NodeId} {name word method : Token}
  {object : Object} {superclass : Option Class} {methods : List FunctionDecl}

theorem assign_under (v : Value) :
    (st.under o limit).assign id name v = resultUnder (st.assign id name v) o limit := by
  have htarget : (st.under o limit).target? id name.lexeme = st.target? id name.lexeme := rfl
  unfold assign
  rw [htarget]
  cases st.target? id name.lexeme <;> rfl

theorem bindFound_under (method : Option Closure) :
    (st.under o limit).bindFound object name method =
      resultUnder (st.bindFound object name method) o limit := by
  cases method <;> rfl

theorem property_under :
    (st.under o limit).property object name = resultUnder (st.property object name) o limit := by
  have hfield : (st.under o limit).store = st.store := rfl
  unfold property
  rw [hfield]
  cases st.store.field? object.id name.lexeme with
  | some v => rfl
  | none => exact bindFound_under _

theorem superMethod_under :
    (st.under o limit).superMethod id word method =
      resultUnder (st.superMethod id word method) o limit := by
  have hbinding : (st.under o limit).superBinding id word = st.superBinding id word := rfl
  unfold superMethod
  rw [hbinding]
  cases st.superBinding id word with
  | error f => rfl
  | ok b => exact bindFound_under _

theorem closeMethods_under (env : Env) (table : NameTable Closure) :
    (st.under o limit).closeMethods env methods table =
      resultUnder (st.closeMethods env methods table) o limit := by
  induction methods generalizing st table with
  | nil => rfl
  | cons decl rest ih => exact @ih st.addIdentity _

theorem enterSuperclass_under :
    (st.under o limit).enterSuperclass superclass =
      resultUnder (st.enterSuperclass superclass) o limit := by
  cases superclass <;> rfl

/-- Declaring a class does not look at the output or the limit. -/
theorem defineClass_under :
    (st.under o limit).defineClass name superclass methods =
      resultUnder (st.defineClass name superclass methods) o limit := by
  have hdefine : (st.under o limit).define name.lexeme .nil =
      (st.define name.lexeme .nil).under o limit := rfl
  simp only [defineClass, hdefine, enterSuperclass_under, resultUnder, closeMethods_under]
  generalize ((st.define name.lexeme .nil).enterSuperclass superclass).2.closeMethods _ methods ∅ =
    closed
  have hbinder :
      ((closed.2.under o limit).addIdentity.store.binder? (closed.2.under o limit).addIdentity.env
        name.lexeme) = closed.2.addIdentity.store.binder? closed.2.addIdentity.env name.lexeme :=
    rfl
  rw [hbinder]
  cases closed.2.addIdentity.store.binder? closed.2.addIdentity.env name.lexeme <;> rfl

end Interpreter

namespace Machine

open Interpreter (resultUnder)

variable {m : Machine}

/-- The machine with another output and another bound on calls. -/
def under (m : Machine) (o : Output) (limit : Nat) : Machine :=
  ⟨m.control, m.frames, m.state.under o limit⟩

/-- What the next step prints. -/
def prints? (m : Machine) : Option Value :=
  match m.control, m.frames with
  | .value v, .print :: _ => some v
  | _, _ => none

/-- What the next step calls, and with which arguments. -/
def calls? (m : Machine) : Option (Value × List Value) :=
  match m.control, m.frames with
  | .value v, .callee _ [] :: _ => some (v, [])
  | .value v, .argument callee _ done [] :: _ => some (callee, (v :: done).reverse)
  | _, _ => none

/-- The next step makes a call against which only the number of calls speaks. -/
def RefusesCall (m : Machine) : Prop :=
  ∃ callee arguments, m.calls? = some (callee, arguments) ∧ arity? callee = some arguments.length ∧
    m.state.maxCallDepth ≤ m.state.callDepth

variable {o : Output} {limit : Nat} {frames : List Frame} {frame : Frame} {st : Interpreter}
  {callee v : Value} {paren : Token} {arguments : List Value} {e : Expr} {s : Stmt} {f : Flow}
  {c : Class}

theorem calls?_under (m : Machine) : (m.under o limit).calls? = m.calls? := rfl

theorem give_under (r : Except Fault Value × Interpreter) :
    give (resultUnder r o limit) frames = (give r frames).under o limit := by
  obtain ⟨_ | _, _⟩ := r <;> rfl

theorem finish_under (r : Except Fault Unit × Interpreter) :
    finish (resultUnder r o limit) frames = (finish r frames).under o limit := by
  obtain ⟨_ | _, _⟩ := r <;> rfl

/-- Starting an expression does not look at the output or the limit. -/
theorem stepEval_under :
    stepEval e frames (st.under o limit) = (stepEval e frames st).under o limit := by
  cases e with
  | «variable» id name => exact give_under (st.lookUp id name, st)
  | thisRef id word => exact give_under (st.lookUp id word, st)
  | superRef id word method =>
    rw [stepEval, Interpreter.superMethod_under]
    exact give_under _
  | _ => rfl

/-- Starting a statement does not look at the output or the limit. -/
theorem stepExec_under :
    stepExec s frames (st.under o limit) = (stepExec s frames st).under o limit := by
  cases s with
  | var name initializer => cases initializer <;> rfl
  | returnWith word value => cases value <;> rfl
  | classDef name superclass methods =>
    cases superclass with
    | none =>
      rw [stepExec, Interpreter.defineClass_under]
      exact finish_under _
    | some e => rfl
  | _ => rfl

/-! ## Calls -/

theorem instantiate_under (st : Interpreter) :
    instantiate c arguments frames (st.under o limit) =
      (instantiate c arguments frames st).under o limit := by
  unfold instantiate
  cases c.findMethod? "init" <;> rfl

theorem callNative_under (n : Native) (paren : Token) (arguments : List Value) (st : Interpreter) :
    callNative n paren arguments (st.under o limit) =
      resultUnder (callNative n paren arguments st) o limit := by
  have hclock : (st.under o limit).clock (st.under o limit).readings = st.clock st.readings := rfl
  simp only [callNative, hclock]
  cases n.answer (st.clock st.readings) (arguments.map Value.sight) <;> rfl

/-- Once a call is allowed, the limit does not matter. -/
theorem startCall_under :
    startCall callee paren arguments frames (st.under o limit) =
      (startCall callee paren arguments frames st).under o limit := by
  cases callee with
  | native n =>
    show give (callNative n paren arguments
      (Interpreter.under { st with callDepth := st.callDepth + 1 } o limit)) _ = _
    rw [callNative_under]
    exact give_under _
  | cls c => exact instantiate_under { st with callDepth := st.callDepth + 1 }
  | _ => rfl

/-- The bound is looked at when what is called takes as many arguments as there are. -/
theorem call_under
    (h : arity? callee = some arguments.length →
      (limit ≤ st.callDepth ↔ st.maxCallDepth ≤ st.callDepth)) :
    call callee paren arguments frames (st.under o limit) =
      (call callee paren arguments frames st).under o limit := by
  unfold call
  cases harity : arity? callee with
  | none => rfl
  | some n =>
    by_cases hn : arguments.length ≠ n
    · simp only [if_pos hn]
      rfl
    · have heq : arguments.length = n := not_not.mp hn
      have hdepth : (st.under o limit).maxCallDepth ≤ (st.under o limit).callDepth ↔
        st.maxCallDepth ≤ st.callDepth := h (by rw [harity, heq])
      simp only [if_neg hn, hdepth, startCall_under]
      split <;> rfl

/-! ## Steps -/

/-- Calls in a step are refused alike under both bounds. -/
def AgreesOnCalls (m : Machine) (o : Output) (limit : Nat) : Prop :=
  (m.under o limit).RefusesCall ↔ m.RefusesCall

/-- A call goes alike under two limits that agree on it. -/
theorem call_under_of_agrees (hcalls : m.calls? = some (callee, arguments))
    (h : m.AgreesOnCalls o limit) :
    call callee paren arguments frames (m.state.under o limit) =
      (call callee paren arguments frames m.state).under o limit := by
  refine call_under fun harity => ?_
  have hunder : (m.under o limit).RefusesCall ↔ limit ≤ m.state.callDepth := by
    constructor
    · rintro ⟨_, _, _, _, hdepth⟩
      exact hdepth
    · exact fun hdepth => ⟨callee, arguments, by rw [calls?_under, hcalls], harity, hdepth⟩
  have hself : m.RefusesCall ↔ m.state.maxCallDepth ≤ m.state.callDepth := by
    constructor
    · rintro ⟨_, _, _, _, hdepth⟩
      exact hdepth
    · exact fun hdepth => ⟨callee, arguments, hcalls, harity, hdepth⟩
  rw [← hunder, ← hself]
  exact h

theorem stepValue_under (hprint : prints? ⟨.value v, frame :: frames, st⟩ = none)
    (hcalls : AgreesOnCalls ⟨.value v, frame :: frames, st⟩ o limit) :
    stepValue v frame frames (st.under o limit) = (stepValue v frame frames st).under o limit := by
  cases frame with
  | unary operator => exact give_under (v.unary operator, st)
  | binaryRight left operator => exact give_under (left.binary operator v, st)
  | logical operator right => simp only [stepValue]; split <;> rfl
  | assign id name =>
    rw [stepValue, Interpreter.assign_under]
    exact give_under _
  | callee paren arguments =>
    cases arguments with
    | nil => exact call_under_of_agrees rfl hcalls
    | cons e rest => rfl
  | argument callee paren done todo =>
    cases todo with
    | nil => exact call_under_of_agrees rfl hcalls
    | cons e rest => rfl
  | get name =>
    cases v with
    | object object =>
      simp only [stepValue]
      rw [Interpreter.property_under]
      exact give_under _
    | _ => rfl
  | setObject name value => cases v <;> rfl
  | print => cases hprint
  | branch thenBranch elseBranch =>
    simp only [stepValue]
    cases elseBranch <;> split <;> rfl
  | loopTest condition body => simp only [stepValue]; split <;> rfl
  | superclass name line methods =>
    cases v with
    | cls c =>
      simp only [stepValue]
      rw [Interpreter.defineClass_under]
      exact finish_under _
    | _ => rfl
  | _ => rfl

/-- The end of a statement does not look at the output or the limit. -/
theorem stepFlow_under :
    stepFlow f frame frames (st.under o limit) = (stepFlow f frame frames st).under o limit := by
  cases frame with
  | sequence rest => cases f <;> cases rest <;> rfl
  | loopBody condition body => cases f <;> rfl
  | initializer c =>
    exact give_under (Interpreter.found "this" c.decl.name.line (st.store.getAt? c.env 0 "this"),
      st)
  | _ => rfl

/-- **A step that does not print, and refuses a call under both bounds or under none, is the same
step.** -/
theorem step_under (hprint : m.prints? = none) (hcalls : m.AgreesOnCalls o limit) :
    (m.under o limit).step = m.step.under o limit := by
  obtain ⟨control, frames, st⟩ := m
  cases control with
  | eval e => exact stepEval_under
  | exec s => exact stepExec_under
  | value v =>
    cases frames with
    | nil => rfl
    | cons frame frames => exact stepValue_under hprint hcalls
  | flow f =>
    cases frames with
    | nil => rfl
    | cons frame frames => exact stepFlow_under
  | fault f =>
    cases frames with
    | nil => rfl
    | cons frame frames => cases frame <;> rfl

/-- Where a print is due, it is the step. -/
theorem step_of_prints? (h : m.prints? = some v) :
    m.step = finish (m.state.print v) m.frames.tail := by
  obtain ⟨control, frames, st⟩ := m
  simp only [prints?] at h
  split at h
  · cases h
    rfl
  · cases h

/-- Only a print writes, and no step changes the bound on calls. -/
theorem output_step (h : m.prints? = none) :
    m.step.state.output = m.state.output ∧ m.step.state.maxCallDepth = m.state.maxCallDepth := by
  have hstep : m.step = m.step.under m.state.output m.state.maxCallDepth := step_under h Iff.rfl
  rw [hstep]
  exact ⟨rfl, rfl⟩

end Machine

end Lox
