import Lox.Machine.Operations

/-!
# One step

`Machine.step` takes a machine to the next one. What it does hangs on the control, and for a result
on the frame that waits for it.
-/

namespace Lox

namespace Machine

/-- Hands on the value of an operation, or its fault. -/
def give (r : Except Fault Value × Interpreter) (frames : List Frame) : Machine :=
  match r with
  | (.ok v, st) => ⟨.value v, frames, st⟩
  | (.error f, st) => ⟨.fault f, frames, st⟩

/-- Ends a statement after an operation, or hands on its fault. -/
def finish (r : Except Fault Unit × Interpreter) (frames : List Frame) : Machine :=
  match r with
  | (.ok _, st) => ⟨.flow .normal, frames, st⟩
  | (.error f, st) => ⟨.fault f, frames, st⟩

/-! ## Starting -/

/-- The line at which a superclass that is no class is reported. -/
def superclassLine (name : Token) : Expr → Nat
  | .variable _ superName => superName.line
  | _ => name.line

/-- Starts an expression. -/
def stepEval (e : Expr) (frames : List Frame) (st : Interpreter) : Machine :=
  match e with
  | .literal l => ⟨.value (.ofLiteral l), frames, st⟩
  | .grouping inner => ⟨.eval inner, frames, st⟩
  | .unary operator right => ⟨.eval right, .unary operator :: frames, st⟩
  | .binary left operator right => ⟨.eval left, .binaryLeft operator right :: frames, st⟩
  | .logical left operator right => ⟨.eval left, .logical operator right :: frames, st⟩
  | .variable id name => give (st.lookUp id name, st) frames
  | .assign id name value => ⟨.eval value, .assign id name :: frames, st⟩
  | .call callee paren arguments => ⟨.eval callee, .callee paren arguments :: frames, st⟩
  | .get object name => ⟨.eval object, .get name :: frames, st⟩
  | .set object name value => ⟨.eval object, .setObject name value :: frames, st⟩
  | .thisRef id word => give (st.lookUp id word, st) frames
  | .superRef id word method => give (st.superMethod id word method) frames

/-- Starts a statement. -/
def stepExec (s : Stmt) (frames : List Frame) (st : Interpreter) : Machine :=
  match s with
  | .expression value => ⟨.eval value, .discard :: frames, st⟩
  | .print value => ⟨.eval value, .print :: frames, st⟩
  | .var name none => ⟨.flow .normal, frames, st.define name.lexeme .nil⟩
  | .var name (some value) => ⟨.eval value, .declare name :: frames, st⟩
  | .block body => ⟨.flow .normal, .sequence body :: .leave st.env :: frames, st.enter st.env ∅⟩
  | .ifThen condition thenBranch => ⟨.eval condition, .branch thenBranch none :: frames, st⟩
  | .ifThenElse condition thenBranch elseBranch =>
    ⟨.eval condition, .branch thenBranch (some elseBranch) :: frames, st⟩
  | .whileLoop condition body => ⟨.eval condition, .loopTest condition body :: frames, st⟩
  | .function decl =>
    let (c, st) := st.close st.env false decl
    ⟨.flow .normal, frames, st.define decl.name.lexeme (.closure c)⟩
  | .returnWith _ none => ⟨.flow (.returned .nil), frames, st⟩
  | .returnWith _ (some value) => ⟨.eval value, .returning :: frames, st⟩
  | .classDef name none methods => finish (st.defineClass name none methods) frames
  | .classDef name (some superclass) methods =>
    ⟨.eval superclass, .superclass name (superclassLine name superclass) methods :: frames, st⟩

/-! ## Calls -/

/-- The variables of a call: each parameter with the argument in its place. -/
def callVariables (params : List Token) (arguments : List Value) : NameTable Value :=
  (params.zip arguments).foldl (fun t (p, v) => t.insert p.lexeme v) ∅

/-- Starts the body of a function. -/
def enterClosure (c : Closure) (arguments : List Value) (frames : List Frame) (st : Interpreter) :
    Machine :=
  let frames := if c.isInitializer then .initializer c :: frames else frames
  ⟨.flow .normal, .sequence c.decl.body :: .leave st.env :: frames,
    st.enter c.env (callVariables c.decl.params arguments)⟩

/-- Makes an object, and starts its initializer if its class has one. -/
def instantiate (c : Class) (arguments : List Value) (frames : List Frame) (st : Interpreter) :
    Machine :=
  let o : Object := ⟨st.store.nextObject, c⟩
  let st := { st with store := st.store.addObject }
  match c.findMethod? "init" with
  | some method =>
    let (bound, st) := st.bind method o
    enterClosure bound arguments (.construct o :: frames) st
  | none => ⟨.value (.object o), frames, st⟩

/-- Calls a native function. Each call is at a time of its own. -/
def callNative (n : Native) (paren : Token) (arguments : List Value) (st : Interpreter) :
    Except Fault Value × Interpreter :=
  let answer := n.answer (st.clock st.readings) (arguments.map Value.sight)
  let st := { st with readings := st.readings + 1 }
  match answer with
  | .ok l => (.ok (.ofLiteral l), st)
  | .error message => (.error (.runtime paren.line (.native message)), st)

/-- The number of arguments that a value takes when it is called. -/
def arity? : Value → Option Nat
  | .native n => some n.arity
  | .closure c => some c.arity
  | .cls c => some c.arity
  | _ => none

/-- Starts a call that nothing speaks against. -/
def startCall (callee : Value) (paren : Token) (arguments : List Value) (frames : List Frame)
    (st : Interpreter) : Machine :=
  let st := { st with callDepth := st.callDepth + 1 }
  match callee with
  | .native n => give (callNative n paren arguments st) (.endCall :: frames)
  | .closure c => enterClosure c arguments (.endCall :: frames) st
  | .cls c => instantiate c arguments (.endCall :: frames) st
  | _ => ⟨.fault (.runtime paren.line .notCallable), .endCall :: frames, st⟩

/-- Calls a value. What is called, the number of arguments and the number of calls are checked in
this order. -/
def call (callee : Value) (paren : Token) (arguments : List Value) (frames : List Frame)
    (st : Interpreter) : Machine :=
  match arity? callee with
  | none => ⟨.fault (.runtime paren.line .notCallable), frames, st⟩
  | some n =>
    if arguments.length ≠ n then
      ⟨.fault (.runtime paren.line (.wrongArity n arguments.length)), frames, st⟩
    else if st.maxCallDepth ≤ st.callDepth then
      ⟨.fault (.runtime paren.line .stackOverflow), frames, st⟩
    else startCall callee paren arguments frames st

/-- Evaluates the next argument of a call, or calls. -/
def stepArguments (callee : Value) (paren : Token) (done : List Value) (todo : List Expr)
    (frames : List Frame) (st : Interpreter) : Machine :=
  match todo with
  | e :: rest => ⟨.eval e, .argument callee paren done rest :: frames, st⟩
  | [] => call callee paren done.reverse frames st

/-! ## Going on with a result -/

/-- Goes on with a value. A frame that waits for a statement takes it as the end of one. -/
def stepValue (v : Value) (frame : Frame) (frames : List Frame) (st : Interpreter) : Machine :=
  match frame with
  | .unary operator => give (v.unary operator, st) frames
  | .binaryLeft operator right => ⟨.eval right, .binaryRight v operator :: frames, st⟩
  | .binaryRight left operator => give (left.binary operator v, st) frames
  | .logical operator right =>
    if v.decides operator then ⟨.value v, frames, st⟩ else ⟨.eval right, frames, st⟩
  | .assign id name => give (st.assign id name v) frames
  | .callee paren arguments => stepArguments v paren [] arguments frames st
  | .argument callee paren done todo => stepArguments callee paren (v :: done) todo frames st
  | .get name =>
    match v with
    | .object o => give (st.property o name) frames
    | _ => ⟨.fault (.runtime name.line .propertyOfNonObject), frames, st⟩
  | .setObject name value =>
    match v with
    | .object o => ⟨.eval value, .setValue o name :: frames, st⟩
    | _ => ⟨.fault (.runtime name.line .fieldOfNonObject), frames, st⟩
  | .setValue o name => ⟨.value v, frames, st.setField o name.lexeme v⟩
  | .discard => ⟨.flow .normal, frames, st⟩
  | .print => finish (st.print v) frames
  | .declare name => ⟨.flow .normal, frames, st.define name.lexeme v⟩
  | .branch thenBranch elseBranch =>
    if v.isTruthy then ⟨.exec thenBranch, frames, st⟩
    else match elseBranch with
      | some s => ⟨.exec s, frames, st⟩
      | none => ⟨.flow .normal, frames, st⟩
  | .loopTest condition body =>
    if v.isTruthy then ⟨.exec body, .loopBody condition body :: frames, st⟩
    else ⟨.flow .normal, frames, st⟩
  | .returning => ⟨.flow (.returned v), frames, st⟩
  | .superclass name line methods =>
    match v with
    | .cls c => finish (st.defineClass name (some c) methods) frames
    | _ => ⟨.fault (.runtime line .superclassNotClass), frames, st⟩
  | .endCall => ⟨.value v, frames, { st with callDepth := st.callDepth - 1 }⟩
  | .construct o => ⟨.value (.object o), frames, st⟩
  | frame => ⟨.flow .normal, frame :: frames, st⟩

/-- Goes on after a statement. A frame that waits for a value takes the result of the function whose
body the statement is. -/
def stepFlow (f : Flow) (frame : Frame) (frames : List Frame) (st : Interpreter) : Machine :=
  match frame with
  | .sequence rest =>
    match f, rest with
    | .normal, s :: rest => ⟨.exec s, .sequence rest :: frames, st⟩
    | f, _ => ⟨.flow f, frames, st⟩
  | .loopBody condition body =>
    match f with
    | .normal => ⟨.eval condition, .loopTest condition body :: frames, st⟩
    | .returned v => ⟨.flow (.returned v), frames, st⟩
  | .leave env => ⟨.flow f, frames, st.leave env⟩
  | .initializer c =>
    give (Interpreter.found "this" c.decl.name.line (st.store.getAt? c.env 0 "this"), st) frames
  | frame => ⟨.value f.result, frame :: frames, st⟩

/-- Takes a frame away after a fault. -/
def stepFault (f : Fault) (frame : Frame) (frames : List Frame) (st : Interpreter) : Machine :=
  match frame with
  | .leave env => ⟨.fault f, frames, st.leave env⟩
  | .endCall => ⟨.fault f, frames, { st with callDepth := st.callDepth - 1 }⟩
  | _ => ⟨.fault f, frames, st⟩

/-- Takes one step. A machine with a result and no frame left stays as it is. -/
def step (m : Machine) : Machine :=
  match m with
  | ⟨.eval e, frames, st⟩ => stepEval e frames st
  | ⟨.exec s, frames, st⟩ => stepExec s frames st
  | ⟨.value v, frame :: frames, st⟩ => stepValue v frame frames st
  | ⟨.flow f, frame :: frames, st⟩ => stepFlow f frame frames st
  | ⟨.fault f, frame :: frames, st⟩ => stepFault f frame frames st
  | m => m

/-- Whether a machine has a result and no frame left. -/
def isDone : Machine → Bool
  | ⟨.value _, [], _⟩ => true
  | ⟨.flow _, [], _⟩ => true
  | ⟨.fault _, [], _⟩ => true
  | _ => false

/-- Takes steps until there is a result, at most `budget` of them. -/
def run : Nat → Machine → Machine
  | 0, m => m
  | budget + 1, m => if m.isDone then m else run budget m.step

end Machine

end Lox
