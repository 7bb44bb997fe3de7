import Lox.Proofs.Machine.Restoration
import Lox.Proofs.Renumbering.Store
import Lox.Proofs.Renumbering.Walk

/-!
# Renumbering a machine

A machine that works on renumbered trees, with the distances of renumbered ids, takes the same
steps: its next state is the renumbered next state (`Machine.step_renumber`), and so is what a run
ends in. Ids are only looked up in the distances, which no step changes.
-/

namespace Lox

variable (f : NodeId → NodeId) (D : Distances)

/-! ## Operators -/

namespace Value

theorem numbers_renumber (line : Nat) (left right : Value) {g : Float → Float → Value}
    (hg : ∀ a b, (g a b).renumber f = g a b) :
    numbers line (left.renumber f) (right.renumber f) g =
      (numbers line left right g).map (renumber f) := by
  cases left with
  | number a =>
    cases right with
    | number b => exact congrArg Except.ok (hg a b).symm
    | _ => rfl
  | _ => rfl

theorem plus_renumber (line : Nat) (left right : Value) :
    plus line (left.renumber f) (right.renumber f) = (plus line left right).map (renumber f) := by
  cases left <;> cases right <;> rfl

/-- A unary operator does not look at ids. -/
theorem unary_renumber (operator : Token) (v : Value) :
    (v.renumber f).unary operator = (v.unary operator).map (renumber f) := by
  unfold unary
  split
  · cases v <;> rfl
  · rw [isTruthy_renumber]
    rfl
  · rfl

/-- A binary operator does not look at ids. -/
theorem binary_renumber (left : Value) (operator : Token) (right : Value) :
    (left.renumber f).binary operator (right.renumber f) =
      (left.binary operator right).map (renumber f) := by
  simp only [binary, same_renumber]
  split
  case h_1 => exact plus_renumber f ..
  case h_9 | h_10 | h_11 => rfl
  all_goals exact numbers_renumber f _ _ _ fun _ _ => rfl

@[simp] theorem decides_renumber (operator : Token) (v : Value) :
    (v.renumber f).decides operator = v.decides operator := by
  simp only [decides, isTruthy_renumber]

end Value

theorem Value.sight_renumber (v : Value) : (v.renumber f).sight = v.sight := by
  simp only [sight, typeName_renumber, display_renumber, isTruthy_renumber]
  cases v <;> rfl

/-! ## Operations -/

namespace Interpreter

/-- The interpreter with other ids in its store, and with other distances. -/
def renumber (st : Interpreter) : Interpreter :=
  { st with store := st.store.renumber f, distances := D }

/-- The renumbered value and state after an operation. -/
def renumberResult (r : Except Fault Value × Interpreter) : Except Fault Value × Interpreter :=
  (r.1.map (Value.renumber f), r.2.renumber f D)

/-- The renumbered state after an operation without a value. -/
def renumberState {α : Type} (r : α × Interpreter) : α × Interpreter :=
  (r.1, r.2.renumber f D)

variable (st : Interpreter)

theorem found_renumber (name : String) (line : Nat) (v? : Option Value) :
    found name line (v?.map (Value.renumber f)) = (found name line v?).map (Value.renumber f) := by
  cases v? <;> rfl

variable {f D st} in
/-- A variable is found under its new id. -/
theorem lookUp_renumber (hD : st.distances.Renumbers f D) (id : NodeId) (name : Token) :
    (st.renumber f D).lookUp (f id) name = (st.lookUp id name).map (Value.renumber f) := by
  simp only [lookUp, renumber, hD id]
  cases st.distances[id]? with
  | none => simp only [Store.get?_renumber, found_renumber]
  | some d => simp only [Store.getAt?_renumber, found_renumber]

variable {f D st} in
theorem target?_renumber (hD : st.distances.Renumbers f D) (id : NodeId) (name : String) :
    (st.renumber f D).target? (f id) name = st.target? id name := by
  simp only [target?, renumber, hD id, Store.binderAt?_renumber, Store.binder?_renumber]

variable {f D st} in
/-- An assignment under a new id goes to the same variable. -/
theorem assign_renumber (hD : st.distances.Renumbers f D) (id : NodeId) (name : Token) (v : Value) :
    (st.renumber f D).assign (f id) name (v.renumber f) =
      renumberResult f D (st.assign id name v) := by
  unfold assign
  rw [target?_renumber hD]
  cases st.target? id name.lexeme with
  | none => rfl
  | some scope => simp only [renumberResult, renumber, put, Store.renumber_put, Except.map]

/-- A declaration does not look at ids. -/
theorem define_renumber (name : String) (v : Value) :
    (st.renumber f D).define name (v.renumber f) = (st.define name v).renumber f D := by
  simp only [define, renumber, Store.renumber_define]

/-- Entering a scope does not look at ids. -/
theorem enter_renumber (env : Env) (bindings : NameTable Value) :
    (st.renumber f D).enter env (bindings.map (Value.renumber f)) =
      (st.enter env bindings).renumber f D := by
  simp only [enter, renumber, Store.renumber_addScope, Store.nextScope_renumber]

theorem setField_renumber (o : Object) (name : String) (v : Value) :
    (st.renumber f D).setField (o.renumber f) name (v.renumber f) =
      (st.setField o name v).renumber f D := by
  simp only [setField, renumber, Object.renumber, Store.renumber_setField]

theorem close_renumber (env : Env) (isInitializer : Bool) (decl : FunctionDecl) :
    (st.renumber f D).close env isInitializer (Stmt.renumberFunction f decl) =
      ((st.close env isInitializer decl).1.renumber f,
        (st.close env isInitializer decl).2.renumber f D) := rfl

/-- Binding a method does not look at ids. -/
theorem bind_renumber (method : Closure) (o : Object) :
    (st.renumber f D).bind (method.renumber f) (o.renumber f) =
      ((st.bind method o).1.renumber f, (st.bind method o).2.renumber f D) := by
  have hscope : (st.renumber f D).addScope (NameTable.insert ∅ "this" (.object (o.renumber f))) =
      (st.addScope (NameTable.insert ∅ "this" (.object o))).renumber f D := by
    simp only [addScope, renumber, Store.renumber_addScope, NameTable.map_insert,
      NameTable.map_empty, Value.renumber]
  have hnext : (st.renumber f D).store.nextScope = st.store.nextScope :=
    Store.nextScope_renumber f st.store
  simp only [bind, hscope, hnext]
  exact close_renumber f D _ (st.store.nextScope :: method.env) method.isInitializer method.decl

theorem bindFound_renumber (o : Object) (name : Token) (method : Option Closure) :
    (st.renumber f D).bindFound (o.renumber f) name (method.map (Closure.renumber f)) =
      renumberResult f D (st.bindFound o name method) := by
  cases method with
  | none => rfl
  | some c =>
    simp only [Option.map_some, bindFound, bind_renumber]
    rfl

/-- Reading a property does not look at ids. -/
theorem property_renumber (o : Object) (name : Token) :
    (st.renumber f D).property (o.renumber f) name = renumberResult f D (st.property o name) := by
  have hfield : (st.renumber f D).store.field? (o.renumber f).id name.lexeme =
      (st.store.field? o.id name.lexeme).map (Value.renumber f) := Store.field?_renumber ..
  have hmethod : (o.renumber f).cls.findMethod? name.lexeme =
      (o.cls.findMethod? name.lexeme).map (Closure.renumber f) := Class.findMethod?_renumber ..
  simp only [property, hfield, hmethod, bindFound_renumber]
  cases st.store.field? o.id name.lexeme <;> rfl

variable {f D st} in
theorem superBinding_renumber (hD : st.distances.Renumbers f D) (id : NodeId) (word : Token) :
    (st.renumber f D).superBinding (f id) word =
      (st.superBinding id word).map fun b => (b.1.renumber f, b.2.renumber f) := by
  simp only [superBinding, renumber, hD id, Store.getAt?_renumber]
  cases st.distances[id]? with
  | none => rfl
  | some d =>
    dsimp only
    -- The four ways to fail and the one to succeed are told apart by the kinds of the two values.
    cases st.store.getAt? st.env d "super" with
    | none => rfl
    | some v =>
      cases st.store.getAt? st.env (d - 1) "this" with
      | none => rfl
      | some w => cases v <;> cases w <;> rfl

variable {f D st} in
/-- A method of `super` is found under its new id. -/
theorem superMethod_renumber (hD : st.distances.Renumbers f D) (id : NodeId) (word method : Token) :
    (st.renumber f D).superMethod (f id) word method =
      renumberResult f D (st.superMethod id word method) := by
  unfold superMethod
  rw [superBinding_renumber hD]
  cases st.superBinding id word with
  | error e => rfl
  | ok b =>
    simp only [Except.map, Class.findMethod?_renumber]
    exact bindFound_renumber f D st b.2 method _

theorem closeMethods_renumber (env : Env) (methods : List FunctionDecl)
    (table : NameTable Closure) :
    (st.renumber f D).closeMethods env (Stmt.renumberMethods f methods)
      (table.map (Closure.renumber f)) =
      ((st.closeMethods env methods table).1.map (Closure.renumber f),
        (st.closeMethods env methods table).2.renumber f D) := by
  induction methods generalizing st table with
  | nil => rfl
  | cons decl rest ih =>
    have hname : (Stmt.renumberFunction f decl).name = decl.name := by
      obtain ⟨_, _, _⟩ := decl
      rfl
    simp only [Stmt.renumberMethods, closeMethods, hname, close_renumber, ← NameTable.map_insert,
      ih]

theorem enterSuperclass_renumber (superclass : Option Class) :
    (st.renumber f D).enterSuperclass (superclass.map (Class.renumber f)) =
      renumberState f D (st.enterSuperclass superclass) := by
  cases superclass with
  | none => rfl
  | some c =>
    simp only [Option.map_some, enterSuperclass, renumberState, renumber, addScope,
      Store.renumber_addScope, NameTable.map_insert, NameTable.map_empty, Value.renumber,
      Store.nextScope_renumber]

/-- Declaring a class does not look at ids. -/
theorem defineClass_renumber (name : Token) (superclass : Option Class)
    (methods : List FunctionDecl) :
    (st.renumber f D).defineClass name (superclass.map (Class.renumber f)) (Stmt.renumberMethods f
      methods) =
      renumberState f D (st.defineClass name superclass methods) := by
  have hdefine : (st.renumber f D).define name.lexeme .nil =
      (st.define name.lexeme .nil).renumber f D :=
    define_renumber f D st name.lexeme .nil
  have hempty : (∅ : NameTable Closure) = (∅ : NameTable Closure).map (Closure.renumber f) := rfl
  simp only [defineClass, hdefine, enterSuperclass_renumber, renumberState]
  rw [hempty, closeMethods_renumber, NameTable.map_empty]
  generalize ((st.define name.lexeme .nil).enterSuperclass superclass).2.closeMethods _ methods ∅ =
    closed
  simp only [renumber, addIdentity, ← Store.renumber_addIdentity, Store.binder?_renumber,
    Store.nextIdentity_renumber]
  cases closed.2.store.addIdentity.binder? closed.2.env name.lexeme with
  | none => rfl
  | some scope =>
    simp only [put, Store.renumber_put, Value.renumber, Class.renumber_extend, ClassBody.renumber]

theorem print_renumber (v : Value) :
    (st.renumber f D).print (v.renumber f) = renumberState f D (st.print v) := by
  simp only [print, Value.pieces_renumber]
  rfl

end Interpreter

theorem Machine.callNative_renumber (n : Native) (paren : Token) (arguments : List Value)
    (st : Interpreter) :
    callNative n paren (arguments.map (Value.renumber f)) (st.renumber f D) =
      Interpreter.renumberResult f D (callNative n paren arguments st) := by
  have hclock : (st.renumber f D).clock (st.renumber f D).readings = st.clock st.readings := rfl
  have hsights : (arguments.map (Value.renumber f)).map Value.sight =
      arguments.map Value.sight := by
    simp only [List.map_map, Function.comp_def, Value.sight_renumber]
  simp only [callNative, hclock, hsights]
  cases n.answer (st.clock st.readings) (arguments.map Value.sight) with
  | ok l => cases l <;> rfl
  | error message => rfl

/-! ## Frames and machines -/

/-- The frame with other ids. -/
def Frame.renumber : Frame → Frame
  | .unary operator => .unary operator
  | .binaryLeft operator right => .binaryLeft operator (right.renumber f)
  | .binaryRight left operator => .binaryRight (left.renumber f) operator
  | .logical operator right => .logical operator (right.renumber f)
  | .assign id name => .assign (f id) name
  | .callee paren arguments => .callee paren (Expr.renumberAll f arguments)
  | .argument called paren done todo =>
    .argument (called.renumber f) paren (done.map (Value.renumber f)) (Expr.renumberAll f todo)
  | .get name => .get name
  | .setObject name value => .setObject name (value.renumber f)
  | .setValue object name => .setValue (object.renumber f) name
  | .discard => .discard
  | .print => .print
  | .declare name => .declare name
  | .branch thenBranch elseBranch =>
    .branch (thenBranch.renumber f) (elseBranch.map (Stmt.renumber f))
  | .loopTest condition body => .loopTest (condition.renumber f) (body.renumber f)
  | .returning => .returning
  | .superclass name line methods => .superclass name line (Stmt.renumberMethods f methods)
  | .endCall => .endCall
  | .construct object => .construct (object.renumber f)
  | .sequence rest => .sequence (Stmt.renumberAll f rest)
  | .loopBody condition body => .loopBody (condition.renumber f) (body.renumber f)
  | .leave env => .leave env
  | .initializer c => .initializer (c.renumber f)

/-- The way a statement ended, with other ids. -/
def Flow.renumber : Flow → Flow
  | .normal => .normal
  | .returned v => .returned (v.renumber f)

/-- The control with other ids. -/
def Control.renumber : Control → Control
  | .eval e => .eval (e.renumber f)
  | .exec s => .exec (s.renumber f)
  | .value v => .value (v.renumber f)
  | .flow ended => .flow (ended.renumber f)
  | .fault e => .fault e

namespace Machine

/-- The machine with other ids. -/
def renumber (m : Machine) : Machine :=
  ⟨m.control.renumber f, m.frames.map (Frame.renumber f), m.state.renumber f D⟩

variable {f D} {frames : List Frame} {frame : Frame} {st : Interpreter} {callee v : Value}
  {paren : Token} {arguments : List Value} {todo : List Expr} {e : Expr} {s : Stmt} {flow : Flow}

theorem give_renumber (r : Except Fault Value × Interpreter) :
    give (Interpreter.renumberResult f D r) (frames.map (Frame.renumber f)) =
      (give r frames).renumber f D := by
  obtain ⟨_ | _, _⟩ := r <;> rfl

theorem finish_renumber (r : Except Fault Unit × Interpreter) :
    finish (Interpreter.renumberState f D r) (frames.map (Frame.renumber f)) =
      (finish r frames).renumber f D := by
  obtain ⟨_ | _, _⟩ := r <;> rfl

theorem superclassLine_renumber (name : Token) (e : Expr) :
    superclassLine name (e.renumber f) = superclassLine name e := by
  cases e <;> rfl

variable (hD : st.distances.Renumbers f D)

include hD in
/-- Starting an expression with new ids. -/
theorem stepEval_renumber :
    stepEval (e.renumber f) (frames.map (Frame.renumber f)) (st.renumber f D) =
      (stepEval e frames st).renumber f D := by
  have hlook (id : NodeId) (name : Token) : give
      ((st.renumber f D).lookUp (f id) name, st.renumber f D) (frames.map (Frame.renumber f)) =
      (give (st.lookUp id name, st) frames).renumber f D := by
    rw [Interpreter.lookUp_renumber hD]
    exact give_renumber (st.lookUp id name, st)
  cases e with
  | literal l =>
    simp only [Expr.renumber, stepEval, renumber, Control.renumber, Value.renumber_ofLiteral]
  | «variable» id name => exact hlook id name
  | thisRef id word => exact hlook id word
  | superRef id word method =>
    show give ((st.renumber f D).superMethod (f id) word method) _ = _
    rw [Interpreter.superMethod_renumber hD]
    exact give_renumber _
  | _ => rfl

/-- Starting a statement with new ids. -/
theorem stepExec_renumber :
    stepExec (s.renumber f) (frames.map (Frame.renumber f)) (st.renumber f D) =
      (stepExec s frames st).renumber f D := by
  cases s with
  | var name initializer =>
    cases initializer with
    | none =>
      have h := Interpreter.define_renumber f D st name.lexeme .nil
      simp only [Stmt.renumber, Option.map_none, stepExec, renumber, ← h]
      rfl
    | some e => rfl
  | block body =>
    have h := Interpreter.enter_renumber f D st st.env ∅
    simp only [Stmt.renumber, stepExec, renumber, ← h]
    rfl
  | function decl =>
    have h := Interpreter.define_renumber f D st.addIdentity decl.name.lexeme
      (.closure ⟨st.store.nextIdentity, decl, st.env, false⟩)
    obtain ⟨name, params, body⟩ := decl
    show Machine.mk _ _ ((st.addIdentity.renumber f D).define _ _) = _
    exact congrArg (Machine.mk _ _) h
  | returnWith word value => cases value <;> rfl
  | classDef name superclass methods =>
    cases superclass with
    | none =>
      show finish ((st.renumber f D).defineClass name none (Stmt.renumberMethods f methods)) _ = _
      have h := Interpreter.defineClass_renumber f D st name none methods
      rw [Option.map_none] at h
      rw [h]
      exact finish_renumber _
    | some e =>
      simp only [Stmt.renumber, Option.map_some, stepExec, superclassLine_renumber]
      rfl
  | _ => rfl

/-! ## Calls -/

theorem callVariables_renumber (f : NodeId → NodeId) (params : List Token)
    (arguments : List Value) :
    callVariables params (arguments.map (Value.renumber f)) =
      (callVariables params arguments).map (Value.renumber f) := by
  suffices h : ∀ t : NameTable Value, (params.zip (arguments.map (Value.renumber f))).foldl
      (fun t entry => t.insert entry.1.lexeme entry.2) (t.map (Value.renumber f)) =
      ((params.zip arguments).foldl (fun t entry => t.insert entry.1.lexeme entry.2) t).map
      (Value.renumber f) from h ∅
  induction params generalizing arguments with
  | nil => exact fun t => rfl
  | cons p rest ih =>
    intro t
    cases arguments with
    | nil => rfl
    | cons v arguments =>
      simp only [List.map_cons, List.zip_cons_cons, List.foldl_cons, ← NameTable.map_insert]
      exact ih arguments _

/-- Entering a function whose body has new ids. -/
theorem enterClosure_renumber (c : Closure) (arguments : List Value) (frames : List Frame)
    (st : Interpreter) :
    enterClosure (c.renumber f) (arguments.map (Value.renumber f)) (frames.map (Frame.renumber f))
      (st.renumber f D) =
      (enterClosure c arguments frames st).renumber f D := by
  obtain ⟨identity, ⟨name, params, body⟩, env, isInitializer⟩ := c
  have h := Interpreter.enter_renumber f D st env (callVariables params arguments)
  simp only [enterClosure, Closure.renumber, Stmt.renumberFunction, callVariables_renumber, h]
  cases isInitializer <;> rfl

/-- Making an object of a class with new ids. -/
theorem instantiate_renumber (c : Class) (arguments : List Value) (frames : List Frame)
    (st : Interpreter) :
    instantiate (c.renumber f) (arguments.map (Value.renumber f)) (frames.map (Frame.renumber f))
      (st.renumber f D) =
      (instantiate c arguments frames st).renumber f D := by
  have hobject :
    ({ st.renumber f D with store := (st.renumber f D).store.addObject } : Interpreter) =
      ({ st with store := st.store.addObject } : Interpreter).renumber f D := by
    simp only [Interpreter.renumber, Store.renumber_addObject]
  have hnext : (st.renumber f D).store.nextObject = st.store.nextObject :=
    Store.nextObject_renumber f st.store
  simp only [instantiate, Class.findMethod?_renumber, hobject, hnext]
  cases c.findMethod? "init" with
  | none => rfl
  | some method =>
    have hbind := Interpreter.bind_renumber f D { st with store := st.store.addObject } method
      ⟨st.store.nextObject, c⟩
    simp only [Object.renumber] at hbind
    simp only [Option.map_some, hbind]
    exact enterClosure_renumber _ arguments (.construct ⟨st.store.nextObject, c⟩ :: frames) _

theorem arity?_renumber (f : NodeId → NodeId) (v : Value) : arity? (v.renumber f) = arity? v := by
  cases v with
  | closure c => exact congrArg some (c.arity_renumber f)
  | cls c => exact congrArg some (c.arity_renumber f)
  | _ => rfl

theorem startCall_renumber :
    startCall (callee.renumber f) paren (arguments.map (Value.renumber f))
      (frames.map (Frame.renumber f))
      (st.renumber f D) = (startCall callee paren arguments frames st).renumber f D := by
  cases callee with
  | native n =>
    have h := callNative_renumber f D n paren arguments { st with callDepth := st.callDepth + 1 }
    show give (callNative n paren (arguments.map (Value.renumber f)) _) _ = _
    exact (congrArg (give · _) h).trans (@give_renumber f D (.endCall :: frames) _)
  | closure c =>
    exact enterClosure_renumber c arguments (.endCall :: frames)
      { st with callDepth := st.callDepth + 1 }
  | cls c =>
    exact instantiate_renumber c arguments (.endCall :: frames)
      { st with callDepth := st.callDepth + 1 }
  | _ => rfl

/-- Calling a value with new ids. -/
theorem call_renumber :
    call (callee.renumber f) paren (arguments.map (Value.renumber f))
      (frames.map (Frame.renumber f))
      (st.renumber f D) = (call callee paren arguments frames st).renumber f D := by
  simp only [call, arity?_renumber, List.length_map]
  cases arity? callee with
  | none => rfl
  | some n =>
    have hdepth : ((st.renumber f D).maxCallDepth ≤ (st.renumber f D).callDepth) =
      (st.maxCallDepth ≤ st.callDepth) := rfl
    simp only [hdepth, startCall_renumber]
    split
    · rfl
    · split <;> rfl

theorem stepArguments_renumber (done : List Value) :
    stepArguments (callee.renumber f) paren (done.map (Value.renumber f)) (Expr.renumberAll f todo)
      (frames.map (Frame.renumber f)) (st.renumber f D) =
        (stepArguments callee paren done todo frames st).renumber f D := by
  cases todo with
  | nil =>
    simp only [Expr.renumberAll, stepArguments, ← List.map_reverse]
    exact call_renumber
  | cons e rest => rfl

/-! ## Results -/

include hD in
/-- A frame with new ids takes a value alike. -/
theorem stepValue_renumber :
    stepValue (v.renumber f) (frame.renumber f) (frames.map (Frame.renumber f)) (st.renumber f D) =
      (stepValue v frame frames st).renumber f D := by
  cases frame with
  | unary operator =>
    show give ((v.renumber f).unary operator, _) _ = _
    rw [Value.unary_renumber]
    exact give_renumber (v.unary operator, st)
  | binaryRight left operator =>
    show give ((left.renumber f).binary operator (v.renumber f), _) _ = _
    rw [Value.binary_renumber]
    exact give_renumber (left.binary operator v, st)
  | logical operator right =>
    simp only [Frame.renumber, stepValue, Value.decides_renumber]
    split <;> rfl
  | assign id name =>
    show give ((st.renumber f D).assign (f id) name (v.renumber f)) _ = _
    rw [Interpreter.assign_renumber hD]
    exact give_renumber _
  | callee paren arguments => exact stepArguments_renumber []
  | argument callee paren done todo => exact stepArguments_renumber (v :: done)
  | get name =>
    cases v with
    | object o =>
      show give ((st.renumber f D).property (o.renumber f) name) _ = _
      rw [Interpreter.property_renumber]
      exact give_renumber _
    | _ => rfl
  | setObject name value => cases v <;> rfl
  | setValue o name =>
    show Machine.mk _ _ ((st.renumber f D).setField (o.renumber f) name.lexeme (v.renumber f)) = _
    rw [Interpreter.setField_renumber]
    rfl
  | print =>
    show finish ((st.renumber f D).print (v.renumber f)) _ = _
    rw [Interpreter.print_renumber]
    exact finish_renumber _
  | declare name =>
    show Machine.mk _ _ ((st.renumber f D).define name.lexeme (v.renumber f)) = _
    rw [Interpreter.define_renumber]
    rfl
  | branch thenBranch elseBranch =>
    simp only [Frame.renumber, stepValue, Value.isTruthy_renumber]
    cases elseBranch <;> split <;> rfl
  | loopTest condition body =>
    simp only [Frame.renumber, stepValue, Value.isTruthy_renumber]
    split <;> rfl
  | superclass name line methods =>
    cases v with
    | cls c =>
      show finish ((st.renumber f D).defineClass name (some (c.renumber f))
        (Stmt.renumberMethods f methods)) _ = _
      have h := Interpreter.defineClass_renumber f D st name (some c) methods
      rw [Option.map_some] at h
      rw [h]
      exact finish_renumber _
    | _ => rfl
  | _ => rfl

/-- A frame with new ids takes the end of a statement alike. -/
theorem stepFlow_renumber :
    stepFlow (flow.renumber f) (frame.renumber f) (frames.map (Frame.renumber f))
      (st.renumber f D) =
      (stepFlow flow frame frames st).renumber f D := by
  cases frame with
  | sequence rest => cases flow <;> cases rest <;> rfl
  | loopBody condition body => cases flow <;> rfl
  | leave env => rfl
  | initializer c =>
    show give (Interpreter.found "this" (c.renumber f).decl.name.line
      ((st.renumber f D).store.getAt? c.env 0 "this"), _) _ = _
    have hthis : (st.renumber f D).store.getAt? c.env 0 "this" =
      (st.store.getAt? c.env 0 "this").map (Value.renumber f) := Store.getAt?_renumber ..
    rw [hthis, Interpreter.found_renumber, Closure.renumber_eq]
    exact give_renumber (Interpreter.found "this" c.decl.name.line (st.store.getAt? c.env 0 "this"),
      st)
  | _ => cases flow <;> rfl

/-- **A renumbered machine takes the renumbered step.** -/
theorem step_renumber {m : Machine} (hD : m.state.distances.Renumbers f D) :
    (m.renumber f D).step = m.step.renumber f D := by
  obtain ⟨control, frames, st⟩ := m
  cases control with
  | eval e => exact stepEval_renumber hD
  | exec s => exact stepExec_renumber
  | value v =>
    cases frames with
    | nil => rfl
    | cons frame frames => exact stepValue_renumber hD
  | flow flow =>
    cases frames with
    | nil => rfl
    | cons frame frames => exact stepFlow_renumber
  | fault e =>
    cases frames with
    | nil => rfl
    | cons frame frames => cases frame <;> rfl

theorem isDone_renumber (f : NodeId → NodeId) (D : Distances) (m : Machine) :
    (m.renumber f D).isDone = m.isDone := by
  obtain ⟨control, frames, st⟩ := m
  cases control <;> cases frames <;> rfl

/-- No step changes the distances. -/
theorem distances_step (m : Machine) : m.step.state.distances = m.state.distances := by
  have h := (step_returns m).home.distances
  rw [home, unwind_eq, unwind_eq m.frames] at h
  exact h

/-- A renumbered machine runs like the machine, to the renumbered end. -/
theorem run_renumber (budget : Nat) {m : Machine} (hD : m.state.distances.Renumbers f D) :
    run budget (m.renumber f D) = (run budget m).renumber f D := by
  induction budget generalizing m with
  | zero => rfl
  | succ budget ih =>
    simp only [run, isDone_renumber]
    cases m.isDone with
    | true => rfl
    | false =>
      rw [step_renumber hD]
      exact ih (m := m.step) (by rw [distances_step]; exact hD)

end Machine

/-! ## Programs -/

namespace Interpreter

variable {f D} {st : Interpreter} (hD : st.distances.Renumbers f D) (budget : Nat)

include hD

theorem execute_renumber (s : Stmt) : (st.renumber f D).execute budget (s.renumber f) =
    (st.execute budget s).map fun r => (r.1.map (Flow.renumber f), r.2.renumber f D) := by
  have h := Machine.run_renumber budget (m := ⟨.exec s, [], st⟩) hD
  have h' : Machine.run budget ⟨.exec (s.renumber f), [], st.renumber f D⟩ =
      (Machine.run budget ⟨.exec s, [], st⟩).renumber f D := h
  rw [execute, h', execute]
  obtain ⟨control, frames, st'⟩ := Machine.run budget ⟨.exec s, [], st⟩
  cases control <;> cases frames <;> rfl

theorem evaluate_renumber (e : Expr) : (st.renumber f D).evaluate budget (e.renumber f) =
    (st.evaluate budget e).map (renumberResult f D) := by
  have h := Machine.run_renumber budget (m := ⟨.eval e, [], st⟩) hD
  have h' : Machine.run budget ⟨.eval (e.renumber f), [], st.renumber f D⟩ =
      (Machine.run budget ⟨.eval e, [], st⟩).renumber f D := h
  rw [evaluate, h', evaluate]
  obtain ⟨control, frames, st'⟩ := Machine.run budget ⟨.eval e, [], st⟩
  cases control with
  | flow flow => cases flow <;> cases frames <;> rfl
  | _ => cases frames <;> rfl

theorem executeAll_renumber (program : List Stmt) :
    (st.renumber f D).executeAll budget (Stmt.renumberAll f program) =
      (st.executeAll budget program).map (renumberState f D) := by
  induction program generalizing st with
  | nil => rfl
  | cons s rest ih =>
    simp only [Stmt.renumberAll, executeAll, execute_renumber hD budget s]
    cases h : st.execute budget s with
    | none => rfl
    | some r =>
      obtain ⟨ending, st'⟩ := r
      cases ending with
      | error e => rfl
      | ok flow =>
        have hsame : st'.distances = st.distances := (execute_samePlace h).distances
        refine ih ?_
        rw [hsame]
        exact hD

/-- A renumbered program runs on a renumbered interpreter as the program does. -/
theorem interpret_renumber (program : List Stmt) :
    (st.renumber f D).interpret budget (Stmt.renumberAll f program) =
      (st.interpret budget program).map (renumberState f D) := by
  rw [interpret, executeAll_renumber hD budget program, interpret]
  obtain _ | ⟨_ | _, _⟩ := st.executeAll budget program <;> rfl

end Interpreter

end Lox
