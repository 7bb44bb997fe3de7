import Lox.Proofs.Scope.Sessions

/-!
# What machines carry on

A machine makes few things anew. The code that it comes to is part of code that it had, environments
grow by the scope that was just made, and all values of a step were there before, are made of an
environment and a function that were, or are the object or class that the step makes. `Carrying` is
something to be known of code, environments and values that agrees with this. What is known may hang
on a stage that moves on with the machine. If it is known of all that a machine carries, and of what
its next step makes or writes, then it is known of all that the machine carries after the step
(`Carrying.step`).
-/

namespace Lox

/-! ## The values of a machine -/

/-- The values that a frame holds. -/
def Frame.values : Frame → List Value
  | .binaryRight left _ => [left]
  | .argument target _ done _ => target :: done
  | .setValue o _ => [.object o]
  | .construct o => [.object o]
  | .initializer c => [.closure c]
  | _ => []

/-- The values that a control holds. -/
def Control.values : Control → List Value
  | .value v => [v]
  | .flow (.returned v) => [v]
  | _ => []

/-- The values that a machine holds: in variables, in fields, and in what it is about to do. -/
inductive Machine.Holds (m : Machine) : Value → Prop where
  | variable {scope : ScopeId} {name : String} {v : Value}
      (h : m.state.store.find? scope name = some v) : Holds m v
  | field {id : ObjectId} {name : String} {v : Value}
      (h : m.state.store.field? id name = some v) : Holds m v
  | control {v : Value} (h : v ∈ m.control.values) : Holds m v
  | frame {frame : Frame} {v : Value} (hf : frame ∈ m.frames) (h : v ∈ frame.values) : Holds m v

/-! ## What a step makes or writes -/

namespace Machine

/-- A machine whose next step calls a value with some arguments, above some frames. -/
inductive Calls (m : Machine) (callee : Value) (paren : Token) :
    List Value → List Frame → Prop where
  | plain {frames : List Frame} (hcontrol : m.control = .value callee)
      (hframes : m.frames = .callee paren [] :: frames) : Calls m callee paren [] frames
  | applied {v : Value} {done : List Value} {frames : List Frame} (hcontrol : m.control = .value v)
      (hframes : m.frames = .argument callee paren done [] :: frames) :
      Calls m callee paren (v :: done).reverse frames

/-- A machine whose next step makes an object. -/
def Creates (m : Machine) (o : Object) : Prop :=
  o.id = m.state.store.nextObject ∧ m.state.callDepth < m.state.maxCallDepth ∧
    ∃ paren arguments frames,
      m.Calls (.cls o.cls) paren arguments frames ∧ arguments.length = o.cls.arity

/-- A machine whose next step stores a value in a field. -/
def Writes (m : Machine) (o : Object) (name : String) (v : Value) : Prop :=
  ∃ token frames, m.control = .value v ∧ m.frames = .setValue o token :: frames ∧
    token.lexeme = name

/-- A machine whose next step executes a class statement: the superclass, if there is one, has been
evaluated. -/
inductive DeclaresClass (m : Machine) : Option Class → List FunctionDecl → Class → Prop where
  | plain {name : Token} {methods : List FunctionDecl}
      (hcontrol : m.control = .exec (.classDef name none methods)) :
      DeclaresClass m none methods (m.state.declaredClass name none methods)
  | inheriting {name : Token} {line : Nat} {methods : List FunctionDecl} {c : Class}
      {frames : List Frame} (hcontrol : m.control = .value (.cls c))
      (hframes : m.frames = .superclass name line methods :: frames) :
      DeclaresClass m (some c) methods (m.state.declaredClass name (some c) methods)

end Machine

/-! ## What is known of code, environments and values -/

/-- Something to be known of code and of the lines of its tokens. It is known of the parts of what
it is known of. -/
structure Code where
  line : Nat → Prop
  expr : Expr → Prop
  stmt : Stmt → Prop
  function : FunctionDecl → Prop
  grouping {e} : expr (.grouping e) → expr e
  unary {t e} : expr (.unary t e) → line t.line ∧ expr e
  binary {l t r} : expr (.binary l t r) → expr l ∧ line t.line ∧ expr r
  logical {l t r} : expr (.logical l t r) → expr l ∧ expr r
  name {id t} : expr (.variable id t) → line t.line
  assign {id t e} : expr (.assign id t e) → line t.line ∧ expr e
  application {e t es} : expr (.call e t es) → expr e ∧ line t.line ∧ ∀ a ∈ es, expr a
  get {e t} : expr (.get e t) → expr e ∧ line t.line
  set {e t v} : expr (.set e t v) → expr e ∧ line t.line ∧ expr v
  thisRef {id t} : expr (.thisRef id t) → line t.line
  superRef {id t m} : expr (.superRef id t m) → line t.line ∧ line m.line
  expression {e} : stmt (.expression e) → expr e
  print {e} : stmt (.print e) → expr e
  var {t e} : stmt (.var t (some e)) → expr e
  block {body} : stmt (.block body) → ∀ s ∈ body, stmt s
  ifThen {e s} : stmt (.ifThen e s) → expr e ∧ stmt s
  ifThenElse {e s t} : stmt (.ifThenElse e s t) → expr e ∧ stmt s ∧ stmt t
  whileLoop {e s} : stmt (.whileLoop e s) → expr e ∧ stmt s
  declaration {d} : stmt (.function d) → function d
  returnWith {t e} : stmt (.returnWith t (some e)) → expr e
  classDef {t e ds} : stmt (.classDef t e ds) → line t.line ∧ ∀ d ∈ ds, function d
  inherits {t e ds} : stmt (.classDef t (some e) ds) → expr e ∧ line (Machine.superclassLine t e)
  body {d} : function d → line d.name.line ∧ ∀ s ∈ d.body, stmt s

/-- Nothing is asked of code. -/
def Code.any : Code where
  line _ := True
  expr _ := True
  stmt _ := True
  function _ := True
  grouping _ := trivial
  unary _ := ⟨trivial, trivial⟩
  binary _ := ⟨trivial, trivial, trivial⟩
  logical _ := ⟨trivial, trivial⟩
  name _ := trivial
  assign _ := ⟨trivial, trivial⟩
  application _ := ⟨trivial, trivial, fun _ _ => trivial⟩
  get _ := ⟨trivial, trivial⟩
  set _ := ⟨trivial, trivial, trivial⟩
  thisRef _ := trivial
  superRef _ := ⟨trivial, trivial⟩
  expression _ := trivial
  print _ := trivial
  var _ := trivial
  block _ _ _ := trivial
  ifThen _ := ⟨trivial, trivial⟩
  ifThenElse _ := ⟨trivial, trivial, trivial⟩
  whileLoop _ := ⟨trivial, trivial⟩
  declaration _ := trivial
  returnWith _ := trivial
  classDef _ := ⟨trivial, fun _ _ => trivial⟩
  inherits _ := ⟨trivial, trivial⟩
  body _ := ⟨trivial, fun _ _ => trivial⟩

/-- Something to be known of all that a machine carries. Of values and environments it is known from
some stage on. -/
structure Carrying extends Code where
  Stage : Type
  Before : Stage → Stage → Prop
  value : Stage → Value → Prop
  env : Stage → Env → Prop
  /-- What is known of a store besides its values, in an interpreter with some global scope. -/
  store : Stage → ScopeId → Store → Prop
  refl : ∀ i, Before i i
  trans {i j k} : Before i j → Before j k → Before i k
  value_mono {i j v} : Before i j → value i v → value j v
  env_mono {i j e} : Before i j → env i e → env j e
  plain {i v} : v.isPlain = true → value i v
  native {i n} : value i (.native n)
  closure {i c} : value i (.closure c) ↔ env i c.env ∧ function c.decl
  method {i v c n m} : value i v → v.class? = some c → c.findMethod? n = some m →
    value i (.closure m)
  put {i g s} : store i g s → ∀ scope name v, store i g (s.put scope name v)
  addScope {i g s e} : store i g s → env i e → ∀ bindings,
    ∃ j, Before i j ∧ store j g (s.addScope bindings) ∧ env j (s.nextScope :: e)
  addIdentity {i g s} : store i g s → ∃ j, Before i j ∧ store j g s.addIdentity

namespace Carrying

variable (C : Carrying) (i : C.Stage)

/-- It is known of the environment, the variables and the fields of an interpreter. -/
structure OfState (st : Interpreter) : Prop where
  store : C.store i st.globals st.store
  env : C.env i st.env
  bindings : ∀ scope name v, st.store.find? scope name = some v → C.value i v
  fields : ∀ id name v, st.store.field? id name = some v → C.value i v

/-- It is known of the values, the code and the environment of a frame, and of the lines that the
frame can report. -/
def OfFrame : Frame → Prop
  | .unary operator => C.line operator.line
  | .binaryLeft operator right => C.line operator.line ∧ C.expr right
  | .binaryRight left operator => C.value i left ∧ C.line operator.line
  | .logical _ right => C.expr right
  | .assign _ name => C.line name.line
  | .callee paren arguments => C.line paren.line ∧ ∀ e ∈ arguments, C.expr e
  | .argument target paren done todo =>
    (∀ v ∈ target :: done, C.value i v) ∧ C.line paren.line ∧ ∀ e ∈ todo, C.expr e
  | .get name => C.line name.line
  | .setObject name value => C.line name.line ∧ C.expr value
  | .setValue o _ => C.value i (.object o)
  | .branch thenBranch elseBranch => C.stmt thenBranch ∧ ∀ s, elseBranch = some s → C.stmt s
  | .loopTest condition body => C.expr condition ∧ C.stmt body
  | .loopBody condition body => C.expr condition ∧ C.stmt body
  | .superclass name line methods => C.line name.line ∧ C.line line ∧ ∀ d ∈ methods, C.function d
  | .construct o => C.value i (.object o)
  | .sequence rest => ∀ s ∈ rest, C.stmt s
  | .leave env => C.env i env
  | .initializer c => C.value i (.closure c)
  | _ => True

/-- It is known of the line of a fault, unless it is a fault of the output. -/
def OfFault : Fault → Prop
  | .runtime line _ => C.line line
  | .output _ => True

/-- It is known of what happens next. -/
def OfControl : Control → Prop
  | .eval e => C.expr e
  | .exec s => C.stmt s
  | .value v => C.value i v
  | .flow f => C.value i f.result
  | .fault f => C.OfFault f

/-- It is known of all that a machine carries. -/
structure OfMachine (m : Machine) : Prop where
  control : C.OfControl i m.control
  frames : ∀ frame ∈ m.frames, C.OfFrame i frame
  state : C.OfState i m.state

/-- It is known of a value, or of the line of a fault. -/
def OfAnswer : Except Fault Value → Prop
  | .ok v => C.value i v
  | .error f => C.OfFault f

/-- Later it is known of the answer of an operation and of the state after it. -/
def Gives (r : Except Fault Value × Interpreter) : Prop :=
  ∃ j, C.Before i j ∧ C.OfAnswer j r.1 ∧ C.OfState j r.2

/-- Later it is known of all that a machine carries. -/
def Follows (m : Machine) : Prop :=
  ∃ j, C.Before i j ∧ C.OfMachine j m

/-- If it is known of the methods of a class that is being declared, then it is known of the
class. -/
def Admits (st : Interpreter) (name : Token) (superclass : Option Class)
    (methods : List FunctionDecl) : Prop :=
  ∀ j, C.Before i j → C.store j st.globals (st.makeMethods name superclass methods).2.store →
    (∀ c, superclass = some c → C.value j (.cls c)) →
    (∀ n c, (st.makeMethods name superclass methods).1.find? n = some c → C.value j (.closure c)) →
    ∃ k, C.Before j k ∧
      C.store k st.globals (st.makeMethods name superclass methods).2.store.addIdentity ∧
      C.value k (.cls (st.declaredClass name superclass methods))

/-- It is known of what the next step of a machine makes or writes. -/
structure Allows (m : Machine) : Prop where
  field : ∀ o name v, m.Writes o name v →
    C.store i m.state.globals (m.state.store.setField o.id name v)
  object : ∀ o, m.Creates o → C.value i (.cls o.cls) →
    C.store i m.state.globals m.state.store.addObject ∧ C.value i (.object o)
  cls : ∀ name superclass methods,
    m.DeclaresClass superclass methods (m.state.declaredClass name superclass methods) →
    C.Admits i m.state name superclass methods

variable {C} {i} {j : C.Stage} {frame : Frame} {frames : List Frame} {v : Value}

/-- What is known of a frame stays known. -/
theorem OfFrame.mono (h : C.OfFrame i frame) (hij : C.Before i j) : C.OfFrame j frame := by
  cases frame with
  | binaryRight left operator => exact ⟨C.value_mono hij h.1, h.2⟩
  | argument target paren done todo => exact ⟨fun v hv => C.value_mono hij (h.1 v hv), h.2⟩
  | setValue | construct | initializer => exact C.value_mono hij h
  | leave env => exact C.env_mono hij h
  | _ => exact h

theorem frames_mono (h : ∀ frame ∈ frames, C.OfFrame i frame) (hij : C.Before i j) :
    ∀ frame ∈ frames, C.OfFrame j frame :=
  fun frame hf => (h frame hf).mono hij

/-- Operators fail on their own line, and what they give leads nowhere. -/
theorem ofAnswer_of_operates {line : Nat} {r : Except Fault Value} (h : Operates line r)
    (hline : C.line line) : C.OfAnswer i r := by
  cases h with
  | value h => exact C.plain h
  | fault => exact hline

/-- The value of a variable, or a fault on the line where the variable is named. -/
theorem ofAnswer_found {name : String} {line : Nat} (h : C.line line) {r : Option Value}
    (hr : ∀ v, r = some v → C.value i v) : C.OfAnswer i (Interpreter.found name line r) := by
  cases r with
  | none => exact h
  | some v => exact hr v rfl

/-! ## Operations -/

namespace OfState

variable {st : Interpreter} {o : Object} {bindings : NameTable Value} {env : Env} {method : Closure}
  {superclass : Option Class} (h : C.OfState i st)

include h

theorem gives {r : Except Fault Value} (hr : C.OfAnswer i r) : C.Gives i (r, st) :=
  ⟨i, C.refl i, hr, h⟩

theorem leave (henv : C.env i env) : C.OfState i (st.leave env) :=
  ⟨h.store, henv, h.bindings, h.fields⟩

/-- Writing a variable that is there. -/
theorem put (scope : ScopeId) (name : String) (hv : C.value i v) :
    C.OfState i (st.put scope name v) where
  store := C.put h.store scope name v
  env := h.env
  bindings other n w hw := by
    rcases Store.of_find?_put hw with rfl | hw
    · exact hv
    · exact h.bindings other n w hw
  fields := h.fields

/-- Declaring a variable. -/
theorem define (name : String) (hv : C.value i v) : C.OfState i (st.define name v) := by
  unfold Interpreter.define Store.define
  split
  · exact h.put _ name hv
  · exact h

theorem setField (name : String) (hs : C.store i st.globals (st.store.setField o.id name v))
    (hv : C.value i v) : C.OfState i (st.setField o name v) where
  store := hs
  env := h.env
  bindings := h.bindings
  fields other n w hw := by
    rcases Store.of_field?_setField hw with rfl | hw
    · exact hv
    · exact h.fields other n w hw

theorem addObject (hs : C.store i st.globals st.store.addObject) :
    C.OfState i { st with store := st.store.addObject } where
  store := hs
  env := h.env
  bindings := h.bindings
  fields id name v hv := h.fields id name v ((st.store.field?_addObject id name).symm.trans hv)

/-- A state that differs in its identities only. -/
theorem identities (hij : C.Before i j) {n : Identity}
    (hs : C.store j st.globals { st.store with nextIdentity := n }) :
    C.OfState j { st with store := { st.store with nextIdentity := n } } where
  store := hs
  env := C.env_mono hij h.env
  bindings scope name v hv := C.value_mono hij (h.bindings scope name v hv)
  fields id name v hv := C.value_mono hij (h.fields id name v hv)

theorem addIdentity : ∃ j, C.Before i j ∧ C.OfState j st.addIdentity := by
  obtain ⟨j, hij, hs⟩ := C.addIdentity h.store
  exact ⟨j, hij, h.identities hij hs⟩

/-- A scope is made in an environment of which it is known. -/
theorem addScope (henv : C.env i env) (hb : ∀ name v, bindings.find? name = some v → C.value i v) :
    ∃ j, C.Before i j ∧ C.OfState j (st.addScope bindings) ∧
      C.env j (st.store.nextScope :: env) := by
  obtain ⟨j, hij, hs, hinner⟩ := C.addScope h.store henv bindings
  refine ⟨j, hij, ⟨hs, C.env_mono hij h.env, ?_, ?_⟩, hinner⟩
  · intro scope name v hv
    rcases Store.of_find?_addScope hv with hv | hv
    · exact C.value_mono hij (hb name v hv)
    · exact C.value_mono hij (h.bindings scope name v hv)
  · exact fun id name v hv => C.value_mono hij (h.fields id name v hv)

/-- A scope with one variable. -/
theorem addVariable (henv : C.env i env) (name : String) (hv : C.value i v) : ∃ j, C.Before i j ∧
    C.OfState j (st.addScope (NameTable.insert ∅ name v)) ∧ C.env j (st.store.nextScope :: env) :=
  h.addScope henv fun _ _ hw => (NameTable.of_find?_singleton hw).2 ▸ hv

/-- Entering a scope that holds known values. -/
theorem enter (henv : C.env i env) (hb : ∀ name v, bindings.find? name = some v → C.value i v) :
    ∃ j, C.Before i j ∧ C.OfState j (st.enter env bindings) := by
  obtain ⟨j, hij, hst, hinner⟩ := h.addScope henv hb
  exact ⟨j, hij, hst.leave hinner⟩

theorem getAt {d : Nat} {name : String} (hv : st.store.getAt? env d name = some v) :
    C.value i v := by
  obtain ⟨scope, hfind⟩ := Store.exists_find?_of_getAt? hv
  exact h.bindings scope name v hfind

/-- Looking up a variable gives a known value. -/
theorem lookUp (id : NodeId) {name : Token} (hname : C.line name.line) :
    C.Gives i (st.lookUp id name, st) := by
  refine h.gives (ofAnswer_found hname fun v hv => ?_)
  split at hv
  · exact h.getAt hv
  · obtain ⟨scope, -, hfind⟩ := List.exists_of_findSome?_eq_some hv
    exact h.bindings scope _ v hfind

theorem assign (id : NodeId) {name : Token} (hname : C.line name.line) (hv : C.value i v) :
    C.Gives i (st.assign id name v) := by
  unfold Interpreter.assign
  split
  · exact (h.put _ _ hv).gives hv
  · exact h.gives hname

/-- A method is bound in a scope that is made in its environment, and keeps its code. -/
theorem bind (hm : C.value i (.closure method)) (ho : C.value i (.object o)) : ∃ j, C.Before i j ∧
    C.value j (.closure (st.bind method o).1) ∧ C.OfState j (st.bind method o).2 := by
  obtain ⟨henv, hcode⟩ := C.closure.mp hm
  obtain ⟨j, hij, hst, hinner⟩ := h.addVariable henv "this" ho
  obtain ⟨k, hjk, hst⟩ := hst.addIdentity
  exact ⟨k, C.trans hij hjk, C.closure.mpr ⟨C.env_mono hjk hinner, hcode⟩, hst⟩

theorem bindFound (ho : C.value i (.object o)) {name : Token} (hname : C.line name.line)
    {method : Option Closure} (hm : ∀ c, method = some c → C.value i (.closure c)) :
    C.Gives i (st.bindFound o name method) := by
  cases method with
  | none => exact h.gives hname
  | some c => exact h.bind (hm c rfl) ho

/-- Reading a property gives a known value. -/
theorem property (ho : C.value i (.object o)) {name : Token} (hname : C.line name.line) :
    C.Gives i (st.property o name) := by
  unfold Interpreter.property
  split
  · next v hv => exact h.gives (h.fields _ _ v hv)
  · exact h.bindFound ho hname fun c hc => C.method ho rfl hc

/-- Reading a method of `super` gives a known value. -/
theorem superMethod (id : NodeId) {word method : Token} (hword : C.line word.line)
    (hmethod : C.line method.line) : C.Gives i (st.superMethod id word method) := by
  unfold Interpreter.superMethod
  split
  · next c o hb =>
    obtain ⟨⟨_, hc⟩, _, ho⟩ := Interpreter.exists_find?_of_superBinding hb
    exact h.bindFound (h.bindings _ _ _ ho) hmethod fun m hm => C.method (h.bindings _ _ _ hc) rfl
      hm
  · next f hb =>
    unfold Interpreter.superBinding at hb
    split at hb
    · cases hb
      exact h.gives hword
    · split at hb <;> cases hb <;> exact h.gives hword

theorem closeMethods (env : Env) (methods : List FunctionDecl) (table : NameTable Closure) :
    ∃ j, C.Before i j ∧ C.OfState j (st.closeMethods env methods table).2 := by
  induction methods generalizing i st table with
  | nil => exact ⟨i, C.refl i, h⟩
  | cons decl rest ih =>
    obtain ⟨j, hij, hst⟩ := h.addIdentity
    obtain ⟨k, hjk, hst⟩ := ih hst _
    exact ⟨k, C.trans hij hjk, hst⟩

theorem enterSuperclass (hs : ∀ c, superclass = some c → C.value i (.cls c)) : ∃ j, C.Before i j ∧
    C.env j (st.enterSuperclass superclass).1 ∧ C.OfState j (st.enterSuperclass superclass).2 := by
  cases superclass with
  | none => exact ⟨i, C.refl i, h.env, h⟩
  | some c =>
    obtain ⟨j, hij, hst, hinner⟩ := h.addVariable h.env "super" (hs c rfl)
    exact ⟨j, hij, hinner, hst⟩

/-- Later it is known of the methods of a class that is being declared. -/
theorem makeMethods (name : Token) (hs : ∀ c, superclass = some c → C.value i (.cls c))
    {methods : List FunctionDecl} (hmethods : ∀ d ∈ methods, C.function d) : ∃ j, C.Before i j ∧
      C.OfState j (st.makeMethods name superclass methods).2 ∧
      ∀ n c, (st.makeMethods name superclass methods).1.find? n = some c →
        C.value j (.closure c) := by
  obtain ⟨j, hij, henv, hst⟩ :=
    (h.define name.lexeme (C.plain (v := .nil) rfl)).enterSuperclass hs
  obtain ⟨k, hjk, hst⟩ := hst.closeMethods _ methods ∅
  refine ⟨k, C.trans hij hjk, hst, fun n c hc => ?_⟩
  obtain ⟨hdecl, hclosed, -⟩ := Interpreter.closed_of_closeMethods hc
  exact C.closure.mpr ⟨hclosed ▸ C.env_mono hjk henv, hmethods _ hdecl⟩

end OfState

/-! ## Machines that go on -/

section

variable {st : Interpreter} {arguments : List Value} {paren : Token} {control : Control}

theorem Follows.later {m : Machine} (h : C.Follows j m) (hij : C.Before i j) : C.Follows i m := by
  obtain ⟨k, hjk, hm⟩ := h
  exact ⟨k, C.trans hij hjk, hm⟩

theorem Follows.ofGives {r : Except Fault Value × Interpreter} (h : C.Gives i r)
    (hframes : ∀ frame ∈ frames, C.OfFrame i frame) : C.Follows i (Machine.give r frames) := by
  obtain ⟨j, hij, hr, hst⟩ := h
  obtain ⟨f | v, st⟩ := r <;> exact ⟨j, hij, hr, frames_mono hframes hij, hst⟩

variable (hst : C.OfState i st) (hframes : ∀ frame ∈ frames, C.OfFrame i frame)

include hst hframes

theorem Follows.now (hcontrol : C.OfControl i control) : C.Follows i ⟨control, frames, st⟩ :=
  ⟨i, C.refl i, hcontrol, hframes, hst⟩

theorem Follows.push (hcontrol : C.OfControl i control) (hframe : C.OfFrame i frame) :
    C.Follows i ⟨control, frame :: frames, st⟩ :=
  .now hst (List.forall_mem_cons.mpr ⟨hframe, hframes⟩) hcontrol

theorem Follows.normal : C.Follows i ⟨.flow .normal, frames, st⟩ :=
  .now hst hframes (C.plain (v := .nil) rfl)

theorem finish_defineClass {name : Token} (hname : C.line name.line) {superclass : Option Class}
    (hs : ∀ c, superclass = some c → C.value i (.cls c)) {methods : List FunctionDecl}
    (hmethods : ∀ d ∈ methods, C.function d) (hclass : C.Admits i st name superclass methods) :
    C.Follows i (Machine.finish (st.defineClass name superclass methods) frames) := by
  obtain ⟨j, hij, hmade, htable⟩ := hst.makeMethods name hs hmethods
  have hglobals : (st.makeMethods name superclass methods).2.globals = st.globals := by
    have hplace := (Interpreter.define_samePlace st name.lexeme .nil).trans
      (Interpreter.enterSuperclass_samePlace _ superclass)
    exact (Interpreter.closeMethods_samePlace _ _ methods ∅).globals.trans hplace.globals
  have hsuper : ∀ c, superclass = some c → C.value j (.cls c) := fun c hc =>
    C.value_mono hij (hs c hc)
  obtain ⟨k, hjk, hstore, hcls⟩ := hclass j hij (hglobals ▸ hmade.store) hsuper htable
  have hik := C.trans hij hjk
  have hst : C.OfState k (st.makeMethods name superclass methods).2.addIdentity :=
    hmade.identities hjk (by rw [hglobals]; exact hstore)
  refine Follows.later ?_ hik
  unfold Interpreter.defineClass
  dsimp only
  split
  · exact .normal (hst.put _ _ hcls) (frames_mono hframes hik)
  · exact .now hst (frames_mono hframes hik) hname

/-- Starting an expression that is known. -/
theorem stepEval {e : Expr} (he : C.expr e) : C.Follows i (Machine.stepEval e frames st) := by
  cases e with
  | literal l => exact .now hst hframes (C.plain (Value.isPlain_ofLiteral l))
  | grouping inner => exact .now hst hframes (C.grouping he)
  | unary operator right => exact .push hst hframes (C.unary he).2 (C.unary he).1
  | binary left operator right => exact .push hst hframes (C.binary he).1 (C.binary he).2
  | logical left operator right => exact .push hst hframes (C.logical he).1 (C.logical he).2
  | «variable» id name => exact .ofGives (hst.lookUp id (C.name he)) hframes
  | assign id name value => exact .push hst hframes (C.assign he).2 (C.assign he).1
  | call callee paren arguments => exact .push hst hframes (C.application he).1 (C.application he).2
  | get object name => exact .push hst hframes (C.get he).1 (C.get he).2
  | set object name value => exact .push hst hframes (C.set he).1 (C.set he).2
  | thisRef id word => exact .ofGives (hst.lookUp id (C.thisRef he)) hframes
  | superRef id word method =>
    exact .ofGives (hst.superMethod id (C.superRef he).1 (C.superRef he).2) hframes

/-- Starting a statement that is known. -/
theorem stepExec {s : Stmt} (hs : C.stmt s) (hclass : ∀ name methods,
      s = .classDef name none methods → C.Admits i st name none methods) :
    C.Follows i (Machine.stepExec s frames st) := by
  cases s with
  | expression value => exact .push hst hframes (C.expression hs) trivial
  | print value => exact .push hst hframes (C.print hs) trivial
  | var name initializer =>
    cases initializer with
    | none => exact .normal (hst.define _ (C.plain (v := .nil) rfl)) hframes
    | some e => exact .push hst hframes (C.var hs) trivial
  | block body =>
    have hempty : ∀ name v, (∅ : NameTable Value).find? name = some v → C.value i v := by
      intro name v hv
      cases hv
    obtain ⟨j, hij, hinner⟩ := hst.enter hst.env hempty
    have hleave : C.OfFrame j (.leave st.env) := C.env_mono hij hst.env
    refine Follows.later (.push hinner ?_ (C.plain (v := .nil) rfl) (C.block hs)) hij
    exact List.forall_mem_cons.mpr ⟨hleave, frames_mono hframes hij⟩
  | ifThen condition thenBranch =>
    refine .push hst hframes (C.ifThen hs).1 ⟨(C.ifThen hs).2, ?_⟩
    intro s hs
    cases hs
  | ifThenElse condition thenBranch elseBranch =>
    obtain ⟨hcondition, hthen, helse⟩ := C.ifThenElse hs
    refine .push hst hframes hcondition ⟨hthen, ?_⟩
    rintro s ⟨⟩
    exact helse
  | whileLoop condition body => exact .push hst hframes (C.whileLoop hs).1 (C.whileLoop hs)
  | function decl =>
    obtain ⟨j, hij, hst'⟩ := hst.addIdentity
    have hc : C.value j (.closure ⟨st.store.nextIdentity, decl, st.env, false⟩) :=
      C.closure.mpr ⟨C.env_mono hij hst.env, C.declaration hs⟩
    exact (Follows.normal (hst'.define _ hc) (frames_mono hframes hij)).later hij
  | returnWith word value =>
    cases value with
    | none => exact .now hst hframes (C.plain (v := .nil) rfl)
    | some e => exact .push hst hframes (C.returnWith hs) trivial
  | classDef name superclass methods =>
    obtain ⟨hname, hmethods⟩ := C.classDef hs
    cases superclass with
    | none =>
      refine finish_defineClass hst hframes hname ?_ hmethods (hclass name methods rfl)
      intro c hc
      cases hc
    | some e => exact .push hst hframes (C.inherits hs).1 ⟨hname, (C.inherits hs).2, hmethods⟩

/-! ## Calls -/

theorem enterClosure {c : Closure} (hc : C.value i (.closure c))
    (harguments : ∀ v ∈ arguments, C.value i v) :
    C.Follows i (Machine.enterClosure c arguments frames st) := by
  obtain ⟨henv, hcode⟩ := C.closure.mp hc
  have hinit : ∀ frame ∈ (if c.isInitializer then .initializer c :: frames else frames),
      C.OfFrame i frame := by
    split
    · exact List.forall_mem_cons.mpr ⟨hc, hframes⟩
    · exact hframes
  obtain ⟨j, hij, hinner⟩ := hst.enter henv fun _ v hv =>
    harguments v (Machine.mem_of_callVariables hv)
  have hleave : C.OfFrame j (.leave st.env) := C.env_mono hij hst.env
  refine Follows.later (.push hinner ?_ (C.plain (v := .nil) rfl) (C.body hcode).2) hij
  exact List.forall_mem_cons.mpr ⟨hleave, frames_mono hinit hij⟩

theorem instantiate {c : Class} (hc : C.value i (.cls c))
    (hstore : C.store i st.globals st.store.addObject)
    (ho : C.value i (.object ⟨st.store.nextObject, c⟩))
    (harguments : ∀ v ∈ arguments, C.value i v) :
    C.Follows i (Machine.instantiate c arguments frames st) := by
  have hnew := hst.addObject hstore
  unfold Machine.instantiate
  dsimp only
  split
  · next method hm =>
    obtain ⟨j, hij, hbound, hst'⟩ := hnew.bind (C.method hc rfl hm) ho
    have hconstruct : C.OfFrame j (.construct ⟨st.store.nextObject, c⟩) := C.value_mono hij ho
    have hframes' := List.forall_mem_cons.mpr ⟨hconstruct, frames_mono hframes hij⟩
    refine (enterClosure hst' hframes' hbound ?_).later hij
    exact fun v hv => C.value_mono hij (harguments v hv)
  · exact .now hnew hframes ho

theorem callNative (n : Native) (hparen : C.line paren.line) (arguments : List Value) :
    C.Follows i (Machine.give (Machine.callNative n paren arguments st) frames) := by
  obtain ⟨k, heq⟩ := Machine.exists_callNative_eq n paren arguments st
  refine .ofGives ⟨i, C.refl i, ?_, ?_⟩ hframes
  · exact ofAnswer_of_operates (Machine.callNative_operates n paren arguments st) hparen
  · rw [heq]
    exact ⟨hst.store, hst.env, hst.bindings, hst.fields⟩

/-- A call, which makes an object if it calls a class with the right number of arguments. -/
theorem call {callee : Value} (hcallee : C.value i callee) (hparen : C.line paren.line)
    (harguments : ∀ v ∈ arguments, C.value i v)
    (hobject : ∀ c, callee = .cls c → arguments.length = c.arity → st.callDepth < st.maxCallDepth →
      C.store i st.globals st.store.addObject ∧ C.value i (.object ⟨st.store.nextObject, c⟩)) :
    C.Follows i (Machine.call callee paren arguments frames st) := by
  have hfault (fault : RuntimeFault) : C.Follows i ⟨.fault (.runtime paren.line fault), frames,
      st⟩ :=
    .now hst hframes hparen
  unfold Machine.call
  split
  · exact hfault _
  next n harity =>
    by_cases hlength : arguments.length ≠ n
    · rw [if_pos hlength]
      exact hfault _
    by_cases hdepth : st.maxCallDepth ≤ st.callDepth
    · rw [if_neg hlength, if_pos hdepth]
      exact hfault _
    rw [if_neg hlength, if_neg hdepth]
    have hdeeper : C.OfState i { st with callDepth := st.callDepth + 1 } :=
      ⟨hst.store, hst.env, hst.bindings, hst.fields⟩
    have hend : ∀ frame ∈ .endCall :: frames, C.OfFrame i frame :=
      List.forall_mem_cons.mpr ⟨trivial, hframes⟩
    cases callee with
    | native n => exact callNative hdeeper hend n hparen arguments
    | closure c => exact enterClosure hdeeper hend hcallee harguments
    | cls c =>
      cases harity
      obtain ⟨hstore, ho⟩ := hobject c rfl (Decidable.not_not.mp hlength) (Nat.lt_of_not_le hdepth)
      exact instantiate hdeeper hend hcallee hstore ho harguments
    | _ => exact .now hdeeper hend hparen

theorem stepArguments {callee : Value} {done : List Value}
    (hdone : ∀ v ∈ callee :: done, C.value i v) (hparen : C.line paren.line) {todo : List Expr}
    (htodo : ∀ e ∈ todo, C.expr e)
    (hobject : ∀ c, todo = [] → callee = .cls c → done.reverse.length = c.arity →
      st.callDepth < st.maxCallDepth →
      C.store i st.globals st.store.addObject ∧ C.value i (.object ⟨st.store.nextObject, c⟩)) :
    C.Follows i (Machine.stepArguments callee paren done todo frames st) := by
  cases todo with
  | nil =>
    obtain ⟨hcallee, hdone⟩ := List.forall_mem_cons.mp hdone
    refine call hst hframes hcallee hparen ?_ fun c => hobject c rfl
    exact fun v hv => hdone v (List.mem_reverse.mp hv)
  | cons e rest =>
    obtain ⟨he, hrest⟩ := List.forall_mem_cons.mp htodo
    exact .push hst hframes he ⟨hdone, hparen, hrest⟩

/-! ## Steps -/

/-- A known value for a known frame. -/
theorem stepValue (hv : C.value i v) (hframe : C.OfFrame i frame)
    (hallows : C.Allows i ⟨.value v, frame :: frames, st⟩) :
    C.Follows i (Machine.stepValue v frame frames st) := by
  have hvalue : C.Follows i ⟨.value v, frames, st⟩ := .now hst hframes hv
  have hnormal : C.Follows i ⟨.flow .normal, frames, st⟩ := .normal hst hframes
  have hobject (c : Class) {paren : Token} {arguments : List Value}
      (hc : Machine.Calls ⟨.value v, frame :: frames, st⟩ (.cls c) paren arguments frames)
      (hlength : arguments.length = c.arity) (hdepth : st.callDepth < st.maxCallDepth) :=
    hallows.object ⟨st.store.nextObject, c⟩ ⟨rfl, hdepth, paren, arguments, frames, hc, hlength⟩
  cases frame with
  | unary operator =>
    exact .ofGives (hst.gives (ofAnswer_of_operates (Value.unary_operates operator v) hframe))
      hframes
  | binaryLeft operator right => exact .push hst hframes hframe.2 ⟨hv, hframe.1⟩
  | binaryRight left operator =>
    have hoperates := Value.binary_operates left operator v
    exact .ofGives (hst.gives (ofAnswer_of_operates hoperates hframe.2)) hframes
  | logical operator right =>
    simp only [Machine.stepValue]
    split
    · exact hvalue
    · exact .now hst hframes hframe
  | assign id name => exact .ofGives (hst.assign id hframe hv) hframes
  | callee paren arguments =>
    refine stepArguments hst hframes (List.forall_mem_singleton.mpr hv) hframe.1 hframe.2 ?_
    rintro c rfl rfl hlength hdepth
    exact hobject c (.plain rfl rfl) hlength hdepth hv
  | argument target paren done todo =>
    obtain ⟨hdone, hparen, htodo⟩ := hframe
    obtain ⟨htarget, hdone⟩ := List.forall_mem_cons.mp hdone
    have hall := List.forall_mem_cons.mpr ⟨htarget, List.forall_mem_cons.mpr ⟨hv, hdone⟩⟩
    refine stepArguments hst hframes hall hparen htodo ?_
    rintro c rfl rfl hlength hdepth
    exact hobject c (.applied rfl rfl) hlength hdepth htarget
  | get name =>
    cases v with
    | object o => exact .ofGives (hst.property hv hframe) hframes
    | _ => exact .now hst hframes hframe
  | setObject name value =>
    cases v with
    | object o => exact .push hst hframes hframe.2 hv
    | _ => exact .now hst hframes hframe.1
  | setValue o name =>
    have hstore := hallows.field o name.lexeme v ⟨name, frames, rfl, rfl, rfl⟩
    exact .now (hst.setField _ hstore hv) hframes hv
  | discard => exact hnormal
  | print =>
    have hprint : C.OfState i (st.print v).2 := ⟨hst.store, hst.env, hst.bindings, hst.fields⟩
    have hfault : ∀ f, (st.print v).1 = .error f → C.OfFault f := by
      intro f hf
      simp only [Interpreter.print] at hf
      split at hf <;> cases hf
      trivial
    show C.Follows i (Machine.finish (st.print v) frames)
    generalize st.print v = r at hprint hfault
    obtain ⟨f | u, st'⟩ := r
    · exact .now hprint hframes (hfault f rfl)
    · exact .normal hprint hframes
  | declare name => exact .normal (hst.define _ hv) hframes
  | branch thenBranch elseBranch =>
    simp only [Machine.stepValue]
    split
    · exact .now hst hframes hframe.1
    · cases elseBranch with
      | none => exact hnormal
      | some s => exact .now hst hframes (hframe.2 s rfl)
  | loopTest condition body =>
    simp only [Machine.stepValue]
    split
    · exact .push hst hframes hframe.2 hframe
    · exact hnormal
  | returning => exact .now hst hframes hv
  | superclass name line methods =>
    obtain ⟨hname, hline, hmethods⟩ := hframe
    cases v with
    | cls c =>
      refine finish_defineClass hst hframes hname ?_ hmethods
        (hallows.cls _ _ _ (.inheriting rfl rfl))
      rintro c' ⟨⟩
      exact hv
    | _ => exact .now hst hframes hline
  | endCall => exact .now ⟨hst.store, hst.env, hst.bindings, hst.fields⟩ hframes hv
  | construct o => exact .now hst hframes hframe
  | _ => exact .push hst hframes (C.plain (v := .nil) rfl) hframe

theorem stepFlow {f : Flow} (hf : C.value i f.result) (hframe : C.OfFrame i frame) :
    C.Follows i (Machine.stepFlow f frame frames st) := by
  have hend : C.Follows i ⟨.flow f, frames, st⟩ := .now hst hframes hf
  cases frame with
  | sequence rest =>
    cases f with
    | returned v => exact hend
    | normal =>
      cases rest with
      | nil => exact hend
      | cons s rest =>
        obtain ⟨hs, hrest⟩ := List.forall_mem_cons.mp hframe
        exact .push hst hframes hs hrest
  | loopBody condition body =>
    cases f with
    | returned v => exact hend
    | normal => exact .push hst hframes hframe.1 hframe
  | leave env => exact .now (hst.leave hframe) hframes hf
  | initializer c =>
    -- The name of an initializer is where a missing `this` would be reported.
    have hline := (C.body (C.closure.mp hframe).2).1
    exact .ofGives (hst.gives (ofAnswer_found hline fun v hv => hst.getAt hv)) hframes
  | _ => exact .push hst hframes hf hframe

theorem stepFault {f : Fault} (hf : C.OfFault f) (hframe : C.OfFrame i frame) :
    C.Follows i (Machine.stepFault f frame frames st) := by
  cases frame with
  | leave env => exact .now (hst.leave hframe) hframes hf
  | endCall => exact .now ⟨hst.store, hst.env, hst.bindings, hst.fields⟩ hframes hf
  | _ => exact .now hst hframes hf

end

/-- **What is known of all that a machine carries, and of what its next step makes or writes, is
known of all that the machine carries after the step.** -/
theorem step {m : Machine} (h : C.OfMachine i m) (hallows : C.Allows i m) : C.Follows i m.step := by
  obtain ⟨control, frames, st⟩ := m
  obtain ⟨hcontrol, hframes, hst⟩ := h
  cases control with
  | eval e => exact stepEval hst hframes hcontrol
  | exec s =>
    refine stepExec hst hframes hcontrol ?_
    rintro name methods rfl
    exact hallows.cls _ _ _ (.plain rfl)
  | value v =>
    cases frames with
    | nil => exact .now hst hframes hcontrol
    | cons frame frames =>
      obtain ⟨hframe, hframes⟩ := List.forall_mem_cons.mp hframes
      exact stepValue hst hframes hcontrol hframe hallows
  | flow f =>
    cases frames with
    | nil => exact .now hst hframes hcontrol
    | cons frame frames =>
      obtain ⟨hframe, hframes⟩ := List.forall_mem_cons.mp hframes
      exact stepFlow hst hframes hcontrol hframe
  | fault f =>
    cases frames with
    | nil => exact .now hst hframes hcontrol
    | cons frame frames =>
      obtain ⟨hframe, hframes⟩ := List.forall_mem_cons.mp hframes
      exact stepFault hst hframes hcontrol hframe

/-- Every value that a machine holds is known. -/
theorem OfMachine.holds {m : Machine} (h : C.OfMachine i m) (hv : m.Holds v) : C.value i v := by
  cases hv with
  | «variable» hv => exact h.state.bindings _ _ v hv
  | field hv => exact h.state.fields _ _ v hv
  | control hv =>
    obtain ⟨control, frames, st⟩ := m
    cases control with
    | value w => exact List.mem_singleton.mp hv ▸ h.control
    | flow f =>
      cases f with
      | normal => cases hv
      | returned w => exact List.mem_singleton.mp hv ▸ h.control
    | _ => cases hv
  | @frame frame _ hf hv =>
    have hframe := h.frames frame hf
    cases frame with
    | binaryRight left operator => exact List.mem_singleton.mp hv ▸ hframe.1
    | argument target paren done todo => exact hframe.1 v hv
    | setValue | construct | initializer => exact List.mem_singleton.mp hv ▸ hframe
    | _ => cases hv

/-- Before anything has run, there are native functions only. -/
theorem ofState_new {natives : List Native} {output : Output} {maxCallDepth : Nat}
    {clock : Nat → Float}
    (hs : C.store i 0 (Interpreter.new natives output maxCallDepth clock).store)
    (henv : C.env i [0]) : C.OfState i (.new natives output maxCallDepth clock) where
  store := hs
  env := henv
  bindings scope name v hv := by
    obtain ⟨n, rfl⟩ := Interpreter.native_of_find?_new hv
    exact C.native
  fields id name v hv := by cases (Interpreter.field?_new id name).symm.trans hv

end Carrying

end Lox
