import Lox.Machine.Basic

/-!
# What the machine can do in one step

The operations of the language on an interpreter: operators, variables, properties, calls and class
declarations. Each is a function of its own, so that what a step does can be said without the
machine.
-/

namespace Lox

/-! ## Operators -/

namespace Value

/-- The two numbers of an operator that takes numbers only. -/
def numbers (line : Nat) (left right : Value) (f : Float → Float → Value) : Except Fault Value :=
  match left, right with
  | number a, number b => .ok (f a b)
  | _, _ => .error (.runtime line .operandsNotNumbers)

/-- The sum of two numbers, or two texts one after the other. -/
def plus (line : Nat) (left right : Value) : Except Fault Value :=
  match left, right with
  | number a, number b => .ok (number (a + b))
  | string a, string b => .ok (string (a ++ b))
  | _, _ => .error (.runtime line .operandsNotAddable)

/-- The opposite of a number. -/
def negate (line : Nat) : Value → Except Fault Value
  | number a => .ok (number (-a))
  | _ => .error (.runtime line .operandNotNumber)

/-- Applies a unary operator. -/
def unary (operator : Token) (v : Value) : Except Fault Value :=
  match operator.kind with
  | .symbol .minus => v.negate operator.line
  | .symbol .bang => .ok (bool (!v.isTruthy))
  | _ => .error (.runtime operator.line (.invalidUnary operator.lexeme))

/-- Applies a binary operator. Division by zero is no error. -/
def binary (left : Value) (operator : Token) (right : Value) : Except Fault Value :=
  let line := operator.line
  match operator.kind with
  | .symbol .plus => plus line left right
  | .symbol .minus => numbers line left right fun a b => number (a - b)
  | .symbol .star => numbers line left right fun a b => number (a * b)
  | .symbol .slash => numbers line left right fun a b => number (a / b)
  | .symbol .greater => numbers line left right fun a b => bool (a > b)
  | .symbol .greaterEqual => numbers line left right fun a b => bool (a ≥ b)
  | .symbol .less => numbers line left right fun a b => bool (a < b)
  | .symbol .lessEqual => numbers line left right fun a b => bool (a ≤ b)
  | .symbol .equalEqual => .ok (bool (left.same right))
  | .symbol .bangEqual => .ok (bool (!left.same right))
  | _ => .error (.runtime line (.invalidBinary operator.lexeme))

/-- Whether the left operand of a logical operator decides. Any operator but `or` works as `and`. -/
def decides (operator : Token) (left : Value) : Bool :=
  if operator.kind.isKeyword .orWord then left.isTruthy else !left.isTruthy

end Value

/-! ## Native functions -/

/-- What a native function sees of a value. -/
def Value.sight (v : Value) : Sight where
  typeName := v.typeName
  text := v.display
  isTruthy := v.isTruthy
  number? := match v with
    | .number x => some x
    | _ => none

namespace Native

/-- The time in seconds. -/
def clock : Native where
  name := "clock"
  arity := 0
  answer now _ := .ok (.number now)

/-- A native function of one argument that does not look at the time. -/
def ofSight (name : String) (f : Sight → Except String Literal) : Native where
  name := name
  arity := 1
  answer _ arguments := (arguments.head?.map f).getD (.ok .nil)

/-- The sum of two numbers. -/
def add : Native where
  name := "add"
  arity := 2
  answer _ arguments := match arguments.map Sight.number? with
    | [some a, some b] => .ok (.number (a + b))
    | _ => .error "add needs numbers"

/-- Always fails. -/
def fail : Native :=
  ofSight "fail" fun a => .error ("failed: " ++ a.text)

/-- The name of the type of a value. -/
def kind : Native :=
  ofSight "kind" fun a => .ok (.string a.typeName)

/-- Whether a value counts as true. -/
def truthy : Native :=
  ofSight "truthy" fun a => .ok (if a.isTruthy then .true else .false)

/-- The text of a value. -/
def str : Native :=
  ofSight "str" fun a => .ok (.string a.text)

end Native

namespace Interpreter

/-- An interpreter before anything has run, with some native functions as its global variables. -/
def new (natives : List Native) (output : Output) (maxCallDepth : Nat) (clock : Nat → Float) :
    Interpreter :=
  let table := natives.foldl (fun t n => t.insert n.name (.native n)) (∅ : NameTable Value)
  { store := Store.empty.addScope table
    globals := Store.empty.nextScope
    env := [Store.empty.nextScope]
    distances := ∅
    output := output
    callDepth := 0
    maxCallDepth := maxCallDepth
    clock := clock
    readings := 0 }

/-- A clock that shows `start` at first and moves on by a microsecond each time it is read. -/
def clockFrom (start : Float) (reading : Nat) : Float :=
  start + reading.toFloat / 1000000

/-- How many calls may go on at once unless something else is said. -/
def defaultMaxCallDepth : Nat := 4096

/-! ## Variables -/

/-- A variable that a token names, or the fault that it has none. -/
def found (name : String) (line : Nat) : Option Value → Except Fault Value
  | some v => .ok v
  | none => .error (.runtime line (.undefinedVariable name))

/-- The value of the variable that a node names: in the scope at the recorded distance, or
global. -/
def lookUp (st : Interpreter) (id : NodeId) (name : Token) : Except Fault Value :=
  found name.lexeme name.line
    (match st.distances[id]? with
      | some d => st.store.getAt? st.env d name.lexeme
      | none => st.store.get? [st.globals] name.lexeme)

/-- The scope of the variable that a node names. -/
def target? (st : Interpreter) (id : NodeId) (name : String) : Option ScopeId :=
  match st.distances[id]? with
  | some d => st.store.binderAt? st.env d name
  | none => st.store.binder? [st.globals] name

/-- Gives a variable of a scope a value. -/
def put (st : Interpreter) (scope : ScopeId) (name : String) (v : Value) : Interpreter :=
  { st with store := st.store.put scope name v }

/-- Assigns to the variable that a node names; the result is the value. -/
def assign (st : Interpreter) (id : NodeId) (name : Token) (v : Value) :
    Except Fault Value × Interpreter :=
  match st.target? id name.lexeme with
  | some scope => (.ok v, st.put scope name.lexeme v)
  | none => (.error (.runtime name.line (.undefinedVariable name.lexeme)), st)

/-- Declares a variable in the innermost scope. -/
def define (st : Interpreter) (name : String) (v : Value) : Interpreter :=
  { st with store := st.store.define st.env name v }

/-- Adds a scope with some variables. -/
def addScope (st : Interpreter) (bindings : NameTable Value) : Interpreter :=
  { st with store := st.store.addScope bindings }

/-- Enters a new scope with some variables inside an environment. -/
def enter (st : Interpreter) (env : Env) (bindings : NameTable Value) : Interpreter :=
  let scope := st.store.nextScope
  { st with env := scope :: env, store := st.store.addScope bindings }

/-- Goes back to an environment. -/
def leave (st : Interpreter) (env : Env) : Interpreter :=
  { st with env := env }

/-! ## Functions, methods and properties -/

/-- Uses up an identity. -/
def addIdentity (st : Interpreter) : Interpreter :=
  { st with store := st.store.addIdentity }

/-- A closure over an environment. -/
def close (st : Interpreter) (env : Env) (isInitializer : Bool) (decl : FunctionDecl) :
    Closure × Interpreter :=
  (⟨st.store.nextIdentity, decl, env, isInitializer⟩, st.addIdentity)

/-- A method bound to an object: a closure over a scope that holds `this`. -/
def bind (st : Interpreter) (method : Closure) (o : Object) : Closure × Interpreter :=
  let env := st.store.nextScope :: method.env
  (st.addScope (NameTable.insert ∅ "this" (.object o))).close env method.isInitializer method.decl

/-- A method bound to an object as a value, or the fault that there is none. -/
def bindFound (st : Interpreter) (o : Object) (name : Token) :
    Option Closure → Except Fault Value × Interpreter
  | some method =>
    let (c, st) := st.bind method o
    (.ok (.closure c), st)
  | none => (.error (.runtime name.line (.undefinedProperty name.lexeme)), st)

/-- The value of a property: a field, or else a method of the class, bound to the object. -/
def property (st : Interpreter) (o : Object) (name : Token) : Except Fault Value × Interpreter :=
  match st.store.field? o.id name.lexeme with
  | some v => (.ok v, st)
  | none => st.bindFound o name (o.cls.findMethod? name.lexeme)

/-- Stores in a field. -/
def setField (st : Interpreter) (o : Object) (name : String) (v : Value) : Interpreter :=
  { st with store := st.store.setField o.id name v }

/-- The class and the object that `super` stands for at a place. The scope that holds the object is
the one just inside the scope that holds the class. -/
def superBinding (st : Interpreter) (id : NodeId) (word : Token) : Except Fault (Class × Object) :=
  match st.distances[id]? with
  | none => .error (.runtime word.line .superOutsideClass)
  | some d =>
    match st.store.getAt? st.env d "super", st.store.getAt? st.env (d - 1) "this" with
    | none, _ => .error (.runtime word.line (.undefinedVariable "super"))
    | some _, none => .error (.runtime word.line (.undefinedVariable "this"))
    | some (.cls c), some (.object o) => .ok (c, o)
    | some _, some _ => .error (.runtime word.line .invalidSuper)

/-- A method of the superclass, bound to the object that runs. -/
def superMethod (st : Interpreter) (id : NodeId) (word method : Token) :
    Except Fault Value × Interpreter :=
  match st.superBinding id word with
  | .ok (c, o) => st.bindFound o method (c.findMethod? method.lexeme)
  | .error f => (.error f, st)

/-! ## Classes -/

/-- The methods of a class, closed over an environment. Of two methods with one name the last
counts. -/
def closeMethods (st : Interpreter) (env : Env) :
    List FunctionDecl → NameTable Closure → NameTable Closure × Interpreter
  | [], table => (table, st)
  | decl :: rest, table =>
    let (c, st) := st.close env (decl.name.lexeme == "init") decl
    st.closeMethods env rest (table.insert decl.name.lexeme c)

/-- The scope around the methods of a class that inherits holds `super`. -/
def enterSuperclass (st : Interpreter) : Option Class → Env × Interpreter
  | some c => (st.store.nextScope :: st.env, st.addScope (NameTable.insert ∅ "super" (.cls c)))
  | none => (st.env, st)

/-- Declares a class. Its name is declared before its methods are made. -/
def defineClass (st : Interpreter) (name : Token) (superclass : Option Class)
    (methods : List FunctionDecl) : Except Fault Unit × Interpreter :=
  let (env, st) := (st.define name.lexeme .nil).enterSuperclass superclass
  let (table, st) := st.closeMethods env methods ∅
  let cls := Class.extend ⟨st.store.nextIdentity, name.lexeme, table⟩ superclass
  let st := st.addIdentity
  match st.store.binder? st.env name.lexeme with
  | some scope => (.ok (), st.put scope name.lexeme (.cls cls))
  | none => (.error (.runtime name.line (.undefinedVariable name.lexeme)), st)

/-! ## Output -/

/-- Writes the text of a value on a line of its own. -/
def print (st : Interpreter) (v : Value) : Except Fault Unit × Interpreter :=
  let (output, taken) := st.output.write (v.pieces ++ ["\n"])
  (if taken then .ok () else .error (.output .writeRefused), { st with output := output })

/-- Flushes the output. -/
def flush (st : Interpreter) : Except Fault Unit :=
  if st.output.flushFails then .error (.output .flushRefused) else .ok ()

end Interpreter

end Lox
