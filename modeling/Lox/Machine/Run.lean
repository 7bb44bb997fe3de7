import Lox.Machine.Step

/-!
# Running statements and expressions

Each function here takes a budget of steps and gives nothing if that is not enough; with a larger
budget the answer stays the same once there is one.
-/

namespace Lox

/-- How a statement or a program ended. -/
abbrev Ending := Except Fault Flow

namespace Machine

/-- How a machine that executes a statement ended. -/
def ending? : Machine → Option (Ending × Interpreter)
  | ⟨.flow f, [], st⟩ => some (.ok f, st)
  | ⟨.value _, [], st⟩ => some (.ok .normal, st)
  | ⟨.fault f, [], st⟩ => some (.error f, st)
  | _ => none

/-- The result of a machine that evaluates an expression. -/
def result? : Machine → Option (Except Fault Value × Interpreter)
  | ⟨.value v, [], st⟩ => some (.ok v, st)
  | ⟨.flow f, [], st⟩ => some (.ok f.result, st)
  | ⟨.fault f, [], st⟩ => some (.error f, st)
  | _ => none

end Machine

namespace Interpreter

/-- Executes a statement. -/
def execute (budget : Nat) (st : Interpreter) (s : Stmt) : Option (Ending × Interpreter) :=
  (Machine.run budget ⟨.exec s, [], st⟩).ending?

/-- Evaluates an expression. -/
def evaluate (budget : Nat) (st : Interpreter) (e : Expr) :
    Option (Except Fault Value × Interpreter) :=
  (Machine.run budget ⟨.eval e, [], st⟩).result?

/-- Executes statements in an environment, and goes back to the environment before. -/
def executeBlock (budget : Nat) (st : Interpreter) (body : List Stmt) (env : Env) :
    Option (Ending × Interpreter) :=
  (Machine.run budget ⟨.flow .normal, [.sequence body, .leave st.env], st.leave env⟩).ending?

/-- Executes statements in turn up to the first fault. A statement that returns does not keep the
next ones from running. -/
def executeAll (budget : Nat) (st : Interpreter) :
    List Stmt → Option (Except Fault Unit × Interpreter)
  | [] => some (.ok (), st)
  | s :: rest =>
    match st.execute budget s with
    | some (.ok _, st) => st.executeAll budget rest
    | some (.error f, st) => some (.error f, st)
    | none => none

/-- Runs a program and flushes the output. A fault of the program counts more than one of
flushing. -/
def interpret (budget : Nat) (st : Interpreter) (program : List Stmt) :
    Option (Except Fault Unit × Interpreter) :=
  match st.executeAll budget program with
  | some (.ok _, st) => some (st.flush, st)
  | other => other

/-- What is found of a program before it runs. -/
def resolution (st : Interpreter) (program : List Stmt) : Resolution :=
  Resolution.ofProgram (fun name => st.store.contains st.globals name) st.distances program

/-- Looks at a program before it runs, and takes over the distances found. -/
def resolve (st : Interpreter) (program : List Stmt) : List StaticError × Interpreter :=
  let r := st.resolution program
  (r.errors, { st with distances := r.distances })

/-- Records a distance. -/
def recordDistance (st : Interpreter) (id : NodeId) (distance : Nat) : Interpreter :=
  { st with distances := st.distances.insert id distance }

/-- The value of a global variable, for a reader at a line. -/
def global (st : Interpreter) (name : String) (line : Nat) : Except Fault Value :=
  found name line (st.store.get? [st.globals] name)

end Interpreter

end Lox
