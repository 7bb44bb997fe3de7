import Std.Data.HashMap
import Lox.Diagnostic
import Lox.Store.NameTable
import Lox.Syntax.Basic

/-!
# Static scopes

Before a program runs, a walk over its tree finds for each node that names a local variable how many
scopes out that variable lives. This module holds what the walk knows at a place in the tree, and
the operations on it. The walk itself is `Stmt.resolve`.

A scope is a table of the names declared in it so far. A name is declared first and defined after
its initial value has been looked at; in between its mark is `false`. The top level is no scope.
-/

namespace Lox

/-- The kind of the function around a place. -/
inductive FunctionKind where
  | none
  | function
  | method
  | initializer
  deriving DecidableEq, Repr

/-- The kind of the class around a place. -/
inductive ClassKind where
  | none
  | plain
  | subclass
  deriving DecidableEq, Repr

/-- A rule that a program breaks. -/
inductive StaticFault where
  | returnAtTopLevel
  | returnFromInitializer
  | inheritsFromItself
  | localInOwnInitializer
  | globalInOwnInitializer
  | thisOutsideClass
  | superOutsideClass
  | superWithoutSuperclass
  | alreadyDeclared
  deriving DecidableEq, Repr

/-- The wording of a broken rule. -/
def StaticFault.message : StaticFault → String
  | returnAtTopLevel => "Can't return from top-level code."
  | returnFromInitializer => "Can't return a value from an initializer."
  | inheritsFromItself => "A class can't inherit from itself."
  | localInOwnInitializer => "Can't read local variable in its own initializer."
  | globalInOwnInitializer => "Can't read global variable in its own initializer."
  | thisOutsideClass => "Can't use 'this' outside of a class."
  | superOutsideClass => "Can't use 'super' outside of a class."
  | superWithoutSuperclass => "Can't use 'super' in a class with no superclass."
  | alreadyDeclared => "Already a variable with this name in this scope."

/-- A broken rule and where it was noticed. -/
structure StaticError where
  fault : StaticFault
  line : Nat
  location : String
  deriving DecidableEq, Repr

/-- The report of a broken rule. -/
def StaticError.diagnostic (e : StaticError) : Diagnostic :=
  .resolve e.line e.location e.fault.message

/-- How many scopes out the variable of a node lives, for the nodes of local variables. -/
abbrev Distances := Std.HashMap NodeId Nat

/-- What is known at a place in the tree. -/
structure Resolver where
  /-- The scopes around the place, the innermost first, with the names declared so far. -/
  scopes : List (NameTable Bool)
  functionKind : FunctionKind
  classKind : ClassKind
  /-- The names defined so far at the top level. -/
  defined : List String
  /-- The global variables that exist before the program runs. -/
  isGlobal : String → Bool
  /-- The new global variable whose initial value is being looked at. -/
  initializing : Option String
  distances : Distances
  /-- The broken rules so far, in order. -/
  errors : List StaticError
  /-- Whether a rule was broken so far. -/
  hadError : Bool

namespace Resolver

/-- Before the first statement. -/
def start (isGlobal : String → Bool) (distances : Distances) : Resolver :=
  { scopes := []
    functionKind := .none
    classKind := .none
    defined := []
    isGlobal := isGlobal
    initializing := none
    distances := distances
    errors := []
    hadError := false }

/-- Reports a broken rule at a token, and notes that one was broken. -/
def report (r : Resolver) (t : Token) (fault : StaticFault) : Resolver :=
  { r with errors := r.errors ++ [⟨fault, t.line, t.location⟩], hadError := true }

/-- Reports a broken rule at a token if it is broken. -/
def reportIf (r : Resolver) (broken : Bool) (t : Token) (fault : StaticFault) : Resolver :=
  if broken then r.report t fault else r

/-! ## Scopes -/

/-- Enters a scope. -/
def push (r : Resolver) (scope : NameTable Bool) : Resolver :=
  { r with scopes := scope :: r.scopes }

/-- Leaves a scope. -/
def pop (r : Resolver) : Resolver :=
  { r with scopes := r.scopes.tail }

/-- Whether the innermost scope declares a name. -/
def isDeclaredHere (r : Resolver) (name : String) : Bool :=
  match r.scopes with
  | scope :: _ => scope.contains name
  | [] => false

/-- Whether the innermost scope declares a name that is not defined yet. -/
def isUndefinedHere (r : Resolver) (name : String) : Bool :=
  match r.scopes with
  | scope :: _ => scope.find? name == some false
  | [] => false

/-- Marks a name in the innermost scope. -/
def mark (r : Resolver) (name : String) (isDefined : Bool) : Resolver :=
  match r.scopes with
  | scope :: outer => { r with scopes := scope.insert name isDefined :: outer }
  | [] => r

/-- Declares a name in the innermost scope. -/
def declare (r : Resolver) (name : Token) : Resolver :=
  (r.mark name.lexeme false).reportIf (r.isDeclaredHere name.lexeme) name .alreadyDeclared

/-- Defines a name in the innermost scope, or at the top level. -/
def define (r : Resolver) (name : Token) : Resolver :=
  match r.scopes with
  | [] => { r with defined := name.lexeme :: r.defined }
  | _ :: _ => r.mark name.lexeme true

/-- Declares and defines names in turn. -/
def introduce (r : Resolver) (names : List Token) : Resolver :=
  names.foldl (fun r name => (r.declare name).define name) r

/-- Whether a name is a global variable before the statement at hand. -/
def knowsGlobal (r : Resolver) (name : String) : Bool :=
  r.defined.contains name || r.isGlobal name

/-- The number of scopes inside the innermost one that declares a name. -/
def distance? (r : Resolver) (name : String) : Option Nat :=
  r.scopes.findIdx? fun scope => scope.contains name

/-- Records the distance of a node, if its name is a local variable. -/
def record (r : Resolver) (id : NodeId) (name : String) : Resolver :=
  match r.distance? name with
  | some d => { r with distances := r.distances.insert id d }
  | none => r

/-- Marks which global variable is getting its initial value. Only a new one counts. -/
def beginInitializer (r : Resolver) (name : String) : Resolver :=
  if r.scopes.isEmpty && !r.knowsGlobal name then { r with initializing := some name } else r

/-- No global variable is getting its initial value. -/
def endInitializer (r : Resolver) : Resolver :=
  { r with initializing := none }

end Resolver

end Lox
