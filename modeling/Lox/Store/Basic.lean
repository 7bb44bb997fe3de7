import Lox.Value.Basic

/-!
# The store

All that a running program can change: the variables of every scope and the fields of every object.
Scopes and objects are never taken away, so numbers stay good, and a scope that several environments
share is one and the same for all of them.

Variables are reached in two ways: by search outwards from the innermost scope (`get?`, `assign?`),
or in the scope a fixed number of steps out (`getAt?`, `assignAt?`).
-/

namespace Lox

/-- The scopes and the objects of a program. -/
structure Store where
  /-- The variables of each scope. -/
  scopes : Array (NameTable Value)
  /-- The fields of each object. -/
  objects : Array (NameTable Value)
  /-- The first identity not yet given to a closure or a class. -/
  nextIdentity : Identity

namespace Store

/-- The store without scopes. -/
def empty : Store := ⟨#[], #[], 0⟩

/-! ## Scopes -/

/-- The number that the next scope gets. -/
def nextScope (s : Store) : ScopeId :=
  s.scopes.size

/-- Adds a scope with some variables. -/
def addScope (s : Store) (bindings : NameTable Value) : Store :=
  { s with scopes := s.scopes.push bindings }

/-- The value of a variable of one scope. -/
def find? (s : Store) (scope : ScopeId) (name : String) : Option Value :=
  match s.scopes[scope]? with
  | some t => t.find? name
  | none => none

/-- Whether one scope has a variable. -/
def contains (s : Store) (scope : ScopeId) (name : String) : Bool :=
  (s.find? scope name).isSome

/-- Gives a variable of one scope a value. -/
def put (s : Store) (scope : ScopeId) (name : String) (v : Value) : Store :=
  { s with scopes := s.scopes.modify scope fun t => t.insert name v }

/-- Declares a variable in the innermost scope of an environment. -/
def define (s : Store) (env : Env) (name : String) (v : Value) : Store :=
  match env with
  | scope :: _ => s.put scope name v
  | [] => s

/-- The innermost scope of an environment that has a variable. -/
def binder? (s : Store) (env : Env) (name : String) : Option ScopeId :=
  List.find? (fun scope => s.contains scope name) env

/-- The scope that is `distance` steps out, if it has a variable. -/
def binderAt? (s : Store) (env : Env) (distance : Nat) (name : String) : Option ScopeId :=
  match env[distance]? with
  | some scope => if s.contains scope name then some scope else none
  | none => none

/-- The value of a variable in the innermost scope that has it. -/
def get? (s : Store) (env : Env) (name : String) : Option Value :=
  env.findSome? fun scope => s.find? scope name

/-- The value of a variable in the scope that is `distance` steps out. -/
def getAt? (s : Store) (env : Env) (distance : Nat) (name : String) : Option Value :=
  match env[distance]? with
  | some scope => s.find? scope name
  | none => none

/-- Changes a variable in the innermost scope that has it. -/
def assign? (s : Store) (env : Env) (name : String) (v : Value) : Option Store :=
  match s.binder? env name with
  | some scope => some (s.put scope name v)
  | none => none

/-- Changes a variable in the scope that is `distance` steps out. -/
def assignAt? (s : Store) (env : Env) (distance : Nat) (name : String) (v : Value) : Option Store :=
  match s.binderAt? env distance name with
  | some scope => some (s.put scope name v)
  | none => none

/-! ## Objects -/

/-- The number that the next object gets. -/
def nextObject (s : Store) : ObjectId :=
  s.objects.size

/-- Adds an object without fields. -/
def addObject (s : Store) : Store :=
  { s with objects := s.objects.push ∅ }

/-- The value of a field. -/
def field? (s : Store) (id : ObjectId) (name : String) : Option Value :=
  match s.objects[id]? with
  | some t => t.find? name
  | none => none

/-- Gives a field a value. -/
def setField (s : Store) (id : ObjectId) (name : String) (v : Value) : Store :=
  { s with objects := s.objects.modify id fun t => t.insert name v }

/-- The names of the fields of an object. -/
def fieldNames (s : Store) (id : ObjectId) : List String :=
  match s.objects[id]? with
  | some t => t.names
  | none => []

/-! ## Identities -/

/-- Uses up an identity. -/
def addIdentity (s : Store) : Store :=
  { s with nextIdentity := s.nextIdentity + 1 }

end Store

end Lox
