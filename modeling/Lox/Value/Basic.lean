import Lox.Store.NameTable
import Lox.Syntax.Basic

/-!
# Values

Values are small and never change: what a program can change lives in the store, in the cells of
scopes and in the fields of objects, and values refer to it by number.

* An environment is the list of the scopes around a place in the program, the innermost first.
  Closures carry the environment in which they were made.
* A class carries what it was when it was made: its own methods and those of the classes it inherits
  from.
* Closures and classes are told apart by an identity, objects by their number.
-/

namespace Lox

/-- The number of a scope in the store. -/
abbrev ScopeId := Nat

/-- The number of an object in the store. -/
abbrev ObjectId := Nat

/-- The scopes around a place, the innermost first. -/
abbrev Env := List ScopeId

/-- What tells closures from each other, and classes. -/
abbrev Identity := Nat

/-- A function with the environment in which it was declared. -/
structure Closure where
  identity : Identity
  decl : FunctionDecl
  env : Env
  /-- Whether it is the `init` method of a class. -/
  isInitializer : Bool

/-- What one class declaration adds. -/
structure ClassBody where
  identity : Identity
  name : String
  methods : NameTable Closure

/-- A class: its own body and those of the classes it inherits from, the nearest first. -/
structure Class where
  body : ClassBody
  ancestors : List ClassBody

/-- A reference to an object: its number and its class. Its fields are in the store. -/
structure Object where
  id : ObjectId
  cls : Class

/-- A value as a native function sees it. -/
structure Sight where
  /-- The name of the type of the value. -/
  typeName : String
  text : String
  isTruthy : Bool
  /-- The value, if it is a number. -/
  number? : Option Float

/-- A function that the host provides. Whatever it does, it gets hold of no function, class or
object: it sees its arguments from outside and the time at the call, and answers with a constant or
fails with a message. -/
structure Native where
  name : String
  /-- The number of arguments it takes. -/
  arity : Nat
  answer : Float → List Sight → Except String Literal

/-- The values of Lox. -/
inductive Value where
  | nil
  | bool (b : Bool)
  | number (x : Float)
  | string (s : String)
  | native (n : Native)
  | closure (c : Closure)
  | cls (c : Class)
  | object (o : Object)

namespace Closure

/-- The name of a function. -/
def name (c : Closure) : String :=
  c.decl.name.lexeme

/-- The number of arguments it takes. -/
def arity (c : Closure) : Nat :=
  c.decl.params.length

end Closure

namespace Class

/-- The name of a class. -/
def name (c : Class) : String :=
  c.body.name

/-- The body of a class and those it inherits from, the nearest first. -/
def lineage (c : Class) : List ClassBody :=
  c.body :: c.ancestors

/-- The class that a class inherits from. -/
def superclass? (c : Class) : Option Class :=
  match c.ancestors with
  | [] => none
  | b :: rest => some ⟨b, rest⟩

/-- A class with a body of its own that inherits from another. -/
def extend (body : ClassBody) : Option Class → Class
  | none => ⟨body, []⟩
  | some c => ⟨body, c.lineage⟩

/-- The method of a name: that of the nearest body that has one. -/
def findMethod? (c : Class) (name : String) : Option Closure :=
  c.lineage.findSome? fun b => b.methods.find? name

/-- The number of arguments that making an object takes. -/
def arity (c : Class) : Nat :=
  ((c.findMethod? "init").map Closure.arity).getD 0

end Class

namespace Value

/-- Only `nil` and `false` count as false. -/
def isTruthy : Value → Bool
  | nil => false
  | bool b => b
  | _ => true

/-- Whether two values are equal: numbers as numbers, texts by content, functions, classes and
objects only to themselves, and nothing to a value of another type. A native function is the only
one of its name. -/
def same : Value → Value → Bool
  | nil, nil => true
  | bool a, bool b => a == b
  | number a, number b => a == b
  | string a, string b => a == b
  | native a, native b => a.name == b.name
  | closure a, closure b => a.identity == b.identity
  | cls a, cls b => a.body.identity == b.body.identity
  | object a, object b => a.id == b.id
  | _, _ => false

/-- The name of the type of a value. -/
def typeName : Value → String
  | nil => "nil"
  | bool _ => "bool"
  | number _ => "number"
  | string _ => "string"
  | native _ => "native function"
  | closure _ => "function"
  | cls _ => "class"
  | object _ => "instance"

/-- The value of a constant. -/
def ofLiteral : Literal → Value
  | .number x => number x
  | .string s => string s
  | .true => bool true
  | .false => bool false
  | .nil => nil

end Value

end Lox
