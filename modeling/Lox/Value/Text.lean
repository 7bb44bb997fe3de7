import Lox.Text.Quoted
import Lox.Value.Basic

/-!
# Values as text

The text of a value is written in pieces, since an output can refuse one piece after it took
another. `Value.describe` is a longer text that also shows what a value is made of.
-/

namespace Lox.Value

/-- The pieces in which the text of a value is written. -/
def pieces : Value → List String
  | nil => ["nil"]
  | bool b => [if b then "true" else "false"]
  | number x => [Number.value x]
  | string s => [s]
  | native n => ["<native fn ", n.name, ">"]
  | closure c => ["<fn ", c.name, ">"]
  | cls c => [c.name]
  | object o => [o.cls.name, " instance"]

/-- The text of a value. -/
def display (v : Value) : String :=
  String.join v.pieces

/-- Quoted names between brackets. -/
def quotedList (names : List String) : String :=
  "[" ++ ", ".intercalate (names.map Quoted.quote) ++ "]"

/-- A truth value. -/
def boolText (b : Bool) : String :=
  if b then "true" else "false"

/-- What a value is made of. `fields` are the names of the fields of an object. -/
def describe (fields : Object → List String) : Value → String
  | nil => "Nil"
  | bool b => "Bool(" ++ boolText b ++ ")"
  | number x => "Number(" ++ Number.description x ++ ")"
  | string s => "String(" ++ Quoted.quote s ++ ")"
  | native n =>
    "NativeFunction(NativeFunction \x7b name: " ++ Quoted.quote n.name ++ ", arity: " ++
      Nat.repr n.arity ++ " \x7d)"
  | closure c =>
    "Function(LoxFunction \x7b name: " ++ Quoted.quote c.name ++ ", arity: " ++ Nat.repr c.arity
      ++ ", is_initializer: " ++ boolText c.isInitializer ++ " \x7d)"
  | cls c =>
    let superclass := match c.superclass? with
      | some s => "Some(" ++ Quoted.quote s.name ++ ")"
      | none => "None"
    "Class(LoxClass \x7b name: " ++ Quoted.quote c.name ++ ", superclass: " ++ superclass
      ++ ", methods: " ++ quotedList c.body.methods.names ++ " \x7d)"
  | object o =>
    "Instance(RefCell \x7b value: LoxInstance \x7b class: " ++ Quoted.quote o.cls.name
      ++ ", fields: " ++ quotedList (fields o) ++ " \x7d \x7d)"

end Lox.Value
