import Lox.Proofs.Renumbering.Trees
import Lox.Store.Basic
import Lox.Value.Text

/-!
# Renumbering values and the store

The functions and methods in a store hold trees, and so ids. Renumbering them changes nothing that a
program can see of a value, and what is stored and looked up later is the renumbered value.
-/

namespace Lox

/-! ## Tables -/

namespace NameTable

variable {α β : Type}

/-- The table with its values changed. -/
def map (f : α → β) (t : NameTable α) : NameTable β :=
  ⟨t.entries.map fun e => (e.1, f e.2)⟩

@[simp] theorem map_empty (f : α → β) : (∅ : NameTable α).map f = ∅ := rfl

/-- Changing the values of a table changes what is found. -/
theorem find?_map (f : α → β) (t : NameTable α) (name : String) :
    (t.map f).find? name = (t.find? name).map f := by
  obtain ⟨entries⟩ := t
  simp only [find?, map]
  induction entries with
  | nil => rfl
  | cons e rest ih =>
    obtain ⟨key, a⟩ := e
    simp only [List.map_cons, List.lookup_cons]
    cases name == key with
    | true => rfl
    | false => exact ih

/-- A value may be changed before it is written or after. -/
theorem map_insert (f : α → β) (t : NameTable α) (name : String) (a : α) :
    (t.insert name a).map f = (t.map f).insert name (f a) := by
  obtain ⟨entries⟩ := t
  simp only [insert, map, mk.injEq]
  induction entries with
  | nil => rfl
  | cons e rest ih =>
    simp only [List.map_cons, insertEntry]
    split
    · rfl
    · simp only [List.map_cons, ih]

end NameTable

/-! ## Values -/

/-- The function with other ids. -/
def Closure.renumber (f : NodeId → NodeId) (c : Closure) : Closure :=
  { c with decl := Stmt.renumberFunction f c.decl }

/-- The class body with other ids in its methods. -/
def ClassBody.renumber (f : NodeId → NodeId) (b : ClassBody) : ClassBody :=
  { b with methods := b.methods.map (Closure.renumber f) }

/-- The class with other ids in its methods. -/
def Class.renumber (f : NodeId → NodeId) (c : Class) : Class :=
  ⟨c.body.renumber f, c.ancestors.map (ClassBody.renumber f)⟩

/-- The object with other ids in the methods of its class. -/
def Object.renumber (f : NodeId → NodeId) (o : Object) : Object :=
  ⟨o.id, o.cls.renumber f⟩

/-- The value with other ids in its functions. -/
def Value.renumber (f : NodeId → NodeId) : Value → Value
  | .closure c => .closure (c.renumber f)
  | .cls c => .cls (c.renumber f)
  | .object o => .object (o.renumber f)
  | v => v

variable (f : NodeId → NodeId)

/-- Only the body of a function has ids. -/
theorem Closure.renumber_eq (c : Closure) : c.renumber f =
    ⟨c.identity, ⟨c.decl.name, c.decl.params, Stmt.renumberAll f c.decl.body⟩, c.env,
      c.isInitializer⟩ := by
  obtain ⟨_, ⟨_, _, _⟩, _, _⟩ := c
  rfl

@[simp] theorem Closure.name_renumber (c : Closure) : (c.renumber f).name = c.name := by
  rw [renumber_eq]
  rfl

@[simp] theorem Closure.arity_renumber (c : Closure) : (c.renumber f).arity = c.arity := by
  rw [renumber_eq]
  rfl

namespace Class

theorem lineage_renumber (c : Class) :
    (c.renumber f).lineage = c.lineage.map (ClassBody.renumber f) := rfl

/-- A method is found whatever its ids are. -/
theorem findMethod?_renumber (c : Class) (name : String) :
    (c.renumber f).findMethod? name = (c.findMethod? name).map (Closure.renumber f) := by
  simp only [findMethod?, lineage_renumber]
  induction c.lineage with
  | nil => rfl
  | cons b rest ih =>
    have hb : (b.renumber f).methods.find? name = (b.methods.find? name).map (Closure.renumber f) :=
      NameTable.find?_map ..
    simp only [List.map_cons, List.findSome?_cons, hb]
    cases b.methods.find? name with
    | none => exact ih
    | some c => rfl

@[simp] theorem arity_renumber (c : Class) : (c.renumber f).arity = c.arity := by
  rw [arity, findMethod?_renumber, arity]
  cases c.findMethod? "init" with
  | none => rfl
  | some method => simp only [Option.map_some, Closure.arity_renumber]

/-- A class with new ids inherits methods with new ids. -/
theorem renumber_extend (body : ClassBody) (superclass : Option Class) :
    (extend body superclass).renumber f =
      extend (body.renumber f) (superclass.map (renumber f)) := by
  cases superclass <;> rfl

end Class

namespace Value

@[simp] theorem isTruthy_renumber (v : Value) : (v.renumber f).isTruthy = v.isTruthy := by
  cases v <;> rfl

@[simp] theorem typeName_renumber (v : Value) : (v.renumber f).typeName = v.typeName := by
  cases v <;> rfl

/-- Which values are the same has nothing to do with ids. -/
@[simp] theorem same_renumber (v w : Value) : (v.renumber f).same (w.renumber f) = v.same w := by
  cases v <;> cases w <;> rfl

@[simp] theorem renumber_ofLiteral (l : Literal) : (ofLiteral l).renumber f = ofLiteral l := by
  cases l <;> rfl

/-- The text of a value is that of its names. -/
@[simp] theorem pieces_renumber (v : Value) : (v.renumber f).pieces = v.pieces := by
  cases v with
  | closure c => simp only [renumber, pieces, Closure.name_renumber]
  | _ => rfl

/-- How a value is shown has nothing to do with ids. -/
@[simp] theorem display_renumber (v : Value) : (v.renumber f).display = v.display := by
  rw [display, pieces_renumber, display]

end Value

/-! ## The store -/

namespace Store

/-- The store with other ids in its values. -/
def renumber (s : Store) : Store :=
  { s with
    scopes := s.scopes.map (NameTable.map (Value.renumber f))
    objects := s.objects.map (NameTable.map (Value.renumber f)) }

variable (s : Store)

@[simp] theorem nextScope_renumber : (s.renumber f).nextScope = s.nextScope := by
  simp [nextScope, renumber]

@[simp] theorem nextObject_renumber : (s.renumber f).nextObject = s.nextObject := by
  simp [nextObject, renumber]

@[simp] theorem nextIdentity_renumber : (s.renumber f).nextIdentity = s.nextIdentity := rfl

/-- A variable holds the value with new ids. -/
theorem find?_renumber (scope : ScopeId) (name : String) :
    (s.renumber f).find? scope name = (s.find? scope name).map (Value.renumber f) := by
  simp only [find?, renumber, Array.getElem?_map]
  cases s.scopes[scope]? with
  | none => rfl
  | some t => exact t.find?_map _ name

/-- A field holds the value with new ids. -/
theorem field?_renumber (id : ObjectId) (name : String) :
    (s.renumber f).field? id name = (s.field? id name).map (Value.renumber f) := by
  simp only [field?, renumber, Array.getElem?_map]
  cases s.objects[id]? with
  | none => rfl
  | some t => exact t.find?_map _ name

@[simp] theorem contains_renumber (scope : ScopeId) (name : String) :
    (s.renumber f).contains scope name = s.contains scope name := by
  rw [contains, find?_renumber, Option.isSome_map, contains]

/-- Which scope binds a name has nothing to do with ids. -/
@[simp] theorem binder?_renumber (env : Env) (name : String) :
    (s.renumber f).binder? env name = s.binder? env name := by
  simp only [binder?, contains_renumber]

@[simp] theorem binderAt?_renumber (env : Env) (distance : Nat) (name : String) :
    (s.renumber f).binderAt? env distance name = s.binderAt? env distance name := by
  simp only [binderAt?, contains_renumber]

theorem getAt?_renumber (env : Env) (distance : Nat) (name : String) :
    (s.renumber f).getAt? env distance name =
      (s.getAt? env distance name).map (Value.renumber f) := by
  simp only [getAt?]
  cases env[distance]? with
  | none => rfl
  | some scope => exact s.find?_renumber f scope name

theorem get?_renumber (env : Env) (name : String) :
    (s.renumber f).get? env name = (s.get? env name).map (Value.renumber f) := by
  induction env with
  | nil => rfl
  | cons scope env ih =>
    simp only [get?, List.findSome?_cons, find?_renumber] at ih ⊢
    cases s.find? scope name with
    | none => exact ih
    | some v => rfl

/-- Writing an entry and changing all values can be done in either order. -/
theorem map_modify (tables : Array (NameTable Value)) (i : Nat) (name : String) (v : Value) :
    (tables.modify i fun t => t.insert name v).map (NameTable.map (Value.renumber f)) =
      (tables.map (NameTable.map (Value.renumber f))).modify i fun t =>
      t.insert name (v.renumber f) := by
  apply Array.ext_getElem?
  intro j
  simp only [Array.getElem?_map, Array.getElem?_modify]
  split
  · cases tables[j]? with
    | none => rfl
    | some t => simp only [Option.map_some, NameTable.map_insert]
  · rfl

/-- A variable is written with new ids. -/
theorem renumber_put (scope : ScopeId) (name : String) (v : Value) :
    (s.put scope name v).renumber f = (s.renumber f).put scope name (v.renumber f) := by
  simp only [put, renumber, map_modify]

theorem renumber_define (env : Env) (name : String) (v : Value) :
    (s.define env name v).renumber f = (s.renumber f).define env name (v.renumber f) := by
  cases env with
  | nil => rfl
  | cons scope env => exact s.renumber_put f scope name v

/-- A scope is added with new ids. -/
theorem renumber_addScope (bindings : NameTable Value) :
    (s.addScope bindings).renumber f =
      (s.renumber f).addScope (bindings.map (Value.renumber f)) := by
  simp only [addScope, renumber, Array.map_push]

theorem renumber_addObject : s.addObject.renumber f = (s.renumber f).addObject := by
  simp only [addObject, renumber, Array.map_push, NameTable.map_empty]

/-- A field is written with new ids. -/
theorem renumber_setField (id : ObjectId) (name : String) (v : Value) :
    (s.setField id name v).renumber f = (s.renumber f).setField id name (v.renumber f) := by
  simp only [setField, renumber, map_modify]

theorem renumber_addIdentity : s.addIdentity.renumber f = (s.renumber f).addIdentity := rfl

end Store

end Lox
