import Lox.Machine.Step

/-!
# Where values come from

What stands in a store after a change stood there before or is what was written, and the value of a
variable stands in some scope of the store. Operators and native functions give values that lead
nowhere, or fail on their own line (`Operates`). So what is asked of all values of a store holds of
what an operation finds there, and is kept by a change if it holds of the value that is written.
-/

namespace Lox

variable {env : Env}

/-! ## The store after a change -/

namespace NameTable

variable {α : Type} {t : NameTable α} {key name : String} {a b : α}

theorem of_find?_insert (h : (t.insert key a).find? name = some b) :
    name = key ∧ b = a ∨ t.find? name = some b := by
  rw [find?_insert] at h
  split at h
  · next hname =>
    cases h
    exact .inl ⟨hname, rfl⟩
  · exact .inr h

theorem of_find?_singleton (h : (NameTable.insert ∅ key a).find? name = some b) :
    name = key ∧ b = a := by
  rcases of_find?_insert h with h | h
  · exact h
  · cases h

end NameTable

namespace Store

variable (s : Store)

/-- What a name stands for in one of several tables, after a name of one of them was written. -/
theorem bind_modify (tables : Array (NameTable Value)) (i j : Nat) (name n : String) (v : Value) :
    ((tables.modify i fun t => t.insert name v)[j]?.bind fun t => t.find? n) =
      if j = i ∧ n = name ∧ i < tables.size then some v else tables[j]?.bind fun t =>
        t.find? n := by
  rw [Array.getElem?_modify]
  by_cases hj : i = j
  · subst hj
    by_cases hlt : i < tables.size
    · simp [hlt, NameTable.find?_insert]
    · simp [hlt]
  · have hj' : ¬ j = i := fun h => hj h.symm
    simp [hj, hj']

theorem find?_eq_bind (scope : ScopeId) (n : String) :
    s.find? scope n = s.scopes[scope]?.bind fun t => t.find? n := by
  unfold find?
  cases s.scopes[scope]? <;> rfl

theorem field?_eq_bind (id : ObjectId) (n : String) :
    s.field? id n = s.objects[id]?.bind fun t => t.find? n := by
  unfold field?
  cases s.objects[id]? <;> rfl

/-- A write changes one variable of one scope. -/
theorem find?_put (scope other : ScopeId) (name n : String) (v : Value) :
    (s.put scope name v).find? other n =
      if other = scope ∧ n = name ∧ scope < s.scopes.size then some v else s.find? other n := by
  rw [find?_eq_bind, find?_eq_bind]
  exact bind_modify s.scopes scope other name n v

/-- A write changes one field of one object. -/
theorem field?_setField (id other : ObjectId) (name n : String) (v : Value) :
    (s.setField id name v).field? other n =
      if other = id ∧ n = name ∧ id < s.objects.size then some v else s.field? other n := by
  rw [field?_eq_bind, field?_eq_bind]
  exact bind_modify s.objects id other name n v

/-- A new scope holds just its bindings. -/
theorem find?_addScope (bindings : NameTable Value) (scope : ScopeId) (n : String) :
    (s.addScope bindings).find? scope n = if scope = s.nextScope then bindings.find? n
      else s.find? scope n := by
  simp only [find?, addScope, nextScope, Array.getElem?_push]
  by_cases h : scope = s.scopes.size <;> simp [h]

theorem field?_addObject (id : ObjectId) (name : String) :
    s.addObject.field? id name = s.field? id name := by
  simp only [field?, addObject, Array.getElem?_push]
  by_cases hid : id = s.objects.size
  · simp only [hid, if_true, Array.getElem?_eq_none (Nat.le_refl _)]
    rfl
  · simp [hid]

theorem size_put (scope : ScopeId) (name : String) (v : Value) :
    (s.put scope name v).scopes.size = s.scopes.size := by
  simp [put]

theorem size_addScope (bindings : NameTable Value) :
    (s.addScope bindings).scopes.size = s.nextScope + 1 := by
  simp [addScope, nextScope]

section

variable {s} {scope other : ScopeId} {id other' : ObjectId} {name n : String} {v w : Value}

theorem of_find?_put (h : (s.put scope name v).find? other n = some w) :
    w = v ∨ s.find? other n = some w := by
  rw [find?_put] at h
  split at h
  · cases h
    exact .inl rfl
  · exact .inr h

theorem of_field?_setField (h : (s.setField id name v).field? other' n = some w) :
    w = v ∨ s.field? other' n = some w := by
  rw [field?_setField] at h
  split at h
  · cases h
    exact .inl rfl
  · exact .inr h

theorem of_find?_addScope {bindings : NameTable Value}
    (h : (s.addScope bindings).find? scope name = some v) :
    bindings.find? name = some v ∨ s.find? scope name = some v := by
  rw [find?_addScope] at h
  split at h
  · exact .inl h
  · exact .inr h

/-- A value found at a distance is in some scope. -/
theorem exists_find?_of_getAt? {d : Nat} (h : s.getAt? env d name = some v) :
    ∃ scope, s.find? scope name = some v := by
  unfold getAt? at h
  split at h
  · exact ⟨_, h⟩
  · cases h

end

end Store

/-! ## Variables -/

namespace Interpreter

variable {st : Interpreter} {id : NodeId} {v : Value} {name : String} {methods : List FunctionDecl}

theorem eq_some_of_found {line : Nat} {v? : Option Value} (h : found name line v? = .ok v) :
    v? = some v := by
  cases v? with
  | none => cases h
  | some w =>
    cases h
    rfl

/-- The value of a variable stands in some scope. -/
theorem exists_find?_of_lookUp {name : Token} (h : st.lookUp id name = .ok v) :
    ∃ scope, st.store.find? scope name.lexeme = some v := by
  have hfound := eq_some_of_found h
  split at hfound
  · exact Store.exists_find?_of_getAt? hfound
  · obtain ⟨scope, -, hfind⟩ := List.exists_of_findSome?_eq_some hfound
    exact ⟨scope, hfind⟩

/-- What `super` stands for is the value of two variables. -/
theorem exists_find?_of_superBinding {word : Token} {c : Class} {o : Object}
    (h : st.superBinding id word = .ok (c, o)) :
    (∃ scope, st.store.find? scope "super" = some (.cls c)) ∧
      ∃ scope, st.store.find? scope "this" = some (.object o) := by
  unfold superBinding at h
  split at h
  · cases h
  · split at h <;> cases h
    next hc ho => exact ⟨Store.exists_find?_of_getAt? hc, Store.exists_find?_of_getAt? ho⟩

/-! ## Methods of a class -/

/-- Closing methods uses up identities and does nothing else. -/
theorem exists_closeMethods_eq (st : Interpreter) (env : Env) (methods : List FunctionDecl)
    (table : NameTable Closure) :
    ∃ n, (st.closeMethods env methods table).2 =
      { st with store := { st.store with nextIdentity := n } } := by
  induction methods generalizing st table with
  | nil => exact ⟨_, rfl⟩
  | cons decl rest ih => exact ih st.addIdentity _

/-- A method closed over an environment comes from its declaration. -/
theorem of_find?_closeMethods {table : NameTable Closure} {c : Closure}
    (h : (st.closeMethods env methods table).1.find? name = some c) : table.find? name = some c ∨
      c.decl ∈ methods ∧ c.env = env ∧ c.decl.name.lexeme = name ∧
      c.isInitializer = (name == "init") := by
  induction methods generalizing st table with
  | nil => exact .inl h
  | cons decl rest ih =>
    rcases ih h with hold | ⟨hmem, hc⟩
    · rcases NameTable.of_find?_insert hold with ⟨rfl, rfl⟩ | hold
      · exact .inr ⟨List.mem_cons_self, rfl, rfl, rfl⟩
      · exact .inl hold
    · exact .inr ⟨List.mem_cons_of_mem _ hmem, hc⟩

/-- The methods of a class are declared in it and closed over one environment. Each is found by its
own name, and it is known which one is the initializer. -/
theorem closed_of_closeMethods {c : Closure}
    (h : (st.closeMethods env methods ∅).1.find? name = some c) :
    c.decl ∈ methods ∧ c.env = env ∧ c.decl.name.lexeme = name ∧
      c.isInitializer = (name == "init") := by
  rcases of_find?_closeMethods h with h | h
  · cases h
  · exact h

/-- The methods of a class that is being declared, and the state after they were made. -/
def makeMethods (st : Interpreter) (name : Token) (superclass : Option Class)
    (methods : List FunctionDecl) : NameTable Closure × Interpreter :=
  let (env, st) := (st.define name.lexeme .nil).enterSuperclass superclass
  st.closeMethods env methods ∅

/-- The class that a declaration makes. -/
def declaredClass (st : Interpreter) (name : Token) (superclass : Option Class)
    (methods : List FunctionDecl) : Class :=
  let (table, st) := st.makeMethods name superclass methods
  .extend ⟨st.store.nextIdentity, name.lexeme, table⟩ superclass

end Interpreter

/-! ## Operators and native functions -/

/-- A value that leads nowhere. -/
def Value.isPlain : Value → Bool
  | .nil | .bool _ | .number _ | .string _ => true
  | _ => false

/-- The answer of an operator on a line: a value that leads nowhere, or a fault there, but none
about calls. -/
inductive Operates (line : Nat) : Except Fault Value → Prop where
  | value {v : Value} (h : v.isPlain = true) : Operates line (.ok v)
  | fault (f : RuntimeFault) (h : f ≠ .stackOverflow) : Operates line (.error (.runtime line f))

theorem Operates.isPlain {line : Nat} {r : Except Fault Value} (h : Operates line r) {v : Value}
    (hv : r = .ok v) : v.isPlain = true := by
  cases h with
  | value h =>
    cases hv
    exact h
  | fault => cases hv

namespace Value

theorem isPlain_ofLiteral (l : Literal) : (ofLiteral l).isPlain = true := by
  cases l <;> rfl

/-- A unary operator only operates. -/
theorem unary_operates (operator : Token) (v : Value) :
    Operates operator.line (v.unary operator) := by
  unfold unary
  split
  · cases v with
    | number a => exact .value rfl
    | _ => exact .fault _ (by decide)
  · exact .value rfl
  · exact .fault _ (by simp)

theorem numbers_operates (line : Nat) (left right : Value) {f : Float → Float → Value}
    (hf : ∀ a b, (f a b).isPlain = true) : Operates line (numbers line left right f) := by
  unfold numbers
  split
  · exact .value (hf _ _)
  · exact .fault _ (by decide)

theorem plus_operates (line : Nat) (left right : Value) : Operates line (plus line left right) := by
  unfold plus
  split
  · exact .value rfl
  · exact .value rfl
  · exact .fault _ (by decide)

/-- A binary operator only operates. -/
theorem binary_operates (left : Value) (operator : Token) (right : Value) :
    Operates operator.line (left.binary operator right) := by
  unfold binary
  dsimp only
  split
  · exact plus_operates _ left right
  iterate 7 exact numbers_operates _ left right fun _ _ => rfl
  · exact .value rfl
  · exact .value rfl
  · exact .fault _ (by simp)

end Value

namespace Machine

variable (n : Native) (paren : Token) (arguments : List Value) (st : Interpreter)

/-- A native function fails with a message of its own, if at all. -/
theorem callNative_result : (∃ v, (callNative n paren arguments st).1 = .ok v ∧ v.isPlain = true) ∨
    ∃ message, (callNative n paren arguments st).1 =
      .error (.runtime paren.line (.native message)) := by
  unfold callNative
  dsimp only
  split
  · next l _ => exact .inl ⟨_, rfl, Value.isPlain_ofLiteral l⟩
  · next message _ => exact .inr ⟨message, rfl⟩

theorem callNative_operates : Operates paren.line (callNative n paren arguments st).1 := by
  rcases callNative_result n paren arguments st with ⟨v, heq, hv⟩ | ⟨message, heq⟩
  · exact heq ▸ .value hv
  · exact heq ▸ .fault _ (by simp)

/-- A native function changes nothing, but the next call is at another time. -/
theorem exists_callNative_eq :
    ∃ k, (callNative n paren arguments st).2 = { st with readings := k } := by
  unfold callNative
  dsimp only
  split <;> exact ⟨_, rfl⟩

end Machine

end Lox
