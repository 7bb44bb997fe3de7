import Mathlib.Data.List.Forall2
import Lox.Proofs.Renaming.Trees
import Lox.Proofs.Scope.Agreement

/-!
# Renaming values and the store

While a renamed program runs, each scope of its store has the variables of the same scope of the
first program. In a scope that was made for a marked place the old name is the new one
(`Store.Renamed`). Which scopes these are is written down as they are made (`ScopeMarks`): scopes
are never taken away, so the list only grows, and what is known of a value stays true
(`Value.Renamed.mono`).

A closure is related to one with the same environment, whose function was renamed as the marks of
that environment say. Nothing that a program can see of a value tells the two apart.
-/

namespace Lox

/-- For each scope of a store, by its number: whether the variable of the old name in it is
renamed. -/
abbrev ScopeMarks := List Bool

variable {R : Renaming} {M M' : ScopeMarks}

theorem ScopeMarks.mono (hM : M <+: M') {i : ScopeId} {b : Bool} (h : M[i]? = some b) :
    M'[i]? = some b := by
  obtain ⟨more, rfl⟩ := hM
  obtain ⟨hlt, -⟩ := List.getElem?_eq_some_iff.mp h
  rw [List.getElem?_append_left hlt]
  exact h

/-! ## Environments -/

namespace Env

/-- An environment made of the scopes of a place with some marks. -/
def Marked (M : ScopeMarks) (env : Env) (marks : Marks) : Prop :=
  List.Forall₂ (fun scope b => M[scope]? = some b) env marks

namespace Marked

variable {env : Env} {marks : Marks} {scope : ScopeId}

variable (h : Marked M env marks)

include h

/-- The marks of an environment stay when scopes are added. -/
theorem mono (hM : M <+: M') : Marked M' env marks :=
  List.Forall₂.imp (fun _ _ => ScopeMarks.mono hM) h

theorem cons {b : Bool} (hb : M[scope]? = some b) : Marked M (scope :: env) (b :: marks) :=
  List.Forall₂.cons hb h

/-- A new scope inside an environment. -/
theorem enter (b : Bool) : Marked (M ++ [b]) (M.length :: env) (b :: marks) :=
  (h.mono (List.prefix_append M [b])).cons List.getElem?_concat_length

/-- The scope some steps out has the mark as many steps out. -/
theorem getElem? {d : Nat} (hd : env[d]? = some scope) : M[scope]? = some (marks.at? (some d)) := by
  have hlt : d < env.length := (List.getElem?_eq_some_iff.mp hd).1
  have hlt' : d < marks.length := by rwa [← List.Forall₂.length_eq h]
  have hmark := List.Forall₂.get h hlt hlt'
  rw [List.getElem?_eq_getElem hlt] at hd
  cases hd
  simpa [Marks.at?, List.getElem?_eq_getElem hlt'] using hmark

theorem head? (hscope : env.head? = some scope) : M[scope]? = some marks.here := by
  rw [List.head?_eq_getElem?] at hscope
  have hmark := h.getElem? hscope
  cases marks <;> exact hmark

end Marked

end Env

/-! ## Values -/

/-- A closure and the renamed one. Between the environment and the function there are unmarked
scopes still to come: that of `this` for a method that is not bound, otherwise none. -/
structure Closure.Renamed (R : Renaming) (M : ScopeMarks) (inner : Marks) (c c' : Closure) :
    Prop where
  rest : c' = { c with decl := c'.decl }
  decl : ∃ marks, c.env.Marked M marks ∧ Stmt.RenamedFunction R (inner ++ marks) c.decl c'.decl

/-- What a class declaration adds, and what the renamed one adds. -/
structure ClassBody.Renamed (R : Renaming) (M : ScopeMarks) (b b' : ClassBody) : Prop where
  identity : b'.identity = b.identity
  name : b'.name = b.name
  methods : ∀ n, Option.Rel (Closure.Renamed R M [false]) (b.methods.find? n) (b'.methods.find? n)

/-- A class and the renamed one. -/
def Class.Renamed (R : Renaming) (M : ScopeMarks) (c c' : Class) : Prop :=
  List.Forall₂ (ClassBody.Renamed R M) c.lineage c'.lineage

/-- An object and the one with its class renamed. -/
structure Object.Renamed (R : Renaming) (M : ScopeMarks) (o o' : Object) : Prop where
  id : o'.id = o.id
  cls : o.cls.Renamed R M o'.cls

/-- A value and the renamed one. -/
inductive Value.Renamed (R : Renaming) (M : ScopeMarks) : Value → Value → Prop where
  | nil : Renamed R M .nil .nil
  | bool (b : Bool) : Renamed R M (.bool b) (.bool b)
  | number (x : Float) : Renamed R M (.number x) (.number x)
  | string (s : String) : Renamed R M (.string s) (.string s)
  | native (n : Native) : Renamed R M (.native n) (.native n)
  | closure {c c' : Closure} (h : c.Renamed R M [] c') : Renamed R M (.closure c) (.closure c')
  | cls {c c' : Class} (h : c.Renamed R M c') : Renamed R M (.cls c) (.cls c')
  | object {o o' : Object} (h : o.Renamed R M o') : Renamed R M (.object o) (.object o')

theorem optionRel_mono {α : Type} {p q : α → α → Prop} (hpq : ∀ a b, p a b → q a b)
    {a? b? : Option α} (h : Option.Rel p a? b?) : Option.Rel q a? b? := by
  cases h with
  | some h => exact .some (hpq _ _ h)
  | none => exact .none

/-! ### More scopes -/

section Mono

variable (hM : M <+: M')

include hM

/-- Closures stay related when scopes are added. -/
theorem Closure.Renamed.mono {inner : Marks} {c c' : Closure} (h : c.Renamed R M inner c') :
    c.Renamed R M' inner c' := by
  obtain ⟨hrest, marks, henv, hdecl⟩ := h
  exact ⟨hrest, marks, henv.mono hM, hdecl⟩

theorem ClassBody.Renamed.mono {b b' : ClassBody} (h : b.Renamed R M b') : b.Renamed R M' b' :=
  ⟨h.identity, h.name, fun n => optionRel_mono (fun _ _ => Closure.Renamed.mono hM) (h.methods n)⟩

/-- Classes stay related when scopes are added. -/
theorem Class.Renamed.mono {c c' : Class} (h : c.Renamed R M c') : c.Renamed R M' c' :=
  List.Forall₂.imp (fun _ _ => ClassBody.Renamed.mono hM) h

theorem Object.Renamed.mono {o o' : Object} (h : o.Renamed R M o') : o.Renamed R M' o' :=
  ⟨h.id, h.cls.mono hM⟩

/-- Related values stay so when there are more scopes. -/
theorem Value.Renamed.mono {v v' : Value} (h : v.Renamed R M v') : v.Renamed R M' v' := by
  cases h with
  | closure h => exact .closure (h.mono hM)
  | cls h => exact .cls (h.mono hM)
  | object h => exact .object (h.mono hM)
  | _ => constructor

end Mono

/-! ### What a program can see of a value -/

namespace Closure.Renamed

variable {inner : Marks} {c c' : Closure} (h : c.Renamed R M inner c')

include h

theorem identity_eq : c'.identity = c.identity := by rw [h.rest]

theorem env_eq : c'.env = c.env := by rw [h.rest]

theorem isInitializer_eq : c'.isInitializer = c.isInitializer := by rw [h.rest]

theorem name_eq : c'.name = c.name := by
  obtain ⟨_, _, _, hdecl⟩ := h
  rw [name, name, hdecl.name_eq]

theorem arity_eq : c'.arity = c.arity := by
  obtain ⟨_, _, _, hdecl⟩ := h
  exact hdecl.length_params

end Closure.Renamed

namespace Class.Renamed

variable {c c' : Class}

theorem body (h : c.Renamed R M c') : c.body.Renamed R M c'.body :=
  (List.forall₂_cons.mp h).1

/-- The method of a name is found in the same body. -/
theorem findMethod? (h : c.Renamed R M c') (n : String) :
    Option.Rel (Closure.Renamed R M [false]) (c.findMethod? n) (c'.findMethod? n) := by
  unfold Renamed at h
  unfold Class.findMethod?
  -- The search goes along the lineage, which is what the induction is on.
  generalize c.lineage = bodies at h ⊢
  generalize c'.lineage = bodies' at h ⊢
  induction h with
  | nil => exact .none
  | @cons b b' _ _ hb _ ih =>
    have hmethod := hb.methods n
    simp only [List.findSome?_cons]
    generalize b.methods.find? n = m? at hmethod
    generalize b'.methods.find? n = m'? at hmethod
    cases hmethod with
    | some hm => exact .some hm
    | none => exact ih

theorem arity_eq (h : c.Renamed R M c') : c'.arity = c.arity := by
  have hinit := h.findMethod? "init"
  unfold arity
  generalize c.findMethod? "init" = m? at hinit
  generalize c'.findMethod? "init" = m'? at hinit
  cases hinit with
  | some hm => simp only [Option.map_some, hm.arity_eq]
  | none => rfl

/-- Related classes inherit alike. -/
theorem extend {body body' : ClassBody} (hbody : body.Renamed R M body')
    {superclass superclass' : Option Class}
    (hsuper : Option.Rel (Class.Renamed R M) superclass superclass') :
    (Class.extend body superclass).Renamed R M (Class.extend body' superclass') := by
  cases hsuper with
  | none => exact .cons hbody .nil
  | some h => exact .cons hbody h

end Class.Renamed

namespace Value

variable {v v' w w' : Value}

theorem renamed_ofLiteral (l : Literal) : (ofLiteral l).Renamed R M (ofLiteral l) := by
  cases l <;> constructor

namespace Renamed

theorem isTruthy_eq (h : v.Renamed R M v') : v'.isTruthy = v.isTruthy := by
  cases h <;> rfl

theorem typeName_eq (h : v.Renamed R M v') : v'.typeName = v.typeName := by
  cases h <;> rfl

theorem decides_eq (h : v.Renamed R M v') (operator : Token) :
    v'.decides operator = v.decides operator := by
  rw [decides, decides, h.isTruthy_eq]

/-- Values are the same exactly if the related ones are. -/
theorem same_eq (hv : v.Renamed R M v') (hw : w.Renamed R M w') : v'.same w' = v.same w := by
  cases hv with
  | closure hc =>
    cases hw with
    | closure hc' => simp only [same, hc.identity_eq, hc'.identity_eq]
    | _ => rfl
  | cls hc =>
    cases hw with
    | cls hc' => simp only [same, hc.body.identity, hc'.body.identity]
    | _ => rfl
  | object ho =>
    cases hw with
    | object ho' => simp only [same, ho.id, ho'.id]
    | _ => rfl
  | _ => cases hw <;> rfl

/-- The text of a value is that of its names, and those of functions and classes stay. -/
theorem pieces_eq (h : v.Renamed R M v') : v'.pieces = v.pieces := by
  cases h with
  | closure hc => simp only [pieces, hc.name_eq]
  | cls hc => simp only [pieces, Class.name, hc.body.name]
  | object ho => simp only [pieces, Class.name, ho.cls.body.name]
  | _ => rfl

/-- A value is shown as the related one. -/
theorem display_eq (h : v.Renamed R M v') : v'.display = v.display := by
  rw [display, h.pieces_eq, display]

end Renamed

end Value

/-! ## The store -/

/-- A store and that of the renamed program. -/
structure Store.Renamed (R : Renaming) (M : ScopeMarks) (s s' : Store) : Prop where
  scopes : s.scopes.size = M.length
  scopes' : s'.scopes.size = M.length
  objects : s'.objects.size = s.objects.size
  identity : s'.nextIdentity = s.nextIdentity
  values : ∀ {i b}, M[i]? = some b → ∀ {n}, n ≠ R.new →
    Option.Rel (Value.Renamed R M) (s.find? i n) (s'.find? i (R.name b n))
  fields : ∀ id n, Option.Rel (Value.Renamed R M) (s.field? id n) (s'.field? id n)

namespace Store.Renamed

variable {s s' : Store} {v v' : Value} {env : Env} {marks : Marks} {i : ScopeId} {b : Bool}
  {n : String}

variable (h : s.Renamed R M s')

include h

/-- A new scope gets the same number in both. -/
theorem nextScope_eq : s'.nextScope = s.nextScope :=
  h.scopes'.trans h.scopes.symm

/-! ### Looking up -/

/-- A scope has a name exactly if it has the renamed one. -/
theorem contains_eq (hi : M[i]? = some b) (hn : n ≠ R.new) :
    s'.contains i (R.name b n) = s.contains i n := by
  have hvalue := h.values hi hn
  unfold contains
  generalize s.find? i n = v? at hvalue
  generalize s'.find? i (R.name b n) = v'? at hvalue
  cases hvalue <;> rfl

/-- A variable some steps out has a related value. -/
theorem getAt? (henv : env.Marked M marks) (d : Nat) (hn : n ≠ R.new) :
    Option.Rel (Value.Renamed R M) (s.getAt? env d n)
      (s'.getAt? env d (R.name (marks.at? (some d)) n)) := by
  unfold Store.getAt?
  cases hd : env[d]? with
  | none => exact .none
  | some scope => exact h.values (henv.getElem? hd) hn

/-- Other names than the renamed one are looked up as they are. -/
theorem getAt?_of_ne (henv : env.Marked M marks) (d : Nat) (hnew : n ≠ R.new) (hold : n ≠ R.old) :
    Option.Rel (Value.Renamed R M) (s.getAt? env d n) (s'.getAt? env d n) := by
  have hvalue := h.getAt? henv d hnew
  rwa [Renaming.name_of_ne _ hold] at hvalue

/-- At a distance either name is bound in the same scope. -/
theorem binderAt?_eq (henv : env.Marked M marks) (d : Nat) (hn : n ≠ R.new) :
    s'.binderAt? env d (R.name (marks.at? (some d)) n) = s.binderAt? env d n := by
  unfold binderAt?
  cases hd : env[d]? with
  | none => rfl
  | some scope => simp only [h.contains_eq (henv.getElem? hd) hn]

/-! ### Writing -/

/-- Writing a variable and the renamed one. -/
theorem put (hi : M[i]? = some b) (hn : n ≠ R.new) (hv : v.Renamed R M v') :
    (s.put i n v).Renamed R M (s'.put i (R.name b n) v') := by
  refine ⟨?_, ?_, h.objects, h.identity, ?_, h.fields⟩
  · rw [size_put, h.scopes]
  · rw [size_put, h.scopes']
  · intro j c hj m hm
    rw [find?_put, find?_put, h.scopes, h.scopes']
    by_cases hji : j = i
    · -- In the scope that is written to, two names stay different.
      subst hji
      cases hi.symm.trans hj
      simp only [true_and, Renaming.name_inj hm hn]
      split
      · exact .some hv
      · exact h.values hi hm
    · simp only [hji, false_and, if_false]
      exact h.values hj hm

theorem define (henv : env.Marked M marks) (hn : n ≠ R.new) (hv : v.Renamed R M v') :
    (s.define env n v).Renamed R M (s'.define env (R.name marks.here n) v') := by
  cases henv with
  | nil => exact h
  | cons hb _ => exact h.put hb hn hv

theorem setField (id : ObjectId) (n : String) (hv : v.Renamed R M v') :
    (s.setField id n v).Renamed R M (s'.setField id n v') := by
  refine ⟨h.scopes, h.scopes', ?_, h.identity, h.values, ?_⟩
  · simp only [Store.setField, Array.size_modify, h.objects]
  · intro other m
    rw [field?_setField, field?_setField, h.objects]
    split
    · exact .some hv
    · exact h.fields other m

theorem addIdentity : s.addIdentity.Renamed R M s'.addIdentity := by
  refine ⟨h.scopes, h.scopes', h.objects, ?_, h.values, h.fields⟩
  simp only [Store.addIdentity, h.identity]

theorem addObject : s.addObject.Renamed R M s'.addObject := by
  refine ⟨h.scopes, h.scopes', ?_, h.identity, h.values, ?_⟩
  · simp only [Store.addObject, Array.size_push, h.objects]
  · intro id n
    rw [field?_addObject, field?_addObject]
    exact h.fields id n

/-- A new scope, marked or not. -/
theorem addScope {t t' : NameTable Value}
    (ht : ∀ {n}, n ≠ R.new → Option.Rel (Value.Renamed R M) (t.find? n) (t'.find? (R.name b n))) :
    (s.addScope t).Renamed R (M ++ [b]) (s'.addScope t') := by
  have hmono : ∀ v w, Value.Renamed R M v w → Value.Renamed R (M ++ [b]) v w :=
    fun _ _ hv => hv.mono (List.prefix_append M [b])
  refine ⟨?_, ?_, h.objects, h.identity, ?_, fun id n => optionRel_mono hmono (h.fields id n)⟩
  · rw [size_addScope, nextScope, h.scopes, List.length_append, List.length_singleton]
  · rw [size_addScope, nextScope, h.scopes', List.length_append, List.length_singleton]
  · intro i c hi n hn
    rw [find?_addScope, find?_addScope, nextScope, nextScope, h.scopes, h.scopes']
    by_cases hnew : i = M.length
    -- The last mark is that of the new scope.
    · subst hnew
      cases List.getElem?_concat_length.symm.trans hi
      simpa using optionRel_mono hmono (ht hn)
    · have hold : M[i]? = some c := by
        have hlt := (List.getElem?_eq_some_iff.mp hi).1
        rw [List.length_append, List.length_singleton] at hlt
        rwa [List.getElem?_append_left (Nat.lt_of_le_of_ne (Nat.le_of_lt_succ hlt) hnew)] at hi
      simpa [hnew] using optionRel_mono hmono (h.values hold hn)

end Store.Renamed

end Lox
