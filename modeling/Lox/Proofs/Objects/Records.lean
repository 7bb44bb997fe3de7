import Lox.Proofs.Lexical.Guarantees
import Lox.Proofs.Objects.Origins
import Lox.Proofs.Session.Moments

/-!
# Properties

What a property read gives is decided by the past of a session. If something was stored under the
name in that very object, it is what was stored last. Otherwise it is a method that the class of the
object declares, or else one that an inherited class declares, the nearest first; and what a class
declares and inherits from was decided when its class statement was executed
(`Session.property_by_history`).

The past is kept in `Records`: each object was made once, by one machine, and what its fields hold
is what was written to them last.
-/

namespace Lox

variable {d : FunctionDecl}

/-! ## Writes in the past -/

/-- The value that was stored last under a name in an object. -/
def LastWrite (past : List Machine) (o : Object) (name : String) (v : Value) : Prop :=
  ∃ before w after, past = before ++ w :: after ∧ w.Writes o name v ∧
    ∀ w' ∈ after, ∀ v', ¬w'.Writes o name v'

/-- Nothing was stored under a name in an object. -/
def Unwritten (past : List Machine) (o : Object) (name : String) : Prop :=
  ∀ w ∈ past, ∀ v, ¬w.Writes o name v

/-- An object that was made in the past. -/
def Created (past : List Machine) (o : Object) : Prop :=
  ∃ w ∈ past, w.Creates o

section

variable {past : List Machine} {m : Machine} {o : Object} {name : String} {v : Value}

theorem created_concat : Created (past ++ [m]) o ↔ Created past o ∨ m.Creates o := by
  constructor
  · rintro ⟨w, hw, hcreates⟩
    rcases List.mem_append.mp hw with hw | hw
    · exact .inl ⟨w, hw, hcreates⟩
    · cases List.mem_singleton.mp hw
      exact .inr hcreates
  · rintro (⟨w, hw, hcreates⟩ | hcreates)
    · exact ⟨w, List.mem_append_left _ hw, hcreates⟩
    · exact ⟨m, List.mem_append_right _ List.mem_cons_self, hcreates⟩

theorem Machine.Writes.det {w : Machine} {o' : Object} {name' : String} {v' : Value}
    (h : w.Writes o name v) (h' : w.Writes o' name' v') : o = o' ∧ name = name' ∧ v = v' := by
  obtain ⟨token, frames, hcontrol, hframes, rfl⟩ := h
  obtain ⟨token', frames', hcontrol', hframes', rfl⟩ := h'
  cases hcontrol.symm.trans hcontrol'
  cases hframes.symm.trans hframes'
  exact ⟨rfl, rfl, rfl⟩

theorem Machine.Calls.det {callee callee' : Value} {paren paren' : Token}
    {arguments arguments' : List Value} {frames frames' : List Frame}
    (h : m.Calls callee paren arguments frames) (h' : m.Calls callee' paren' arguments' frames') :
    callee = callee' := by
  cases h with
  | plain hcontrol hframes =>
    cases h' with
    | plain hcontrol' _ =>
      cases hcontrol.symm.trans hcontrol'
      rfl
    | applied _ hframes' => cases hframes.symm.trans hframes'
  | applied hcontrol hframes =>
    cases h' with
    | plain _ hframes' => cases hframes.symm.trans hframes'
    | applied _ hframes' =>
      cases hframes.symm.trans hframes'
      rfl

theorem Machine.Creates.det {o' : Object} (h : m.Creates o) (h' : m.Creates o') : o = o' := by
  obtain ⟨hid, -, _, _, _, hcalls, -⟩ := h
  obtain ⟨hid', -, _, _, _, hcalls', -⟩ := h'
  obtain ⟨id, cls⟩ := o
  obtain ⟨id', cls'⟩ := o'
  cases hid.trans hid'.symm
  cases hcalls.det hcalls'
  rfl

/-- A machine that writes a field makes no object. -/
theorem Machine.Writes.not_creates (h : m.Writes o name v) (o' : Object) : ¬m.Creates o' := by
  obtain ⟨token, frames, -, hframes, -⟩ := h
  rintro ⟨-, -, _, _, _, hcalls, -⟩
  cases hcalls with
  | plain _ hframes' => cases hframes.symm.trans hframes'
  | applied _ hframes' => cases hframes.symm.trans hframes'

/-- The last write is by the last machine, or it is as before. -/
theorem lastWrite_concat : LastWrite (past ++ [m]) o name v ↔
    m.Writes o name v ∨ LastWrite past o name v ∧ ∀ v', ¬m.Writes o name v' := by
  constructor
  · rintro ⟨before, w, after, hpast, hwrites, hafter⟩
    rcases List.eq_nil_or_concat after with rfl | ⟨after, last, rfl⟩
    · obtain ⟨-, hlast⟩ := List.append_inj' hpast rfl
      cases hlast
      exact .inl hwrites
    · rw [List.concat_eq_append, ← List.cons_append, ← List.append_assoc] at hpast
      obtain ⟨rfl, hlast⟩ := List.append_inj' hpast rfl
      cases hlast
      refine .inr ⟨⟨before, w, after, rfl, hwrites, ?_⟩, ?_⟩
      · intro w' hw'
        exact hafter w' (by simp [hw'])
      · exact hafter m (by simp)
  · rintro (hwrites | ⟨⟨before, w, after, rfl, hwrites, hafter⟩, hnone⟩)
    · exact ⟨past, m, [], rfl, hwrites, List.forall_mem_nil _⟩
    · refine ⟨before, w, after ++ [m], by simp, hwrites, ?_⟩
      intro w' hw'
      rcases List.mem_append.mp hw' with hw' | hw'
      · exact hafter w' hw'
      · cases List.mem_singleton.mp hw'
        exact hnone

theorem LastWrite.written (h : LastWrite past o name v) : ∃ w ∈ past, w.Writes o name v := by
  obtain ⟨before, w, after, rfl, hwrites, -⟩ := h
  exact ⟨w, by simp, hwrites⟩

theorem lastWrite_or_unwritten (past : List Machine) (o : Object) (name : String) :
    (∃ v, LastWrite past o name v) ∨ Unwritten past o name := by
  induction past using List.reverseRecOn with
  | nil => exact .inr (List.forall_mem_nil _)
  | append_singleton past m ih =>
    by_cases hm : ∃ v, m.Writes o name v
    · obtain ⟨v, hm⟩ := hm
      exact .inl ⟨v, lastWrite_concat.mpr (.inl hm)⟩
    · have hnone : ∀ v, ¬m.Writes o name v := fun v h => hm ⟨v, h⟩
      rcases ih with ⟨v, hv⟩ | hunwritten
      · exact .inl ⟨v, lastWrite_concat.mpr (.inr ⟨hv, hnone⟩)⟩
      · refine .inr ?_
        intro w hw
        rcases List.mem_append.mp hw with hw | hw
        · exact hunwritten w hw
        · cases List.mem_singleton.mp hw
          exact hnone

end

/-! ## Class statements in the past -/

/-- The last of some declarations with a name. -/
def FunctionDecl.lastNamed (name : String) (methods : List FunctionDecl) : Option FunctionDecl :=
  methods.reverse.find? fun d => d.name.lexeme == name

/-- The environment in which a machine that executes a class statement closes the methods: its own,
or, if the class inherits, that of the scope for `super` in it. -/
def Machine.methodEnv (w : Machine) (superclass : Option Class) : Env :=
  (w.state.enterSuperclass superclass).1

/-- A class that was declared in the past, as were all those it inherits from. -/
inductive Class.Made (past : List Machine) : Class → Prop where
  | declared {w : Machine} {superclass : Option Class} {methods : List FunctionDecl} {c : Class}
      (hw : w ∈ past) (hc : w.DeclaresClass superclass methods c)
      (hsuper : ∀ k, superclass = some k → Made past k) : Made past c

/-- The search for a method along the class statements that were executed in the past: what the
statement of a class declares counts, or else what the class that it inherited from then has. It
comes to a declaration and to the environment in which it was closed, or to nothing. -/
inductive Class.Finds (past : List Machine) (name : String) :
    Class → Option (FunctionDecl × Env) → Prop where
  | own {w : Machine} {superclass : Option Class} {methods : List FunctionDecl} {c : Class}
      {d : FunctionDecl} (hw : w ∈ past) (hc : w.DeclaresClass superclass methods c)
      (hd : FunctionDecl.lastNamed name methods = some d) :
      Finds past name c (some (d, w.methodEnv superclass))
  | nowhere {w : Machine} {methods : List FunctionDecl} {c : Class} (hw : w ∈ past)
      (hc : w.DeclaresClass none methods c) (hd : FunctionDecl.lastNamed name methods = none) :
      Finds past name c none
  | inherited {w : Machine} {methods : List FunctionDecl} {c k : Class}
      {r : Option (FunctionDecl × Env)} (hw : w ∈ past) (hc : w.DeclaresClass (some k) methods c)
      (hd : FunctionDecl.lastNamed name methods = none) (hk : Finds past name k r) :
      Finds past name c r

section

variable {past past' : List Machine} {name : String} {c : Class}

theorem Class.Made.mono (h : c.Made past) (hsub : past ⊆ past') : c.Made past' := by
  induction h with
  | declared hw hc _ ih => exact .declared (hsub hw) hc ih

/-- Every search along class statements comes to an end. -/
theorem Class.Made.finds (h : c.Made past) (name : String) : ∃ r, c.Finds past name r := by
  induction h with
  | @declared w superclass methods c hw hc _ ih =>
    cases hd : FunctionDecl.lastNamed name methods with
    | some d => exact ⟨_, .own hw hc hd⟩
    | none =>
      cases superclass with
      | none => exact ⟨none, .nowhere hw hc hd⟩
      | some k =>
        obtain ⟨r, hr⟩ := ih k rfl
        exact ⟨r, .inherited hw hc hd hr⟩

theorem FunctionDecl.lastNamed_cons (d : FunctionDecl) (rest : List FunctionDecl) :
    lastNamed name (d :: rest) =
      (lastNamed name rest).or (if d.name.lexeme = name then some d else none) := by
  rw [lastNamed, List.reverse_cons, List.find?_append, lastNamed]
  by_cases h : d.name.lexeme = name <;> simp [h]

namespace Interpreter

variable {st : Interpreter} {env : Env} {methods : List FunctionDecl} {table : NameTable Closure}

theorem find?_closeMethods_of_none (h : FunctionDecl.lastNamed name methods = none) :
    (st.closeMethods env methods table).1.find? name = table.find? name := by
  induction methods generalizing st table with
  | nil => rfl
  | cons decl rest ih =>
    rw [FunctionDecl.lastNamed_cons, Option.or_eq_none_iff] at h
    have hne : name ≠ decl.name.lexeme := by
      intro heq
      rw [if_pos heq.symm] at h
      cases h.2
    rw [closeMethods]
    refine (ih h.1).trans ?_
    rw [NameTable.find?_insert, if_neg hne]

/-- A name that is declared stands for its last declaration. -/
theorem find?_closeMethods_of_some (h : FunctionDecl.lastNamed name methods = some d) :
    ∃ identity, (st.closeMethods env methods table).1.find? name =
      some ⟨identity, d, env, name == "init"⟩ := by
  induction methods generalizing st table with
  | nil => cases h
  | cons decl rest ih =>
    rw [FunctionDecl.lastNamed_cons] at h
    rw [closeMethods]
    cases hrest : FunctionDecl.lastNamed name rest with
    | some d' =>
      rw [hrest] at h
      cases h
      exact ih hrest
    | none =>
      rw [hrest, Option.none_or] at h
      split at h
      · next heq =>
        cases h
        refine ⟨st.store.nextIdentity, (find?_closeMethods_of_none hrest).trans ?_⟩
        rw [NameTable.find?_insert, if_pos heq.symm, heq]
      · cases h

end Interpreter

/-- Declaring a variable makes no scope. -/
theorem Interpreter.nextScope_define (st : Interpreter) (name : String) (v : Value) :
    (st.define name v).store.nextScope = st.store.nextScope := by
  unfold Interpreter.define Store.define
  split
  · exact Store.size_put ..
  · rfl

namespace Machine.DeclaresClass

variable {w : Machine} {superclass : Option Class} {methods : List FunctionDecl}

/-- What a class statement makes: it inherits from what its superclass was evaluated to, and has its
methods. -/
theorem class_eq (h : w.DeclaresClass superclass methods c) : c.superclass? = superclass ∧
    ∃ st : Interpreter, c.body.methods =
      (st.closeMethods (w.methodEnv superclass) methods ∅).1 := by
  cases h with
  | plain hcontrol => exact ⟨rfl, _, rfl⟩
  | @inheriting name line methods k frames hcontrol hframes =>
    refine ⟨rfl, ((w.state.define name.lexeme .nil).enterSuperclass (some k)).2, ?_⟩
    have henv : ((w.state.define name.lexeme .nil).enterSuperclass (some k)).1 =
        w.methodEnv (some k) := by
      show (w.state.define name.lexeme .nil).store.nextScope :: w.state.env =
        w.state.store.nextScope :: w.state.env
      rw [Interpreter.nextScope_define]
    rw [← henv]
    rfl

theorem find?_of_some (h : w.DeclaresClass superclass methods c)
    (hd : FunctionDecl.lastNamed name methods = some d) :
    ∃ identity, c.body.methods.find? name =
      some ⟨identity, d, w.methodEnv superclass, name == "init"⟩ := by
  obtain ⟨-, st, hmethods⟩ := h.class_eq
  rw [hmethods]
  exact Interpreter.find?_closeMethods_of_some hd

theorem find?_of_none (h : w.DeclaresClass superclass methods c)
    (hd : FunctionDecl.lastNamed name methods = none) : c.body.methods.find? name = none := by
  obtain ⟨-, st, hmethods⟩ := h.class_eq
  rw [hmethods]
  exact Interpreter.find?_closeMethods_of_none hd

end Machine.DeclaresClass

/-! ## Looking for a method -/

namespace Class

theorem findMethod?_of_own {method : Closure} (h : c.body.methods.find? name = some method) :
    c.findMethod? name = some method := by
  rw [findMethod?, lineage, List.findSome?_cons, h]

theorem findMethod?_of_none (h : c.body.methods.find? name = none) :
    c.findMethod? name = c.superclass?.bind fun k => k.findMethod? name := by
  rw [findMethod?, lineage, List.findSome?_cons, h]
  obtain ⟨body, ancestors⟩ := c
  cases ancestors with
  | nil => rfl
  | cons b rest => rfl

/-- **The method that a class has is the one that is found along the class statements.** -/
theorem Finds.findMethod? {r : Option (FunctionDecl × Env)} (h : c.Finds past name r) :
    (c.findMethod? name).map (fun method => (method.decl, method.env)) = r ∧
      ∀ method, c.findMethod? name = some method → method.isInitializer = (name == "init") := by
  induction h with
  | own hw hc hd =>
    obtain ⟨identity, hfind⟩ := hc.find?_of_some hd
    rw [findMethod?_of_own hfind]
    refine ⟨rfl, ?_⟩
    rintro _ ⟨⟩
    rfl
  | nowhere hw hc hd =>
    rw [findMethod?_of_none (hc.find?_of_none hd), hc.class_eq.1]
    refine ⟨rfl, ?_⟩
    rintro _ ⟨⟩
  | inherited hw hc hd _ ih =>
    rw [findMethod?_of_none (hc.find?_of_none hd), hc.class_eq.1]
    exact ih

end Class

end

/-! ## Records -/

theorem Store.field?_congr {s s' : Store} (h : s.objects = s'.objects) (id : ObjectId)
    (name : String) : s.field? id name = s'.field? id name := by
  rw [field?, field?, h]

/-- What is known of a machine and its past: all objects and classes come from it, no two objects
have one number, and the fields of an object hold what was written last. -/
structure Records (past : List Machine) (m : Machine) : Prop where
  objects : ∀ o, m.Holds (.object o) → Created past o
  classes : ∀ c, m.HoldsClass c → c.Made past
  pastClasses : ∀ w ∈ past, ∀ c, w.HoldsClass c → c.Made past
  numbered : ∀ o, Created past o → o.id < m.state.store.nextObject
  unique : ∀ o o', Created past o → Created past o' → o.id = o'.id → o = o'
  written : ∀ w ∈ past, ∀ o name v, w.Writes o name v → Created past o
  fields : ∀ o, Created past o → ∀ name v, m.state.store.field? o.id name = some v ↔
    LastWrite past o name v

namespace Records

open Machine (Lasting)

variable {past : List Machine} {m : Machine}

section

variable (h : Records past m)

include h

/-- Only the store counts once there is nothing at hand. -/
theorem pause {c : Control} {st : Interpreter} (hc : c.values = [])
    (hst : st.store = m.state.store) : Records past ⟨c, [], st⟩ := by
  have hholds (v : Value) (hv : Machine.Holds ⟨c, [], st⟩ v) : m.Holds v := by
    cases hv with
    | «variable» hv =>
      rw [hst] at hv
      exact .variable hv
    | field hv =>
      rw [hst] at hv
      exact .field hv
    | control hv =>
      rw [hc] at hv
      cases hv
    | frame hf hv => cases hf
  refine ⟨fun o ho => h.objects o (hholds _ ho), ?_, h.pastClasses, ?_, h.unique, h.written, ?_⟩
  · rintro k ⟨v, hv, hk⟩
    exact h.classes k ⟨v, hholds v hv, hk⟩
  · intro o ho
    rw [hst]
    exact h.numbered o ho
  · intro o ho name v
    rw [hst]
    exact h.fields o ho name v

/-- The new machine of the past makes a class from what it holds. -/
theorem made_of_declares {superclass : Option Class} {methods : List FunctionDecl} {c : Class}
    (hc : m.DeclaresClass superclass methods c) : c.Made (past ++ [m]) := by
  refine .declared (List.mem_append_right _ List.mem_cons_self) hc ?_
  rintro k rfl
  refine (h.classes k ?_).mono (List.subset_append_left _ _)
  cases hc with
  | inheriting hcontrol hframes =>
    refine ⟨.cls k, .control ?_, rfl⟩
    rw [hcontrol]
    exact List.mem_cons_self

/-- All objects and classes after a step come from the past with it. -/
theorem holds_step : (∀ o, m.step.Holds (.object o) → Created (past ++ [m]) o) ∧
    ∀ c, m.step.HoldsClass c → c.Made (past ++ [m]) := by
  have hsub : past ⊆ past ++ [m] := List.subset_append_left _ _
  have hall : ∀ v, m.step.Holds v →
      (∀ o, v = .object o → Created (past ++ [m]) o) ∧ ∀ c, v.class? = some c →
      c.Made (past ++ [m]) := by
    refine Machine.holds_step ?_ ?_ ?_ ?_
    · intro v hv
      refine ⟨?_, ?_⟩
      · rintro o rfl
        cases hv
      · intro c hc
        rw [hv] at hc
        cases hc
    · intro v hv
      refine ⟨?_, ?_⟩
      · rintro o rfl
        exact created_concat.mpr (.inl (h.objects o hv))
      · intro c hc
        exact (h.classes c ⟨v, hv, hc⟩).mono hsub
    · intro superclass methods c hc
      refine ⟨?_, ?_⟩
      · rintro o ⟨⟩
      · rintro _ ⟨⟩
        exact h.made_of_declares hc
    · intro o ho
      refine ⟨?_, ?_⟩
      · rintro _ ⟨⟩
        exact created_concat.mpr (.inr ho)
      · rintro _ ⟨⟩
        obtain ⟨paren, arguments, frames, hcalls, -⟩ := ho.step
        exact (h.classes o.cls ⟨_, hcalls.holds.1, rfl⟩).mono hsub
  refine ⟨fun o ho => (hall _ ho).1 o rfl, ?_⟩
  rintro c ⟨v, hv, hc⟩
  exact (hall v hv).2 c hc

/-- The numbers of objects after a step. -/
theorem numbered_step (o : Object) (ho : Created (past ++ [m]) o) :
    o.id < m.step.state.store.nextObject := by
  have hsize : m.step.state.store.nextObject = m.step.state.store.objects.size := rfl
  rcases Machine.objects_step m with
    ⟨o₀, name, v, hwrites, hobjects⟩ | ⟨o₀, hcreates, hobjects⟩ | ⟨-, hnone, hobjects⟩
  · rw [hsize, hobjects, Store.setField, Array.size_modify]
    rcases created_concat.mp ho with ho | ho
    · exact h.numbered o ho
    · exact absurd ho (hwrites.not_creates o)
  · rw [hsize, hobjects, Store.addObject, Array.size_push]
    rcases created_concat.mp ho with ho | ho
    · exact Nat.lt_succ_of_lt (h.numbered o ho)
    · rw [ho.1]
      exact Nat.lt_succ_self _
  · rw [hsize, hobjects]
    rcases created_concat.mp ho with ho | ho
    · exact h.numbered o ho
    · exact absurd ho (hnone o)

theorem unique_step (o o' : Object) (ho : Created (past ++ [m]) o) (ho' : Created (past ++ [m]) o')
    (hid : o.id = o'.id) :
    o = o' := by
  -- An object of the past has a smaller number than the one that the step makes.
  have hapart {a b : Object} (ha : Created past a) (hb : m.Creates b) (hab : a.id = b.id) : a =
      b := by
    have hlt := h.numbered a ha
    rw [hab, hb.1] at hlt
    exact absurd hlt (Nat.lt_irrefl _)
  rcases created_concat.mp ho with ho | ho <;> rcases created_concat.mp ho' with ho' | ho'
  · exact h.unique o o' ho ho' hid
  · exact hapart ho ho' hid
  · exact (hapart ho' ho hid.symm).symm
  · exact ho.det ho'

theorem written_step (w : Machine) (hw : w ∈ past ++ [m]) (o : Object) (name : String) (v : Value)
    (hwrites : w.Writes o name v) : Created (past ++ [m]) o := by
  rcases List.mem_append.mp hw with hw | hw
  · exact created_concat.mpr (.inl (h.written w hw o name v hwrites))
  · cases List.mem_singleton.mp hw
    obtain ⟨frames, -, -, hholds, -⟩ := hwrites.step
    exact created_concat.mpr (.inl (h.objects o hholds))

/-- The step writes a field. -/
theorem fields_of_writes {o₀ : Object} {key : String} {v₀ : Value} (hwrites : m.Writes o₀ key v₀)
    (o : Object) (ho : Created past o) (name : String) (v : Value) :
    (m.state.store.setField o₀.id key v₀).field? o.id name = some v ↔
      LastWrite (past ++ [m]) o name v := by
  obtain ⟨frames, -, -, hholds, -⟩ := hwrites.step
  have ho₀ := h.objects o₀ hholds
  rw [Store.field?_setField, lastWrite_concat]
  by_cases hsame : o = o₀ ∧ name = key
  · obtain ⟨rfl, rfl⟩ := hsame
    rw [if_pos ⟨rfl, rfl, h.numbered o ho₀⟩]
    constructor
    · rintro ⟨⟩
      exact .inl hwrites
    · rintro (hv | ⟨-, hnone⟩)
      · obtain ⟨-, -, rfl⟩ := hwrites.det hv
        rfl
      · exact absurd hwrites (hnone v₀)
  · have hother (v' : Value) : ¬m.Writes o name v' := by
      intro hv'
      obtain ⟨rfl, rfl, -⟩ := hwrites.det hv'
      exact hsame ⟨rfl, rfl⟩
    have hid : ¬(o.id = o₀.id ∧ name = key ∧ o₀.id < m.state.store.objects.size) := by
      rintro ⟨hid, hname, -⟩
      exact hsame ⟨h.unique o o₀ ho ho₀ hid, hname⟩
    rw [if_neg hid, h.fields o ho]
    simp [hother]

/-- The step writes no field. -/
theorem fields_of_quiet (hquiet : ∀ o name v, ¬m.Writes o name v) (o : Object) (ho : Created past o)
    (name : String) (v : Value) :
    m.state.store.field? o.id name = some v ↔ LastWrite (past ++ [m]) o name v := by
  rw [lastWrite_concat, h.fields o ho]
  simp [hquiet]

/-- A new object has no fields, and nothing was written to it. -/
theorem fields_of_creates {o : Object} (ho : m.Creates o) (name : String) (v : Value) :
    m.state.store.field? o.id name = some v ↔ LastWrite (past ++ [m]) o name v := by
  constructor
  · intro hv
    rw [Store.field?, ho.1, Store.nextObject, Array.getElem?_eq_none (Nat.le_refl _)] at hv
    cases hv
  · intro hv
    rcases lastWrite_concat.mp hv with hv | ⟨hv, -⟩
    · exact absurd ho (hv.not_creates o)
    · obtain ⟨w, hw, hwrites⟩ := hv.written
      have hlt := h.numbered o (h.written w hw o name v hwrites)
      rw [ho.1] at hlt
      exact absurd hlt (Nat.lt_irrefl _)

theorem fields_step (o : Object) (ho : Created (past ++ [m]) o) (name : String) (v : Value) :
    m.step.state.store.field? o.id name = some v ↔ LastWrite (past ++ [m]) o name v := by
  rcases Machine.objects_step m with ⟨o₀, key, v₀, hwrites, hobjects⟩ | ⟨o₀, hcreates, hobjects⟩ |
    ⟨hquiet, hnone, hobjects⟩
  · rw [Store.field?_congr hobjects]
    rcases created_concat.mp ho with ho | ho
    · exact h.fields_of_writes hwrites o ho name v
    · exact absurd ho (hwrites.not_creates o)
  · rw [Store.field?_congr hobjects, Store.field?_addObject]
    rcases created_concat.mp ho with ho | ho
    · exact h.fields_of_quiet (fun o name v hv => hv.not_creates o₀ hcreates) o ho name v
    · exact h.fields_of_creates ho name v
  · rw [Store.field?_congr hobjects]
    rcases created_concat.mp ho with ho | ho
    · exact h.fields_of_quiet hquiet o ho name v
    · exact absurd ho (hnone o)

theorem step : Records (past ++ [m]) m.step := by
  obtain ⟨hobjects, hclasses⟩ := h.holds_step
  refine ⟨hobjects, hclasses, ?_, h.numbered_step, h.unique_step, h.written_step, h.fields_step⟩
  intro w hw c hc
  rcases List.mem_append.mp hw with hw | hw
  · exact (h.pastClasses w hw c hc).mono (List.subset_append_left _ _)
  · cases List.mem_singleton.mp hw
    exact (h.classes c hc).mono (List.subset_append_left _ _)

end

theorem lasting : Lasting Records :=
  ⟨fun _ _ h _ => h.step, fun _ _ _ _ h => h.pause⟩

/-- At the start there are native functions only. -/
theorem start (natives : List Native) (output : Output) (maxCallDepth : Nat) (clock : Nat → Float) :
    Records [] ⟨.flow .normal, [], .new natives output maxCallDepth clock⟩ := by
  have hnative (v : Value)
      (hv : Machine.Holds ⟨.flow .normal, [], .new natives output maxCallDepth clock⟩ v) : ∃ n, v =
      .native n := by
    cases hv with
    | «variable» hv => exact Interpreter.native_of_find?_new hv
    | @field id name v hv => cases (Interpreter.field?_new id name).symm.trans hv
    | control hv => cases hv
    | frame hf hv => cases hf
  have hempty (o : Object) : ¬Created [] o := by
    rintro ⟨w, hw, -⟩
    cases hw
  refine ⟨?_, ?_, ?_, ?_, ?_, ?_, ?_⟩
  · intro o ho
    obtain ⟨n, hn⟩ := hnative _ ho
    cases hn
  · rintro c ⟨v, hv, hc⟩
    obtain ⟨n, rfl⟩ := hnative v hv
    cases hc
  · rintro w ⟨⟩
  · exact fun o ho => absurd ho (hempty o)
  · exact fun o o' ho => absurd ho (hempty o)
  · rintro w ⟨⟩
  · exact fun o ho => absurd ho (hempty o)

end Records

/-! ## Reading a property -/

namespace Machine

variable {m : Machine} {o : Object} {name : Token} {frames : List Frame} {past : List Machine}

theorem step_get (hcontrol : m.control = .value (.object o))
    (hframes : m.frames = .get name :: frames) :
    m.step = give (m.state.property o name) frames := by
  obtain ⟨control, fs, st⟩ := m
  cases hcontrol
  cases hframes
  rfl

/-- A method that is found along the class statements is bound to the object. -/
theorem give_bindFound {env : Env} (h : o.cls.Finds past name.lexeme (some (d, env)))
    (st : Interpreter) :
    give (st.bindFound o name (o.cls.findMethod? name.lexeme)) frames =
      ⟨.value
      (.closure ⟨st.store.nextIdentity, d, st.store.nextScope :: env, name.lexeme == "init"⟩),
      frames,
        (st.addScope (NameTable.insert ∅ "this" (.object o))).addIdentity⟩ := by
  obtain ⟨hmap, hinit⟩ := h.findMethod?
  obtain ⟨method, hmethod, horigin⟩ := Option.map_eq_some_iff.mp hmap
  cases horigin
  rw [hmethod, ← hinit method hmethod]
  rfl

theorem give_bindFound_none (h : o.cls.Finds past name.lexeme none) (st : Interpreter) :
    give (st.bindFound o name (o.cls.findMethod? name.lexeme)) frames =
      ⟨.fault (.runtime name.line (.undefinedProperty name.lexeme)), frames, st⟩ := by
  rw [Option.map_eq_none_iff.mp h.findMethod?.1]
  rfl

end Machine

/-- **A property is what was stored last under its name in that very object, or else a method of the
nearest class that declares it.** At every moment of a session at which a property of an object is
read: the object was made by one machine of the past. If something was stored under the name in it,
the result is what was stored last. If nothing was, the result is the method that is found along the
class statements, starting with the class of the object, bound to the object in a new scope; and if
none is found, it is a fault. -/
theorem Session.property_by_history (natives : List Native) (output : Output) (maxCallDepth : Nat)
    (clock : Nat → Float) {roots : List Visit} {past : List Machine} {m : Machine}
    (h : MomentAfter (.new (.new natives output maxCallDepth clock)) roots past m) {o : Object}
    {name : Token} {frames : List Frame} (hcontrol : m.control = .value (.object o))
    (hframes : m.frames = .get name :: frames) :
    Created past o ∧ (∀ o', Created past o' → o'.id = o.id → o' = o) ∧
    ((∃ v, LastWrite past o name.lexeme v) ∨ Unwritten past o name.lexeme) ∧
    (∃ r, o.cls.Finds past name.lexeme r) ∧
    (∀ v, LastWrite past o name.lexeme v → m.step = ⟨.value v, frames, m.state⟩) ∧
    (Unwritten past o name.lexeme → ∀ d env, o.cls.Finds past name.lexeme (some (d, env)) →
      m.step = ⟨.value (.closure ⟨m.state.store.nextIdentity, d, m.state.store.nextScope :: env,
        name.lexeme == "init"⟩), frames,
        (m.state.addScope (NameTable.insert ∅ "this" (.object o))).addIdentity⟩) ∧
    (Unwritten past o name.lexeme → o.cls.Finds past name.lexeme none →
      m.step =
        ⟨.fault (.runtime name.line (.undefinedProperty name.lexeme)), frames, m.state⟩) := by
  have hrecords := h.keeps Records.lasting (.start natives output maxCallDepth clock)
  have hholds : m.Holds (.object o) := by
    refine .control ?_
    rw [hcontrol]
    exact List.mem_cons_self
  have hcreated := hrecords.objects o hholds
  have hstep := Machine.step_get hcontrol hframes
  have hunwritten (hu : Unwritten past o name.lexeme) : m.state.store.field? o.id name.lexeme =
      none := by
    refine Option.eq_none_iff_forall_ne_some.mpr ?_
    intro v hv
    obtain ⟨w, hw, hwrites⟩ := ((hrecords.fields o hcreated _ v).mp hv).written
    exact hu w hw v hwrites
  refine ⟨hcreated, fun o' ho' hid => hrecords.unique o' o ho' hcreated hid,
    lastWrite_or_unwritten _ _ _, (hrecords.classes o.cls ⟨_, hholds, rfl⟩).finds _, ?_, ?_, ?_⟩
  · intro v hv
    rw [hstep, Interpreter.property, (hrecords.fields o hcreated _ v).mpr hv]
    rfl
  · intro hu d env hfinds
    rw [hstep, Interpreter.property, hunwritten hu]
    exact Machine.give_bindFound hfinds m.state
  · intro hu hfinds
    rw [hstep, Interpreter.property, hunwritten hu]
    exact Machine.give_bindFound_none hfinds m.state

/-- The source
```
{ class A { m() {} m() { return; } } class B < A {}
  var b = B(); var c = b; A = nil; c.x = true; b.m; b.x; }
```
-/
def aliasing : List UInt8 :=
  ("\x7b class A \x7b m() \x7b\x7d m() \x7b return; \x7d \x7d class B < A \x7b\x7d " ++
    "var b = B(); var c = b; A = nil; c.x = true; b.m; b.x; \x7d").toUTF8.toList

/-- The machine some steps into this source. -/
def aliasingRun (steps : Nat) : Machine :=
  Session.into (.new (.new [] .unlimited 9 fun _ => 0)) aliasing steps

/-- The object and the property that the next step reads. -/
def Machine.reads? (m : Machine) : Option (Object × Token) :=
  match m.control, m.frames with
  | .value (.object o), .get name :: _ => some (o, name)
  | _, _ => none

theorem Machine.exists_of_reads? {m : Machine} {o : Object} {name : Token}
    (h : m.reads? = some (o, name)) :
    ∃ frames, m.control = .value (.object o) ∧ m.frames = .get name :: frames := by
  obtain ⟨control, frames, st⟩ := m
  unfold reads? at h
  split at h
  · next hcontrol hframes =>
    cases h
    exact ⟨_, hcontrol, hframes⟩
  · cases h

/-- The declaration `m() { return; }`. -/
def secondMethod : FunctionDecl :=
  ⟨⟨.identifier, "m", 1⟩, [], [.returnWith ⟨.keyword .returnWord, "return", 1⟩ none]⟩

/-- After 36 steps the source reads `b.m`. Nothing was stored there, and it is the second `m` of
`A`, though the name `A` is `nil` now. After 42 steps it reads `b.x`, which was stored under another
name of the object. -/
theorem aliasing_by_history : ∃ roots past past' o o',
    Session.MomentAfter (.new (.new [] .unlimited 9 fun _ => 0)) roots past (aliasingRun 36) ∧
    (aliasingRun 36).reads? = some (o, ⟨.identifier, "m", 1⟩) ∧
    (aliasingRun 36).state.store.get? (aliasingRun 36).state.env "A" = some .nil ∧
      Unwritten past o "m" ∧
    o.cls.Finds past "m" (some (secondMethod, [1, 0])) ∧
    Session.MomentAfter (.new (.new [] .unlimited 9 fun _ => 0)) roots past' (aliasingRun 42) ∧
    (aliasingRun 42).reads? = some (o', ⟨.identifier, "x", 1⟩) ∧
      LastWrite past' o' "x" (.bool true) := by
  have hmoment (steps : Nat) : Session.MomentAfter _ _ _ (aliasingRun steps) :=
    Session.momentAfter_into (by decide +kernel) (by decide +kernel) steps
  have hrun : ((aliasingRun 36).reads?.map Prod.snd, (aliasingRun 36).step.control,
      (aliasingRun 36).step.state.store.nextScope == (aliasingRun 36).state.store.nextScope,
      (aliasingRun 36).state.store.get? (aliasingRun 36).state.env "A", (aliasingRun 42).reads?.map
      Prod.snd, (aliasingRun 42).step.control) =
      (some ⟨.identifier, "m", 1⟩, .value (.closure ⟨4, secondMethod, [3, 1, 0], false⟩), false,
        some .nil, some ⟨.identifier, "x", 1⟩, .value (.bool true)) := by
    simp only [aliasingRun, show aliasing = _ from Utf8.encode_eq _]
    cbv
  simp only [Prod.mk.injEq] at hrun
  obtain ⟨hm, hmethod, hscope, hA, hx, hvalue⟩ := hrun
  obtain ⟨⟨o, name⟩, ho, rfl⟩ := Option.map_eq_some_iff.mp hm
  obtain ⟨⟨o', name'⟩, ho', rfl⟩ := Option.map_eq_some_iff.mp hx
  obtain ⟨frames, hcontrol, hframes⟩ := Machine.exists_of_reads? ho
  obtain ⟨frames', hcontrol', hframes'⟩ := Machine.exists_of_reads? ho'
  -- The first read makes a scope for `this`, so it does not give what was stored.
  obtain ⟨-, -, hwritten, ⟨r, hr⟩, hlast, hsome, hnone⟩ :=
    Session.property_by_history [] .unlimited 9 (fun _ => 0) (hmoment 36) hcontrol hframes
  have hunwritten : Unwritten (Machine.taken 36 (aliasingRun 0)) o "m" := by
    rcases hwritten with ⟨v, hv⟩ | hunwritten
    · rw [hlast v hv, beq_self_eq_true] at hscope
      cases hscope
    · exact hunwritten
  have hfinds : o.cls.Finds (Machine.taken 36 (aliasingRun 0)) "m"
      (some (secondMethod, [1, 0])) := by
    rcases r with _ | ⟨d, env⟩
    · rw [hnone hunwritten hr] at hmethod
      cases hmethod
    · rw [hsome hunwritten d env hr] at hmethod
      simp only [Control.value.injEq, Value.closure.injEq, Closure.mk.injEq, List.cons.injEq]
        at hmethod
      obtain ⟨-, rfl, ⟨-, rfl⟩, -⟩ := hmethod
      exact hr
  -- The second read gives a value, so it does not give a method.
  obtain ⟨-, -, hwritten', ⟨r', hr'⟩, hlast', hsome', hnone'⟩ :=
    Session.property_by_history [] .unlimited 9 (fun _ => 0) (hmoment 42) hcontrol' hframes'
  refine ⟨_, _, _, o, o', hmoment 36, ho, hA, hunwritten, hfinds, hmoment 42, ho', ?_⟩
  rcases hwritten' with ⟨v, hv⟩ | hunwritten'
  · rw [hlast' v hv] at hvalue
    cases hvalue
    exact hv
  · rcases r' with _ | ⟨d, env⟩
    · rw [hnone' hunwritten' hr'] at hvalue
      cases hvalue
    · rw [hsome' hunwritten' d env hr'] at hvalue
      cases hvalue

end Lox
