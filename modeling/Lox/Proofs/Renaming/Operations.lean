import Lox.Proofs.Lexical.Calls
import Lox.Proofs.Renaming.Store

/-!
# Operations on renamed states

Two states are related if their stores are and all else is the same (`Interpreter.Renamed`). Then
each operation of the machine gives related answers and leaves related states (`Answered`). It may
make scopes on the way; those that are made without a block or a call, for `this` and `super`, are
not marked.

Only one thing shows the new name: the report of a variable that is missing (`Fault.Renamed`).
-/

namespace Lox

variable {R : Renaming} {M M' : ScopeMarks} {marks : Marks} {arguments arguments' : List Value}
  {n : String} {v : Value} {env : Env}

/-- What ends a run, and what ends that of the renamed program. -/
inductive Fault.Renamed (R : Renaming) : Fault → Fault → Prop where
  | same (f : Fault) : Renamed R f f
  | undefined (line : Nat) (here : Bool) (n : String) :
      Renamed R (.runtime line (.undefinedVariable n))
      (.runtime line (.undefinedVariable (R.name here n)))

/-- Results of which both are related values or both are faults. -/
inductive Answers {α : Type} (R : Renaming) (P : α → α → Prop) :
    Except Fault α → Except Fault α → Prop where
  | ok {a a' : α} (h : P a a') : Answers R P (.ok a) (.ok a')
  | error {f f' : Fault} (h : f.Renamed R f') : Answers R P (.error f) (.error f')

/-! ## Operators -/

namespace Value

variable {v v' w w' : Value}

theorem numbers_renamed (line : Nat) {f : Float → Float → Value} (hv : v.Renamed R M v')
    (hw : w.Renamed R M w') (hf : ∀ a b, (f a b).Renamed R M (f a b)) :
    Answers R (Value.Renamed R M) (numbers line v w f) (numbers line v' w' f) := by
  cases hv with
  | number a =>
    cases hw with
    | number b => exact .ok (hf a b)
    | _ => exact .error (.same _)
  | _ => exact .error (.same _)

theorem plus_renamed (line : Nat) (hv : v.Renamed R M v') (hw : w.Renamed R M w') :
    Answers R (Value.Renamed R M) (plus line v w) (plus line v' w') := by
  cases hv with
  | number a =>
    cases hw with
    | number b => exact .ok (.number _)
    | _ => exact .error (.same _)
  | string a =>
    cases hw with
    | string b => exact .ok (.string _)
    | _ => exact .error (.same _)
  | _ => exact .error (.same _)

theorem unary_renamed (operator : Token) (hv : v.Renamed R M v') :
    Answers R (Value.Renamed R M) (v.unary operator) (v'.unary operator) := by
  unfold unary
  rw [hv.isTruthy_eq]
  split
  · cases hv with
    | number a => exact .ok (.number _)
    | _ => exact .error (.same _)
  · exact .ok (.bool _)
  · exact .error (.same _)

/-- An operator answers alike to related values. -/
theorem binary_renamed (operator : Token) (hv : v.Renamed R M v') (hw : w.Renamed R M w') :
    Answers R (Value.Renamed R M) (v.binary operator w) (v'.binary operator w') := by
  simp only [binary, hv.same_eq hw]
  split
  case h_1 => exact plus_renamed _ hv hw
  case h_9 | h_10 => exact .ok (.bool _)
  case h_11 => exact .error (.same _)
  case h_2 | h_3 | h_4 => exact numbers_renamed _ hv hw fun _ _ => .number _
  all_goals exact numbers_renamed _ hv hw fun _ _ => .bool _

end Value

/-- A native function cannot tell related arguments apart. -/
theorem Value.Renamed.sight_eq (h : v.Renamed R M v') : v'.sight = v.sight := by
  simp only [sight, h.typeName_eq, h.display_eq, h.isTruthy_eq]
  cases h <;> rfl

/-! ## States -/

/-- A state in the middle of a program, and that of the renamed program. The environment is that of
a place with some marks. -/
inductive Interpreter.Renamed (R : Renaming) (M : ScopeMarks) (marks : Marks) (st : Interpreter) :
    Interpreter → Prop where
  | mk {store' : Store} (store : st.store.Renamed R M store') (env : st.env.Marked M marks)
      (global : M[st.globals]? = some false) (distances : st.distances = R.distances) :
      Renamed R M marks st { st with store := store' }

/-- Answers of an operation that are related, with related states after it. There may be more scopes
than before. -/
inductive Answered {α : Type} (R : Renaming) (M : ScopeMarks) (marks : Marks)
    (P : ScopeMarks → α → α → Prop) (r r' : Except Fault α × Interpreter) : Prop where
  | mk {M' : ScopeMarks} (hM : M <+: M') (answers : Answers R (P M') r.1 r'.1)
      (state : r.2.Renamed R M' marks r'.2) : Answered R M marks P r r'

/-- An operation that makes no scope. -/
theorem Answered.here {α : Type} {P : ScopeMarks → α → α → Prop}
    {r r' : Except Fault α × Interpreter} (answers : Answers R (P M) r.1 r'.1)
    (state : r.2.Renamed R M marks r'.2) : Answered R M marks P r r' :=
  .mk (List.prefix_refl M) answers state

/-! ### Finding variables -/

namespace Store

variable (s : Store)

theorem get?_singleton (g : ScopeId) (n : String) : s.get? [g] n = s.find? g n := by
  simp only [get?, List.findSome?_cons, List.findSome?_nil]
  cases s.find? g n <;> rfl

theorem binder?_singleton (g : ScopeId) (n : String) :
    s.binder? [g] n = if s.contains g n then some g else none := by
  simp only [binder?, List.find?_cons, List.find?_nil]
  cases s.contains g n <;> rfl

/-- A name that the innermost scope has is found there. -/
theorem binder?_eq_head? (h : ∀ scope, env.head? = some scope → s.contains scope n = true) :
    s.binder? env n = env.head? := by
  cases env with
  | nil => rfl
  | cons scope env => simp [binder?, h scope rfl]

end Store

namespace Interpreter

theorem found_renamed (here : Bool) (n : String) (line : Nat) {v? v'? : Option Value}
    (h : Option.Rel (Value.Renamed R M) v? v'?) :
    Answers R (Value.Renamed R M) (found n line v?) (found (R.name here n) line v'?) := by
  cases h with
  | some hv => exact .ok hv
  | none => exact .error (.undefined line here n)

namespace Renamed

variable {st st' : Interpreter} {name : Token} {scope : ScopeId} {v' : Value} {outer : Marks}
  {o o' : Object} {ds ds' : List FunctionDecl} {c? c'? : Option Class}

variable (h : st.Renamed R M marks st')

include h

theorem stores : st.store.Renamed R M st'.store := by
  obtain ⟨hstore, -, -, -⟩ := h
  exact hstore

theorem marked : st.env.Marked M marks := by
  obtain ⟨-, henv, -, -⟩ := h
  exact henv

theorem env_eq : st'.env = st.env := by
  obtain ⟨-, -, -, -⟩ := h
  rfl

theorem callDepth_eq : st'.callDepth = st.callDepth := by
  obtain ⟨-, -, -, -⟩ := h
  rfl

theorem maxCallDepth_eq : st'.maxCallDepth = st.maxCallDepth := by
  obtain ⟨-, -, -, -⟩ := h
  rfl

theorem output_eq : st'.output = st.output := by
  obtain ⟨-, -, -, -⟩ := h
  rfl

/-! ### Variables -/

/-- **A variable is found under the name that its scope has for it.** -/
theorem lookUp (id : NodeId) (hname : name.lexeme ≠ R.new) :
    Answers R (Value.Renamed R M) (st.lookUp id name)
      (st'.lookUp id (R.token (marks.at? R.distances[id]?) name)) := by
  obtain ⟨hstore, henv, hglobal, hdistances⟩ := h
  refine found_renamed _ _ _ ?_
  simp only [hdistances, Store.get?_singleton]
  cases R.distances[id]? with
  | none => exact hstore.values hglobal hname
  | some d => exact hstore.getAt? henv d hname

/-- An assignment reaches the same scope under either name. -/
theorem target?_eq (id : NodeId) (hn : n ≠ R.new) :
    st'.target? id (R.name (marks.at? R.distances[id]?) n) = st.target? id n := by
  obtain ⟨hstore, henv, hglobal, hdistances⟩ := h
  simp only [target?, hdistances, Store.binder?_singleton]
  cases R.distances[id]? with
  | none => simp only [Marks.at?, hstore.contains_eq hglobal hn]
  | some d => exact hstore.binderAt?_eq henv d hn

theorem put {b : Bool} (hb : M[scope]? = some b) (hn : n ≠ R.new) (hv : v.Renamed R M v') :
    (st.put scope n v).Renamed R M marks (st'.put scope (R.name b n) v') := by
  obtain ⟨hstore, henv, hglobal, hdistances⟩ := h
  exact .mk (hstore.put hb hn hv) henv hglobal hdistances

/-- The scope that a name is assigned in has the mark of the distance to it. -/
theorem marked_of_target? {id : NodeId} (htarget : st.target? id n = some scope) :
    M[scope]? = some (marks.at? R.distances[id]?) := by
  obtain ⟨-, henv, hglobal, hdistances⟩ := h
  simp only [target?, hdistances, Store.binder?_singleton, Store.binderAt?] at htarget
  -- Without a distance only the global scope is asked, with one only the scope at that distance.
  cases hd : R.distances[id]? with
  | none =>
    simp only [hd] at htarget
    split at htarget
    · cases htarget
      exact hglobal
    · cases htarget
  | some d =>
    simp only [hd] at htarget
    split at htarget
    · next scope' hscope =>
      split at htarget
      · cases htarget
        exact henv.getElem? hscope
      · cases htarget
    · cases htarget

/-- Assignments to a variable and to the renamed one. -/
theorem assign (id : NodeId) (hname : name.lexeme ≠ R.new) (hv : v.Renamed R M v') :
    Answered R M marks (Value.Renamed R) (st.assign id name v)
      (st'.assign id (R.token (marks.at? R.distances[id]?) name) v') := by
  simp only [Interpreter.assign, Renaming.lexeme_token, h.target?_eq id hname]
  cases htarget : st.target? id name.lexeme with
  | none => exact .here (.error (.undefined _ _ _)) h
  | some scope => exact .here (.ok hv) (h.put (h.marked_of_target? htarget) hname hv)

/-- Declarations of a variable and of the renamed one. -/
theorem define (hn : n ≠ R.new) (hv : v.Renamed R M v') :
    (st.define n v).Renamed R M marks (st'.define (R.name marks.here n) v') := by
  obtain ⟨hstore, henv, hglobal, hdistances⟩ := h
  exact .mk (hstore.define henv hn hv) henv hglobal hdistances

/-- Entering a new scope, marked or not, inside an environment. -/
theorem enter (henv : env.Marked M outer) {b : Bool} {t t' : NameTable Value}
    (ht : ∀ {n}, n ≠ R.new → Option.Rel (Value.Renamed R M) (t.find? n) (t'.find? (R.name b n))) :
    (st.enter env t).Renamed R (M ++ [b]) (b :: outer) (st'.enter env t') := by
  obtain ⟨hstore, -, hglobal, hdistances⟩ := h
  have hinner : Env.Marked (M ++ [b]) (st.store.nextScope :: env) (b :: outer) := by
    rw [Store.nextScope, hstore.scopes]
    exact henv.enter b
  have hglobal' := ScopeMarks.mono (List.prefix_append M [b]) hglobal
  simp only [Interpreter.enter, hstore.nextScope_eq]
  exact .mk (hstore.addScope ht) hinner hglobal' hdistances

theorem leave (henv : env.Marked M outer) : (st.leave env).Renamed R M outer (st'.leave env) := by
  obtain ⟨hstore, -, hglobal, hdistances⟩ := h
  exact .mk hstore henv hglobal hdistances

/-! ### Methods and properties -/

/-- A new scope with one entry, which is not marked. -/
theorem addScope (word : String) (hv : v.Renamed R M v') :
    (st.addScope (NameTable.insert ∅ word v)).Renamed R (M ++ [false]) marks
      (st'.addScope (NameTable.insert ∅ word v')) := by
  obtain ⟨hstore, henv, hglobal, hdistances⟩ := h
  have hM : M <+: M ++ [false] := List.prefix_append M [false]
  refine .mk (hstore.addScope fun {n} _ => ?_) (henv.mono hM) (ScopeMarks.mono hM hglobal)
    hdistances
  rw [Renaming.name_false, NameTable.find?_insert, NameTable.find?_insert]
  split
  · exact .some hv
  · exact .none

theorem addIdentity : st.addIdentity.Renamed R M marks st'.addIdentity := by
  obtain ⟨hstore, henv, hglobal, hdistances⟩ := h
  exact .mk hstore.addIdentity henv hglobal hdistances

/-- A function is closed over the environment of the place that its marks are about. -/
theorem close (inner : Marks) (henv : env.Marked M outer) (isInitializer : Bool)
    {d d' : FunctionDecl} (hd : Stmt.RenamedFunction R (inner ++ outer) d d') :
    (st.close env isInitializer d).1.Renamed R M inner (st'.close env isInitializer d').1 ∧
      (st.close env isInitializer d).2.Renamed R M marks (st'.close env isInitializer d').2 := by
  refine ⟨⟨?_, outer, henv, hd⟩, h.addIdentity⟩
  simp only [Interpreter.close, h.stores.identity]

/-- Methods bound to related objects are related. -/
theorem bind {m m' : Closure} (hm : m.Renamed R M [false] m') (ho : o.Renamed R M o') :
    (st.bind m o).1.Renamed R (M ++ [false]) [] (st'.bind m' o').1 ∧
      (st.bind m o).2.Renamed R (M ++ [false]) marks (st'.bind m' o').2 := by
  have hthis := h.addScope "this" (.object ho)
  simp only [Interpreter.bind, h.stores.nextScope_eq, hm.env_eq, hm.isInitializer_eq]
  obtain ⟨-, outer, henv, hdecl⟩ := hm
  -- The scope of `this` is the one that was still to come between the environment and the function.
  have hinner : Env.Marked (M ++ [false]) (st.store.nextScope :: m.env) (false :: outer) := by
    rw [Store.nextScope, h.stores.scopes]
    exact henv.enter false
  exact hthis.close [] hinner m.isInitializer hdecl

theorem bindFound (ho : o.Renamed R M o') (name : Token) {m? m'? : Option Closure}
    (hm : Option.Rel (Closure.Renamed R M [false]) m? m'?) :
    Answered R M marks (Value.Renamed R) (st.bindFound o name m?) (st'.bindFound o' name m'?) := by
  cases hm with
  | none => exact .here (.error (.same _)) h
  | some hm =>
    obtain ⟨hclosure, hstate⟩ := h.bind hm ho
    exact .mk (List.prefix_append M [false]) (.ok (.closure hclosure)) hstate

/-- Related objects have related properties. -/
theorem property (ho : o.Renamed R M o') (name : Token) :
    Answered R M marks (Value.Renamed R) (st.property o name) (st'.property o' name) := by
  have hfield : Option.Rel (Value.Renamed R M) (st.store.field? o.id name.lexeme)
      (st'.store.field? o'.id name.lexeme) := by
    rw [ho.id]
    exact h.stores.fields o.id name.lexeme
  unfold Interpreter.property
  generalize st.store.field? o.id name.lexeme = v? at hfield
  generalize st'.store.field? o'.id name.lexeme = v'? at hfield
  cases hfield with
  | some hv => exact .here (.ok hv) h
  | none => exact h.bindFound ho name (ho.cls.findMethod? name.lexeme)

theorem setField (ho : o.Renamed R M o') (n : String) (hv : v.Renamed R M v') :
    (st.setField o n v).Renamed R M marks (st'.setField o' n v') := by
  obtain ⟨hstore, henv, hglobal, hdistances⟩ := h
  simp only [Interpreter.setField, ho.id]
  exact .mk (hstore.setField o.id n hv) henv hglobal hdistances

/-- The names `this` and `super` are never renamed. -/
theorem superBinding (hR : R.Proper) (id : NodeId) (word : Token) :
    Answers R (fun b b' => b.1.Renamed R M b'.1 ∧ b.2.Renamed R M b'.2) (st.superBinding id word)
      (st'.superBinding id word) := by
  obtain @⟨store', hstore, henv, -, hdistances⟩ := h
  simp only [Interpreter.superBinding, hdistances]
  cases R.distances[id]? with
  | none => exact .error (.same _)
  | some d =>
    -- The scope of `this` is directly inside that of `super`.
    have hsuper := hstore.getAt?_of_ne henv d hR.new.2.symm hR.old.2.symm
    have hthis := hstore.getAt?_of_ne henv (d - 1) hR.new.1.symm hR.old.1.symm
    dsimp only
    generalize st.store.getAt? st.env d "super" = c? at hsuper
    generalize store'.getAt? st.env d "super" = c'? at hsuper
    generalize st.store.getAt? st.env (d - 1) "this" = o? at hthis
    generalize store'.getAt? st.env (d - 1) "this" = o'? at hthis
    cases hsuper with
    | none => exact .error (.same _)
    | some hc =>
      cases hthis with
      | none => exact .error (.same _)
      | some ho =>
        cases hc with
        | cls hc =>
          cases ho with
          | object ho => exact .ok ⟨hc, ho⟩
          | _ => exact .error (.same _)
        | _ => cases ho <;> exact .error (.same _)

/-- Related methods are reached through `super`. -/
theorem superMethod (hR : R.Proper) (id : NodeId) (word method : Token) :
    Answered R M marks (Value.Renamed R) (st.superMethod id word method) (st'.superMethod id word
      method) := by
  have hbinding := h.superBinding hR id word
  unfold Interpreter.superMethod
  generalize st.superBinding id word = b at hbinding
  generalize st'.superBinding id word = b' at hbinding
  cases hbinding with
  | error hf => exact .here (.error hf) h
  | ok hb => exact h.bindFound hb.2 method (hb.1.findMethod? method.lexeme)

/-! ### Classes -/

theorem closeMethods (henv : env.Marked M outer)
    (hds : Stmt.RenamedMethods R (false :: outer) ds ds') {t t' : NameTable Closure}
    (ht : ∀ n, Option.Rel (Closure.Renamed R M [false]) (t.find? n) (t'.find? n)) :
    (∀ n, Option.Rel (Closure.Renamed R M [false]) ((st.closeMethods env ds t).1.find? n)
      ((st'.closeMethods env ds' t').1.find? n)) ∧
      (st.closeMethods env ds t).2.Renamed R M marks (st'.closeMethods env ds' t').2 := by
  induction ds generalizing st st' ds' t t' with
  | nil =>
    cases hds
    exact ⟨ht, h⟩
  | cons d ds ih =>
    cases hds with
    | @cons _ _ d' _ ds' hd hds =>
      -- A method is found under the name of its declaration, so the two tables have the same names.
      have hname : d'.name = d.name := hd.name_eq
      have hclosed := h.close [false] henv (d.name.lexeme == "init") hd
      simp only [Interpreter.closeMethods, hname]
      refine ih hclosed.2 hds fun n => ?_
      rw [NameTable.find?_insert, NameTable.find?_insert]
      split
      · exact .some hclosed.1
      · exact ht n

/-- The scope that holds `super` is not marked. -/
theorem enterSuperclass (hc : Option.Rel (Class.Renamed R M) c? c'?) :
    ∃ M', M <+: M' ∧ (st'.enterSuperclass c'?).1 = (st.enterSuperclass c?).1 ∧
      (st.enterSuperclass c?).1.Marked M' ((c?.map fun _ => false).toList ++ marks) ∧
      (st.enterSuperclass c?).2.Renamed R M' marks (st'.enterSuperclass c'?).2 := by
  cases hc with
  | none => exact ⟨M, List.prefix_refl M, h.env_eq, h.marked, h⟩
  | some hc =>
    refine ⟨M ++ [false], List.prefix_append M [false], ?_, ?_, h.addScope "super" (.cls hc)⟩
    · simp only [Interpreter.enterSuperclass, h.stores.nextScope_eq, h.env_eq]
    · simp only [Interpreter.enterSuperclass, Store.nextScope, h.stores.scopes]
      exact h.marked.enter false

/-- While a class is made, its name stays bound in the innermost scope. -/
theorem contains_closeMethods (n : String) (c? : Option Class) (env : Env) (ds : List FunctionDecl)
    (hscope : st.env.head? = some scope) :
    (((st.define n .nil).enterSuperclass c?).2.closeMethods env ds ∅).2.addIdentity.store.contains
      scope n = true := by
  have hlt : scope < st.store.scopes.size := by
    rw [h.stores.scopes]
    exact (List.getElem?_eq_some_iff.mp (h.marked.head? hscope)).1
  have hdefined : (st.define n .nil).store.contains scope n = true := by
    obtain ⟨rest, hrest⟩ := List.head?_eq_some_iff.mp hscope
    simp [Interpreter.define, Store.define, hrest, Store.contains, Store.find?_put, hlt]
  have hgrows : (st.define n .nil).store.Grows 0
      ((st.define n .nil).enterSuperclass c?).2.store := by
    cases c? with
    | none => exact .refl
    | some c => exact .addScope _ (Nat.zero_le _)
  have hsame : ((st.define n .nil).enterSuperclass c?).2.store.Grows 0
      (((st.define n .nil).enterSuperclass c?).2.closeMethods env ds ∅).2.addIdentity.store :=
    .of_scopes (closeMethods_scopes env ds ∅)
  exact (hgrows.trans hsame).kept scope n hdefined

/-- Declarations of related classes. -/
theorem defineClass (hname : R.Keeps marks name.lexeme) (hc : Option.Rel (Class.Renamed R M) c? c'?)
    (hds : Stmt.RenamedMethods R (false :: ((c?.map fun _ => false).toList ++ marks)) ds ds') :
    Answered R M marks (fun _ _ _ => True) (st.defineClass name c? ds) (st'.defineClass name c'?
      ds') := by
  have hdefine := h.define hname.fresh .nil
  rw [hname.name_eq] at hdefine
  obtain ⟨M', hM, hsame, henv, henter⟩ := hdefine.enterSuperclass hc
  have hempty (n : String) : Option.Rel (Closure.Renamed R M' [false])
      ((∅ : NameTable Closure).find? n) ((∅ : NameTable Closure).find? n) := .none
  obtain ⟨htable, hclose⟩ := henter.closeMethods henv hds hempty
  have hplace := (enterSuperclass_samePlace (st.define name.lexeme .nil) c?).trans
    (closeMethods_samePlace _ ((st.define name.lexeme .nil).enterSuperclass c?).1 ds ∅)
  have hbound (scope : ScopeId) (hscope : st.env.head? = some scope) :=
    h.contains_closeMethods name.lexeme c? ((st.define name.lexeme .nil).enterSuperclass c?).1 ds
      hscope
  simp only [Interpreter.defineClass, hsame]
  generalize ((st.define name.lexeme .nil).enterSuperclass c?).2.closeMethods _ ds ∅ = closed at *
  generalize ((st'.define name.lexeme .nil).enterSuperclass c'?).2.closeMethods _ ds' ∅ =
    closed' at *
  have hstate := hclose.addIdentity
  have hbody : ClassBody.Renamed R M' ⟨closed.2.store.nextIdentity, name.lexeme, closed.1⟩
      ⟨closed'.2.store.nextIdentity, name.lexeme, closed'.1⟩ :=
    ⟨hclose.stores.identity, rfl, htable⟩
  have hcls := Class.Renamed.extend hbody (optionRel_mono (fun _ _ => Class.Renamed.mono hM) hc)
  -- In both programs the name is bound in the innermost scope, so that is where the class goes.
  have hhead (scope : ScopeId) (hscope : closed.2.addIdentity.env.head? = some scope) :
      closed.2.addIdentity.store.contains scope name.lexeme = true :=
    hbound scope (hplace.env ▸ hscope)
  have hhead' (scope : ScopeId) (hscope : closed'.2.addIdentity.env.head? = some scope) :
      closed'.2.addIdentity.store.contains scope name.lexeme = true := by
    rw [hstate.env_eq] at hscope
    have hsame := hstate.stores.contains_eq (hstate.marked.head? hscope) hname.fresh
    rw [hname.name_eq] at hsame
    exact hsame.trans (hhead scope hscope)
  rw [Store.binder?_eq_head? _ hhead, Store.binder?_eq_head? _ hhead', hstate.env_eq]
  cases hscope : closed.2.addIdentity.env.head? with
  | none => exact .mk hM (.error (.same _)) hstate
  | some scope =>
    have hput := hstate.put (hstate.marked.head? hscope) hname.fresh (.cls hcls)
    rw [hname.name_eq] at hput
    exact .mk hM (.ok trivial) hput

/-! ### Output -/

theorem print (hv : v.Renamed R M v') :
    Answered R M marks (fun _ _ _ => True) (st.print v) (st'.print v') := by
  obtain ⟨hstore, henv, hglobal, hdistances⟩ := h
  simp only [Interpreter.print, hv.pieces_eq]
  refine .here ?_ (.mk hstore henv hglobal hdistances)
  dsimp only
  split
  · exact .ok trivial
  · exact .error (.same _)

theorem withCallDepth (n : Nat) :
    ({ st with callDepth := n } : Interpreter).Renamed R M marks { st' with callDepth := n } := by
  obtain ⟨hstore, henv, hglobal, hdistances⟩ := h
  exact .mk hstore henv hglobal hdistances

theorem addObject :
    ({ st with store := st.store.addObject } : Interpreter).Renamed R M marks
      { st' with store := st'.store.addObject } := by
  obtain ⟨hstore, henv, hglobal, hdistances⟩ := h
  exact .mk hstore.addObject henv hglobal hdistances

end Renamed

end Interpreter

/-! ## Calls -/

namespace Machine

theorem callNative_renamed {st st' : Interpreter} (h : st.Renamed R M marks st') (n : Native)
    (paren : Token) (hargs : List.Forall₂ (Value.Renamed R M) arguments arguments') :
    Answered R M marks (Value.Renamed R) (callNative n paren arguments st)
      (callNative n paren arguments' st') := by
  obtain ⟨hstore, henv, hglobal, hdistances⟩ := h
  have hsights : arguments'.map Value.sight = arguments.map Value.sight := by
    induction hargs with
    | nil => rfl
    | cons hv _ ih => rw [List.map_cons, List.map_cons, hv.sight_eq, ih]
  simp only [callNative, hsights]
  cases n.answer (st.clock st.readings) (arguments.map Value.sight) with
  | ok l => exact .here (.ok (Value.renamed_ofLiteral l)) (.mk hstore henv hglobal hdistances)
  | error message => exact .here (.error (.same _)) (.mk hstore henv hglobal hdistances)

/-- A call gives each parameter its argument, under the new name if the scope of the call is
marked. -/
theorem callVariables_renamed {params : List Token} (hparams : ∀ p ∈ params, p.lexeme ≠ R.new)
    (here : Bool) (hargs : List.Forall₂ (Value.Renamed R M) arguments arguments') (hn : n ≠ R.new) :
    Option.Rel (Value.Renamed R M) ((callVariables params arguments).find? n)
      ((callVariables (params.map (R.token here)) arguments').find? (R.name here n)) := by
  -- The parameters are put into the table one by one, so this is shown for any two related tables.
  suffices hgeneral : ∀ {t t' : NameTable Value},
      Option.Rel (Value.Renamed R M) (t.find? n) (t'.find? (R.name here n)) →
      Option.Rel (Value.Renamed R M)
        (((params.zip arguments).foldl (fun t entry => t.insert entry.1.lexeme entry.2) t).find? n)
        ((((params.map (R.token here)).zip arguments').foldl
          (fun t entry => t.insert entry.1.lexeme entry.2) t').find? (R.name here n)) from hgeneral
          .none
  induction params generalizing arguments arguments' with
  | nil => exact fun ht => ht
  | cons p params ih =>
    intro t t' ht
    cases hargs with
    | nil => exact ht
    | cons hv hargs =>
      refine ih (fun q hq => hparams q (List.mem_cons_of_mem _ hq)) hargs ?_
      simp only [Renaming.lexeme_token, NameTable.find?_insert,
        Renaming.name_inj hn (hparams p List.mem_cons_self)]
      split
      · exact .some hv
      · exact ht

end Machine

end Lox
