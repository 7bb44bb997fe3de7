import Lox.Proofs.Binding.Programs
import Lox.Proofs.Pieces.Whole

/-!
# Global variables stay

Whatever a session runs or evaluates, and however that ends, no global variable goes away
(`Session.Reached.keepsGlobals`). The walk over a program counts on it: in the initial value of a
global variable it allows a read of that variable if the variable exists already, or if an earlier
statement at the top level declares it. When the initial value is evaluated the earlier statements
have run, so either way the variable is there.
-/

namespace Lox

variable {g : ScopeId}

/-! ## No scope loses a name -/

theorem Frame.confined_of_subset {names : List String} {env : Env} {frames : List Frame}
    (h : frames.flatMap direct ⊆ names) : Confined g names env frames := by
  induction frames generalizing env with
  | nil => exact .nil
  | cons frame frames ih =>
    rw [List.flatMap_cons, List.append_subset] at h
    exact .cons (fun _ => h.1) (ih h.2)

namespace Machine

/-- Every machine can add only names that stand in it. -/
theorem confined (m : Machine) (hg : g < m.state.store.scopes.size) :
    Confined g (m.control.direct ++ m.frames.flatMap Frame.direct) m :=
  ⟨hg, fun _ => List.subset_append_left _ _,
    Frame.confined_of_subset (List.subset_append_right _ _)⟩

theorem contains_run (steps : Nat) (m : Machine) {name : String}
    (h : m.state.store.contains g name = true) : (run steps m).state.store.contains g name = true :=
  ((m.confined (Store.lt_of_contains h)).run steps).kept name h

/-- Which scope is the global one never changes. -/
theorem globals_step (m : Machine) : m.step.state.globals = m.state.globals := by
  have h := (step_returns m).home.globals
  rw [home, unwind_eq, unwind_eq m.frames] at h
  exact h

theorem globals_run (steps : Nat) (m : Machine) :
    (run steps m).state.globals = m.state.globals := by
  induction steps generalizing m with
  | zero => rfl
  | succ steps ih =>
    rw [run]
    split
    · rfl
    · rw [ih, globals_step]

end Machine

namespace Interpreter

variable {r : Except Fault Unit × Interpreter}

/-- The global scope is the same, and has its names still. -/
structure KeepsGlobals (st st' : Interpreter) : Prop where
  globals : st'.globals = st.globals
  lt : st.globals < st.store.scopes.size → st.globals < st'.store.scopes.size
  names : ∀ name, st.store.contains st.globals name = true →
    st'.store.contains st.globals name = true

variable {st st₁ st₂ : Interpreter} {budget : Nat}

theorem KeepsGlobals.refl : KeepsGlobals st st :=
  ⟨rfl, id, fun _ h => h⟩

theorem KeepsGlobals.trans (h : KeepsGlobals st st₁) (h' : KeepsGlobals st₁ st₂) :
    KeepsGlobals st st₂ := by
  obtain ⟨hglobals, hlt, hnames⟩ := h'
  rw [h.globals] at hglobals hlt hnames
  exact ⟨hglobals, fun hst => hlt (h.lt hst), fun name hname => hnames name (h.names name hname)⟩

/-- A machine keeps the global variables that there are. -/
theorem keepsGlobals_machine (steps : Nat) (m : Machine) :
    KeepsGlobals m.state (Machine.run steps m).state :=
  ⟨Machine.globals_run steps m, fun h => Nat.lt_of_lt_of_le h ((m.confined h).run steps).size,
    fun _ h => Machine.contains_run steps m h⟩

theorem keepsGlobals_execute {s : Stmt} {e : Ending × Interpreter}
    (h : st.execute budget s = some e) : KeepsGlobals st e.2 := by
  rw [← (Machine.state_of_ending? h).2]
  exact keepsGlobals_machine budget ⟨.exec s, [], st⟩

theorem keepsGlobals_evaluate {e : Expr} {r : Except Fault Value × Interpreter}
    (h : st.evaluate budget e = some r) : KeepsGlobals st r.2 := by
  rw [← Machine.state_of_result? h]
  exact keepsGlobals_machine budget ⟨.eval e, [], st⟩

/-- A program keeps the global variables that there are. -/
theorem keepsGlobals_executeAll {program : List Stmt} (h : st.executeAll budget program = some r) :
    KeepsGlobals st r.2 := by
  induction program generalizing st with
  | nil =>
    cases h
    exact .refl
  | cons s rest ih =>
    rw [executeAll] at h
    split at h
    · next hs => exact (keepsGlobals_execute hs).trans (ih h)
    · next hs =>
      cases h
      exact keepsGlobals_execute hs
    · cases h

theorem keepsGlobals_interpret {program : List Stmt} (h : st.interpret budget program = some r) :
    KeepsGlobals st r.2 := by
  rw [interpret] at h
  split at h
  · next hall =>
    have hkeeps := keepsGlobals_executeAll hall
    cases h
    exact hkeeps
  · exact keepsGlobals_executeAll h

theorem keepsGlobals_distances (st : Interpreter) (D : Distances) :
    KeepsGlobals st { st with distances := D } :=
  ⟨rfl, id, fun _ h => h⟩

end Interpreter

namespace Session

open Interpreter (KeepsGlobals)

variable {s s' : Session} {budget : Nat} {source : List UInt8}

/-- A session keeps the global variables that there are. -/
theorem Reached.keepsGlobals (h : Reached s s') : s.interpreter.KeepsGlobals s'.interpreter :=
  h.keeps (P := s.interpreter.KeepsGlobals)
    (fun _ _ h => h.trans (Interpreter.keepsGlobals_distances _ _))
    (fun h hi => h.trans (Interpreter.keepsGlobals_interpret hi))
    (fun h hi => h.trans (Interpreter.keepsGlobals_evaluate hi)) .refl

end Session

/-! ## Reads in the initial value of a global variable -/

namespace Stmt

open Outline

theorem outlineAll_append (P Q : List Stmt) :
    outlineAll (P ++ Q) = outlineAll P ++ outlineAll Q := by
  induction P with
  | nil => rfl
  | cons s rest ih => rw [List.cons_append, outlineAll, outlineAll, ih, List.append_assoc]

theorem atTop_outlineAll (body : List Stmt) : AtTop (outlineAll body) := fun d o h =>
  absurd ((balanced_outlineAll body [] d o).mp h) behind_nil

/-- What a program declares on top is what its statements declare. -/
theorem declaredOnTop_outlineAll {body : List Stmt} (h : FormedAll body) {name : String} :
    DeclaredOnTop (outlineAll body) name ↔ name ∈ declared body := by
  have hend := atStatement_resolveAll body h (Resolver.atStatement_start (fun _ => false) ∅)
    (Resolver.kindsAt_start (fun _ => false) ∅)
  have hgains := gains_resolveAll (r := .start (fun _ => false) ∅) h
  rw [List.nil_append] at hend
  rw [← hend.defined, hgains.defined]
  simp [Resolver.gained, Resolver.start]

theorem formedAll_left {P Q : List Stmt} (h : FormedAll (P ++ Q)) : FormedAll P := by
  induction P with
  | nil => trivial
  | cons s rest ih => exact ⟨h.1, ih h.2⟩

variable {isGlobal : String → Bool} {before after : List Stmt} {v : Token} {e : Expr} {id : NodeId}
  {name : Token}

/-- Where a read in the initial value stands. -/
theorem outlineAll_initializer (before after : List Stmt) (v : Token)
    (hread : .reads id name ∈ e.outline) :
    ∃ marks rest,
    outlineAll (before ++ .var v (some e) :: after) =
      (outlineAll before ++ .initializes v :: marks) ++ Mark.reads id name :: rest ∧
    ∀ m ∈ marks, m.use?.isSome = true := by
  obtain ⟨marks, others, he⟩ := List.append_of_mem hread
  refine ⟨marks, others ++ .initialized :: outlineAll after, ?_, fun m hm => ?_⟩
  · rw [outlineAll_append, outlineAll, outline, he]
    simp
  · exact e.use?_of_mem_outline m (by rw [he]; simp [hm])

/-- The walk accepts such a read only if the variable is there by then. -/
theorem declared_of_reads (hformed : FormedAll before)
    (hfaults : Faults isGlobal (outlineAll (before ++ .var v (some e) :: after)) [])
    (hread : .reads id name ∈ e.outline) (hname : name.lexeme = v.lexeme) :
    v.lexeme ∈ declared before ∨ isGlobal v.lexeme = true := by
  obtain ⟨marks, rest, hplace, huses⟩ := outlineAll_initializer before after v hread
  by_contra hnot
  rw [not_or, Bool.not_eq_true, ← declaredOnTop_outlineAll hformed] at hnot
  have hinitializing : Initializing (outlineAll before ++ .initializes v :: marks)
      (outlineAll before) v :=
    ⟨marks, rfl, fun hend => by simpa [Mark.use?] using huses _ hend⟩
  have hbreaks : Breaks isGlobal (outlineAll before ++ .initializes v :: marks) (.reads id name)
      ⟨.globalInOwnInitializer, name.line, name.location⟩ := by
    refine .globalInOwnInitializer ⟨_, v, hinitializing, hname.symm, atTop_outlineAll before, ?_⟩
    rw [hname]
    exact hnot
  exact absurd rfl (hfaults.ne_nil_iff.mpr ⟨_, _, _, _, hplace, hbreaks⟩)

/-- On top a read has no address. -/
theorem not_locates_of_reads {marks : List Mark} (huses : ∀ m ∈ marks, m.use?.isSome = true)
    (d : Nat) : ¬Locates (outlineAll before ++ .initializes v :: marks) (.reads id name) id d := by
  intro hd
  obtain ⟨_, _, ⟨⟨o, ho⟩, -⟩, -⟩ := hd.address
  have hbalanced : Balanced (.initializes v :: marks) :=
    .cons (fun _ => rfl) (.of_forall fun m hm => (Mark.beside_of_use? (huses m hm)).1)
  exact atTop_outlineAll before d o ((hbalanced _ d o).mp ho)

end Stmt

namespace Session

variable {s : Session}

/-- The machines at work while a session that has accepted a source executes a variable at the top
level of it. -/
inductive Initializes (s : Session) (source : List UInt8) (v : Token) (e : Expr) :
    Machine → Prop where
  | mk {before after : List Stmt} {budget : Nat} {st : Interpreter}
      (haccepts : s.accepts source = true)
      (hprogram : (s.parse source).program = before ++ .var v (some e) :: after)
      (hbefore : (s.interpreter.resolve (s.parse source).program).2.executeAll budget before =
        some (.ok (), st))
      (steps : Nat) : Initializes s source v e (Machine.run steps ⟨.exec (.var v (some e)), [], st⟩)

theorem Reached.globals_lt {natives : List Native} {output : Output} {maxCallDepth : Nat}
    {clock : Nat → Float} (h : Reached (new (.new natives output maxCallDepth clock)) s) :
    s.interpreter.globals < s.interpreter.store.scopes.size := by
  have hkeeps := h.keepsGlobals
  rw [hkeeps.globals]
  exact hkeeps.lt Nat.zero_lt_one

namespace Initializes

variable {start : Session} {source : List UInt8} {v name : Token} {e : Expr} {m : Machine}
  {id : NodeId}

open Outline

/-- The read is in the global scope: nothing is recorded for its node. -/
theorem distances (h : s.Initializes source v e m) (hs : Numbered s)
    (hread : .reads id name ∈ e.outline) : m.state.distances[id]? = none := by
  obtain @⟨before, after, budget, st, haccepts, hprogram, hbefore, steps⟩ := h
  have hformed : Stmt.FormedAll (s.parse source).program := Parse.formed_of_source source s.nextId
  obtain ⟨-, hids⟩ := Parse.ids_between (Scan.ofSource source).tokens s.nextId
  have hperm : (uses (Stmt.outlineAll (s.parse source).program)).Perm
      (Stmt.idsAll (s.parse source).program) :=
    Stmt.uses_outlineAll _
  obtain ⟨marks, rest, hplace, huses⟩ := Stmt.outlineAll_initializer _ _ v hread
  rw [← hprogram] at hplace
  have hid : id ∈ uses (Stmt.outlineAll (s.parse source).program) :=
    mem_uses.mpr ⟨.reads id name, by rw [hplace]; simp, name.lexeme, rfl⟩
  have hrecords := (Resolution.ofProgram_follows
    (fun name => s.interpreter.store.contains s.interpreter.globals name) s.interpreter.distances
    hformed).1
  have hkept := (hrecords.getElem?_use (hperm.nodup_iff.mpr hids.nodup) hplace rfl).2
    fun d => Stmt.not_locates_of_reads huses d
  have hplain : st.distances[id]? = s.interpreter.distances[id]? :=
    (congrArg (·[id]?) (Interpreter.executeAll_samePlace hbefore).distances).trans hkept
  rw [Machine.distances_run]
  exact hplain.trans (hs.unrecorded id (hids.bounds id (hperm.mem_iff.mp hid)).1)

/-- The earlier statements have run, so what they declare is there. -/
theorem contains (h : s.Initializes source v e m) (hrest : Interpreter.AtRest s.interpreter)
    (hg : s.interpreter.globals < s.interpreter.store.scopes.size)
    (hread : .reads id name ∈ e.outline) (hname : name.lexeme = v.lexeme) :
    m.state.store.contains m.state.globals v.lexeme = true := by
  obtain @⟨before, after, budget, st, haccepts, hprogram, hbefore, steps⟩ := h
  obtain ⟨-, -, hclean⟩ := accepts_iff.mp haccepts
  have hformed : Stmt.FormedAll (s.parse source).program := Parse.formed_of_source source s.nextId
  have hfaults := (Resolution.ofProgram_follows
    (fun name => s.interpreter.store.contains s.interpreter.globals name) s.interpreter.distances
    hformed).2
  have herrors :
      (Resolution.ofProgram (fun name => s.interpreter.store.contains s.interpreter.globals name)
        s.interpreter.distances (s.parse source).program).errors = [] := hclean
  rw [herrors, hprogram] at hfaults
  rw [hprogram] at hformed
  have hbound := Stmt.declared_of_reads (Stmt.formedAll_left hformed) hfaults hread hname
  have henv : (s.interpreter.resolve (s.parse source).program).2.env.head? =
      some s.interpreter.globals := by
    show s.interpreter.env.head? = _
    rw [hrest.env]
    rfl
  have hsize : s.interpreter.globals <
      (s.interpreter.resolve (s.parse source).program).2.store.scopes.size := hg
  have hst :=
    (Interpreter.contains_executeAll hsize henv (Stmt.formedAll_left hformed) hbefore v.lexeme).mpr
      hbound
  rw [Machine.globals_run]
  refine Machine.contains_run steps _ ?_
  show st.store.contains st.globals v.lexeme = true
  rw [(Interpreter.executeAll_samePlace hbefore).globals]
  exact hst

end Initializes

/-- **A global variable is there when its own initial value reads it.** In a session that begins
with nothing run, whatever sources it runs and evaluates and however they end, no global variable
goes away, neither from session to session nor while a machine runs. And when a source without
errors executes a variable at its top level, each read of that very variable in its initial value
finds a value in the global scope. -/
theorem own_initializer_is_bound {natives : List Native} {output : Output} {maxCallDepth : Nat}
    {clock : Nat → Float} (h : Reached (new (.new natives output maxCallDepth clock)) s) :
    (∀ s', Reached s s' → ∀ name, s.interpreter.store.contains s.interpreter.globals name = true →
      s'.interpreter.store.contains s'.interpreter.globals name = true) ∧
    (∀ (m : Machine) (steps : Nat) (name : String),
      m.state.store.contains m.state.globals name = true →
      (Machine.run steps m).state.store.contains (Machine.run steps m).state.globals name = true) ∧
    ∀ (source : List UInt8) (v : Token) (e : Expr) (m : Machine), s.Initializes source v e m →
      ∀ (id : NodeId) (name : Token), .reads id name ∈ e.outline → name.lexeme = v.lexeme →
        m.control = .eval (.variable id name) →
        m.state.store.contains m.state.globals v.lexeme = true ∧
          ∃ value, m.state.lookUp id name = .ok value ∧
            m.step = ⟨.value value, m.frames, m.state⟩ := by
  refine ⟨fun s' h' name hname => ?_, fun m steps name hname => ?_, ?_⟩
  · rw [h'.keepsGlobals.globals]
    exact h'.keepsGlobals.names name hname
  · rw [Machine.globals_run]
    exact Machine.contains_run steps m hname
  intro source v e m hm id name hread hname hcontrol
  have hrest := h.atRest (Interpreter.new_atRest natives output maxCallDepth clock)
  have hcontains := hm.contains hrest h.globals_lt hread hname
  have hdistance := hm.distances (h.numbered (numbered_new natives output maxCallDepth clock)) hread
  obtain ⟨value, hvalue⟩ := (Store.contains_iff _).mp hcontains
  have hlookUp : m.state.lookUp id name = .ok value := by
    simp [Interpreter.lookUp, hdistance, Store.get?, hname, hvalue, Interpreter.found]
  refine ⟨hcontains, value, hlookUp, ?_⟩
  obtain ⟨control, frames, st⟩ := m
  cases hcontrol
  rw [Machine.step, Machine.stepEval, hlookUp]
  rfl

/-! A variable may be read in its own initial value if a run that failed has declared it, or the
statement before. -/

/-- A session after a run that declares a variable and fails. -/
def afterFailure? : Option Session :=
  ((new (.new [] ⟨"", 0, none, false⟩ 9 fun _ => 0)).run 20 "var a; -nil;".toUTF8.toList).map
    Run.session

/-- The variable of a statement that declares it and reads it at once. -/
def ownRead? : Stmt → Option (Token × NodeId × Token)
  | .var v (some (.variable id name)) => if name.lexeme = v.lexeme then some (v, id, name) else none
  | _ => none

/-- Whether a session accepts a source whose last statement declares a variable and reads it at
once, and gets that far. -/
def readsOwn (s : Session) (source : List UInt8) : Bool :=
  let program := (s.parse source).program
  s.accepts source && (program.getLast?.bind ownRead?).isSome &&
    ((s.interpreter.resolve program).2.executeAll 9 program.dropLast).any fun r => r.1.toBool

theorem initializes_of_readsOwn {source : List UInt8} (h : s.readsOwn source = true) :
    ∃ v id name m, s.Initializes source v (.variable id name) m ∧ name.lexeme = v.lexeme ∧
      m.control = .eval (.variable id name) := by
  simp only [readsOwn, Bool.and_eq_true, Option.isSome_iff_exists, Option.bind_eq_some_iff,
    Option.any_eq_true] at h
  obtain ⟨⟨haccepts, ⟨v, id, name⟩, last, hlast, hread⟩, ⟨result, st⟩, hbefore, hok⟩ := h
  have hprogram := List.dropLast_append_getLast? last hlast
  unfold ownRead? at hread
  split at hread
  · next v' id' name' =>
    split at hread
    · next hname =>
      cases hread
      cases result with
      | error f => cases hok
      | ok u => exact ⟨v, id, name, _, .mk haccepts hprogram.symm hbefore 1, hname, rfl⟩
    · cases hread
  · cases hread

theorem own_reads_are_bound : ∃ s, afterFailure? = some s ∧
    (∃ v id name m value, s.Initializes "var a = a;".toUTF8.toList v (.variable id name) m ∧
      m.control = .eval (.variable id name) ∧ m.state.lookUp id name = .ok value) ∧
    ∃ v id name m value, s.Initializes "var b; var b = b;".toUTF8.toList v (.variable id name) m ∧
      m.control = .eval (.variable id name) ∧ m.state.lookUp id name = .ok value := by
  have hfacts : afterFailure?.map (fun s => (s.readsOwn "var a = a;".toUTF8.toList,
      s.readsOwn "var b; var b = b;".toUTF8.toList)) = some (true, true) := by decide +kernel
  obtain ⟨s, hs, hreads⟩ := Option.map_eq_some_iff.mp hfacts
  obtain ⟨r, hr, rfl⟩ := Option.map_eq_some_iff.mp hs
  obtain ⟨-, -, hbound⟩ := own_initializer_is_bound (.run .start hr)
  rw [Prod.mk.injEq] at hreads
  obtain ⟨v, id, name, m, hm, hname, hcontrol⟩ := initializes_of_readsOwn hreads.1
  obtain ⟨v', id', name', m', hm', hname', hcontrol'⟩ := initializes_of_readsOwn hreads.2
  obtain ⟨-, value, hvalue, -⟩ := hbound _ v _ m hm id name (by simp [Expr.outline]) hname hcontrol
  obtain ⟨-, value', hvalue', -⟩ :=
    hbound _ v' _ m' hm' id' name' (by simp [Expr.outline]) hname' hcontrol'
  exact ⟨_, hs, ⟨v, id, name, m, value, hm, hcontrol, hvalue⟩, v', id', name', m', value', hm',
    hcontrol', hvalue'⟩

end Session

end Lox
