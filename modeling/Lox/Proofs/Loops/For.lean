import Lox.Proofs.Heap.History
import Lox.Proofs.Machine.Endings

/-!
# Loops with clauses

There is no node for `for (initializer; condition; increment) body`: it is read as blocks and a
`while` loop. What the clauses mean is said here without them (`ForLoop.Passes`, `ForLoop.Ends`):
the initializer once, in a scope that lasts for the whole loop, and then rounds of a test, the body
and the increment. The statement that is read does just that, and the scope that it has around the
body and the increment stays empty (`ForLoop.read_executes_clauses`).
-/

namespace Lox

/-! ## Bodies declare nothing -/

namespace Stmt

/-- A statement that declares nothing in the scope it is executed in. -/
abbrev Quiet (s : Stmt) : Prop :=
  s.direct = []

/-- Of the statements that are made by reading, only declarations declare something. -/
theorem quiet_of_madeOf {P : Token → Prop} : ∀ {s : Stmt}, s.declares? = none → s.MadeOf P → s.Quiet
  | .expression _, _, _ | .print _, _, _ | .block _, _, _ | .returnWith _ _, _, _ => rfl
  | .ifThen _ s, _, ⟨_, hdecl, h⟩ | .whileLoop _ s, _, ⟨_, hdecl, h⟩ =>
    quiet_of_madeOf (s := s) hdecl h
  | .ifThenElse _ _ _, _, ⟨_, ⟨hdecl, h⟩, hdecl', h'⟩ => by
    rw [Quiet, direct, quiet_of_madeOf hdecl h, quiet_of_madeOf hdecl' h', List.append_nil]

/-- What the rule for statements reads declares nothing. -/
theorem quiet_of_readStatement {depth : Nat} {c c' : Cursor} {s : Stmt}
    (h : readStatement depth c = .done s c') : s.Quiet := by
  have hmade := (makes_bounded (S := .ofTokens (fun _ => True) 0) depth).statement c.nextId c rfl
    ⟨fun _ _ => trivial, trivial, fun _ _ => trivial⟩
  generalize (bounded depth).statement (c.skipIds _) = x at hmade
  rw [show (bounded depth).statement c = .done s c' from h] at hmade
  cases hmade with
  | done _ _ hpost => exact quiet_of_madeOf hpost.fits.1 hpost.fits.2

end Stmt

/-! ## Scopes that stay empty -/

theorem Store.Adds.contains_eq {g : ScopeId} {s s' : Store} (h : Adds g [] s s') (name : String) :
    s'.contains g name = s.contains g name := by
  refine Bool.eq_iff_iff.mpr ⟨fun hc => ?_, h.kept name⟩
  rcases h.new name hc with hc | hnil
  · exact hc
  · cases hnil

namespace Machine

variable {m m' : Machine} {e : ScopeId} {body : List Stmt} {frames : List Frame}

/-- The state after all frames have been taken away is in the current environment or in one that a
frame goes back to. -/
theorem env_unwind (frames : List Frame) (st : Interpreter) :
    (Frame.unwind frames st).env = st.env ∨ .leave (Frame.unwind frames st).env ∈ frames := by
  induction frames generalizing st with
  | nil => exact .inl rfl
  | cons frame frames ih =>
    rcases ih (frame.pop st) with h | h
    · cases frame with
      | leave env =>
        refine .inr ?_
        rw [Frame.unwind, h]
        exact List.mem_cons_self
      | _ => exact .inl h
    · exact .inr (List.mem_cons_of_mem frame h)

/-- Frames that never go back to a scope declare nothing there. -/
theorem confined_of_leaves {env : Env} (henv : env.head? ≠ some e)
    (h : ∀ outer, .leave outer ∈ frames → outer.head? ≠ some e) :
    Frame.Confined e [] env frames := by
  induction frames generalizing env with
  | nil => exact .nil
  | cons frame frames ih =>
    refine .cons (fun hhead => absurd hhead henv)
      (ih ?_ fun outer hmem => h outer (List.mem_cons_of_mem frame hmem))
    cases frame with
    | leave outer => exact h outer List.mem_cons_self
    | _ => exact henv

/-- A machine that can declare nothing in a scope, and will not come back to it. -/
structure Abandons (e : ScopeId) (m : Machine) : Prop where
  confined : Confined e [] m
  home : m.home.env.head? ≠ some e

theorem Abandons.next (h : Abandons e m) (hm : m.Next m') :
    Abandons e m' ∧ Store.Adds e [] m.state.store m'.state.store := by
  -- Once there is a result the machine is at home, and so not in the scope.
  have hout (hd : m.isDone = true) : m.state.env.head? ≠ some e := by
    have hhome := h.home
    rw [Machine.home, frames_of_isDone hd] at hhome
    exact hhome
  have hstart (hd : m.isDone = true) (c : Control) (st : Interpreter) (henv : st.env = m.state.env)
      (hstore : st.store = m.state.store) : Abandons e ⟨c, [], st⟩ := by
    have hhead : st.env.head? ≠ some e := by rw [henv]; exact hout hd
    refine ⟨⟨?_, fun h => absurd h hhead, .nil⟩, hhead⟩
    show e < st.store.scopes.size
    rw [hstore]
    exact h.confined.bound
  cases hm with
  | step =>
    refine ⟨⟨h.confined.step, ?_⟩, h.confined.addsFrom.adds⟩
    rw [(step_returns m).home.env]
    exact h.home
  | execute hd s => exact ⟨hstart hd _ _ rfl rfl, .refl⟩
  | evaluate hd s => exact ⟨hstart hd _ _ rfl rfl, .refl⟩
  | resolve hd program =>
    rw [frames_of_isDone hd]
    exact ⟨hstart hd _ _ rfl rfl, .refl⟩
  | record hd id distance =>
    rw [frames_of_isDone hd]
    exact ⟨hstart hd _ _ rfl rfl, .refl⟩

theorem Abandons.leads (h : Abandons e m) (hm : m.Leads m') :
    Abandons e m' ∧ Store.Adds e [] m.state.store m'.state.store := by
  induction hm with
  | refl => exact ⟨h, .refl⟩
  | tail _ hnext ih =>
    obtain ⟨hnow, hadds⟩ := ih.1.next hnext
    exact ⟨hnow, ih.2.trans hadds⟩

variable {natives : List Native} {output : Output} {maxCallDepth : Nat} {clock : Nat → Float}

/-- All environments that a machine is in or goes back to are made of scopes that are there. -/
theorem refers_lt (h : (start natives output maxCallDepth clock).Leads m) {env : Env}
    (hr : m.Refers env) : ∀ i ∈ env, i < m.state.store.nextScope := by
  obtain ⟨L, -, hlinked⟩ := leads_linked (start_linked natives output maxCallDepth clock) h
  rw [← hlinked.state.store.scopes]
  exact (linked_of_refers hlinked hr).lt hlinked.state.store.formed

/-- **The scope of a block that declares nothing stays empty for good.** -/
theorem scope_stays_empty (h : (start natives output maxCallDepth clock).Leads m)
    (hcontrol : m.control = .exec (.block body)) (hquiet : body.flatMap Stmt.direct = [])
    (hm : m.step.Leads m') (name : String) :
    m'.state.store.contains m.state.store.nextScope name = false := by
  have hhead {env : Env} (hr : m.Refers env) : env.head? ≠ some m.state.store.nextScope := by
    intro hhead
    exact Nat.lt_irrefl _ (refers_lt h hr _ (List.mem_of_head? hhead))
  have hhome : m.home.env.head? ≠ some m.state.store.nextScope := by
    rcases env_unwind m.frames m.state with henv | hmem
    · rw [home, henv]
      exact hhead .current
    · exact hhead (.leave hmem)
  have hframes : Frame.Confined m.state.store.nextScope [] m.state.env m.frames :=
    confined_of_leaves (hhead .current) fun outer hmem => hhead (.leave hmem)
  obtain ⟨control, frames, st⟩ := m
  cases hcontrol
  have hquiet : (Frame.sequence body).direct = [] := hquiet
  have habandons : Abandons st.store.nextScope (step ⟨.exec (.block body), frames, st⟩) := by
    refine ⟨⟨?_, fun _ => List.nil_subset [], .quiet (.quiet hframes rfl) hquiet⟩, ?_⟩
    · show st.store.scopes.size < (st.store.scopes.push ∅).size
      rw [Array.size_push]
      exact Nat.lt_succ_self _
    · rw [(step_returns _).home.env]
      exact hhome
  rw [(habandons.leads hm).2.contains_eq]
  show (st.store.addScope ∅).contains st.store.nextScope name = false
  rw [Store.contains, Store.find?_addScope, if_pos rfl]
  rfl

/-- What declares nothing and has no frames below leaves the names of all scopes as they are. -/
theorem adds_run_quiet {c : Control} (hc : c.direct = []) {st : Interpreter} {i : ScopeId}
    (hi : i < st.store.scopes.size) (k : Nat) :
    Store.Adds i [] st.store (run k ⟨c, [], st⟩).state.store := by
  have hconfined : Confined i [] ⟨c, [], st⟩ :=
    ⟨hi, fun _ => by rw [hc]; exact List.nil_subset [], .nil⟩
  exact hconfined.run k

end Machine

/-! ## The meaning of the clauses -/

/-- The clauses and the body of a loop. -/
structure ForLoop where
  initializer : Option Stmt
  condition : Option Expr
  increment : Option Expr
  body : Stmt

namespace ForLoop

open Interpreter (GoesRound LeavesLoop Loops)
open Relation (ReflTransGen)

variable {s : Stmt}

/-- The statement that a loop is read as. -/
def stmt (L : ForLoop) : Stmt :=
  .forLoop L.initializer L.condition L.increment L.body

/-- The parts of a loop are what is read after the word `for`, one after the other. -/
def ReadFrom (L : ForLoop) (depth : Nat) (c c' : Cursor) : Prop :=
  ∃ left semicolon right c₁ c₂ c₃ c₄ c₅ c₆, Reader.expectSymbol .leftParen .forOpen c = .done left
    c₁ ∧ Stmt.readForInitializer c₁ = .done L.initializer c₂ ∧
    Stmt.readUnless .semicolon c₂ = .done L.condition c₃ ∧
    Reader.expectSymbol .semicolon .forCondition c₃ = .done semicolon c₄ ∧
    Stmt.readUnless .rightParen c₄ = .done L.increment c₅ ∧
    Reader.expectSymbol .rightParen .forClose c₅ = .done right c₆ ∧
    Stmt.readStatement depth c₆ = .done L.body c'

/-- What the test comes to: a condition that is not there is true. -/
inductive Tests (L : ForLoop) (st : Interpreter) : Except Fault Value × Interpreter → Prop
  | absent (h : L.condition = none) : Tests L st (.ok (.bool true), st)
  | condition {e : Expr} {r : Except Fault Value × Interpreter} (h : L.condition = some e)
      (test : st.Evaluates e r) : Tests L st r

/-- What one round comes to: the body, and after a body that ends normally the increment. The two
have a scope around them if there is an increment. -/
inductive Rounds (L : ForLoop) (st : Interpreter) : Ending × Interpreter → Prop
  | body {r : Ending × Interpreter} (h : L.increment = none) (body : st.Executes L.body r) :
      Rounds L st r
  | stopped {e : Expr} {ending : Ending} {st₁ : Interpreter} (h : L.increment = some e)
      (body : (st.enter st.env ∅).Executes L.body (ending, st₁)) (stops : ending.isNormal = false) :
      Rounds L st (ending, st₁.leave st.env)
  | failed {e : Expr} {f : Fault} {st₁ st₂ : Interpreter} (h : L.increment = some e)
      (body : (st.enter st.env ∅).Executes L.body (.ok .normal, st₁))
      (increment : st₁.Evaluates e (.error f, st₂)) : Rounds L st (.error f, st₂.leave st.env)
  | whole {e : Expr} {v : Value} {st₁ st₂ : Interpreter} (h : L.increment = some e)
      (body : (st.enter st.env ∅).Executes L.body (.ok .normal, st₁))
      (increment : st₁.Evaluates e (.ok v, st₂)) : Rounds L st (.ok .normal, st₂.leave st.env)

/-- The state before the first test: an initializer is executed in a scope that all rounds share. -/
inductive Starts (L : ForLoop) (st : Interpreter) : Interpreter → Prop
  | absent (h : L.initializer = none) : Starts L st st
  | initializer {s : Stmt} {st₁ : Interpreter} (h : L.initializer = some s)
      (first : (st.enter st.env ∅).Executes s (.ok .normal, st₁)) : Starts L st st₁

/-- The states before the tests. -/
def Passes (L : ForLoop) (st st' : Interpreter) : Prop :=
  ∃ st₁, L.Starts st st₁ ∧ ReflTransGen (GoesRound L.Tests L.Rounds) st₁ st'

/-- How a loop ends: its initializer does not end normally, or a test or a round ends the loop.
After that the environment is that before the loop. -/
inductive Ends (L : ForLoop) (st : Interpreter) : Ending × Interpreter → Prop
  | unstarted {s : Stmt} {ending : Ending} {st₁ : Interpreter} (h : L.initializer = some s)
      (first : (st.enter st.env ∅).Executes s (ending, st₁)) (stops : ending.isNormal = false) :
      Ends L st (ending, st₁.leave st.env)
  | after {st₁ st₂ : Interpreter} {ending : Ending} (passes : L.Passes st st₁)
      (leaves : LeavesLoop L.Tests L.Rounds st₁ (ending, st₂)) :
      Ends L st (ending, st₂.leave st.env)

/-- The condition that the `while` loop tests. -/
def test (L : ForLoop) : Expr :=
  L.condition.getD (.literal .true)

/-- The statement that the `while` loop repeats. -/
def round (L : ForLoop) : Stmt :=
  match L.increment with
  | some e => .block [L.body, .expression e]
  | none => L.body

variable {L : ForLoop} {st st₁ : Interpreter} {r : Ending × Interpreter}

theorem stmt_of_none (h : L.initializer = none) : L.stmt = .whileLoop L.test L.round := by
  rw [stmt, h]
  rfl

theorem stmt_of_some (h : L.initializer = some s) :
    L.stmt = .block [s, .whileLoop L.test L.round] := by
  rw [stmt, h]
  rfl

theorem tests_eq : L.Tests = fun st r => st.Evaluates L.test r := by
  funext st r
  refine propext ?_
  rw [test]
  cases hc : L.condition with
  | none =>
    have hliteral : st.Evaluates (.literal .true) (.ok (.bool true), st) := ⟨1, rfl⟩
    constructor
    · rintro (_ | ⟨h, _⟩)
      · exact hliteral
      · cases hc.symm.trans h
    · intro h
      cases h.det hliteral
      exact .absent hc
  | some e =>
    constructor
    · rintro (h | ⟨h, he⟩)
      · cases hc.symm.trans h
      · cases hc.symm.trans h
        exact he
    · exact .condition hc

theorem rounds_eq : L.Rounds = fun st r => st.Executes L.round r := by
  funext st r
  refine propext ?_
  rw [round]
  cases hi : L.increment with
  | none =>
    constructor
    · rintro (⟨_, h⟩ | ⟨h, _, _⟩ | ⟨h, _, _⟩ | ⟨h, _, _⟩)
      · exact h
      all_goals cases hi.symm.trans h
    · exact .body hi
  | some e =>
    constructor
    · rintro (⟨h, _⟩ | ⟨h, hbody, hstops⟩ | ⟨h, hbody, he⟩ | ⟨h, hbody, he⟩) <;>
        cases hi.symm.trans h
      · exact Interpreter.executes_block_of (.stop hbody hstops)
      · exact Interpreter.executes_block_of (Interpreter.executesSeq_pair_iff.mpr
          (.inr ⟨_, hbody, Interpreter.executes_expression_of he⟩))
      · exact Interpreter.executes_block_of (Interpreter.executesSeq_pair_iff.mpr
          (.inr ⟨_, hbody, Interpreter.executes_expression_of he⟩))
    · intro h
      obtain ⟨st₁, hseq, hleave⟩ := Interpreter.executes_block_iff.mp h
      obtain ⟨ending, st₂⟩ := r
      cases hleave
      rcases Interpreter.executesSeq_pair_iff.mp hseq with ⟨hbody, hstops⟩ | ⟨st₂, hbody, he⟩
      · exact .stopped hi hbody hstops
      · obtain ⟨result, he, hresult⟩ := Interpreter.executes_expression_iff.mp he
        cases hresult
        cases result with
        | ok v => exact .whole hi hbody he
        | error f => exact .failed hi hbody he

/-- The loop after the initializer is the `while` loop. -/
theorem executes_loop_iff :
    st.Executes (.whileLoop L.test L.round) r ↔ Loops L.Tests L.Rounds st r := by
  rw [tests_eq, rounds_eq]
  exact Interpreter.executes_whileLoop_iff

theorem executes_stmt_of_none (h : L.initializer = none) : st.Executes L.stmt r ↔ L.Ends st r := by
  have hleave {ending : Ending} {st₁ : Interpreter}
      (hloop : Loops L.Tests L.Rounds st (ending, st₁)) : st₁.leave st.env = st₁ := by
    have henv : st₁.env = st.env := (executes_loop_iff.mpr hloop).env
    rw [← henv]
    rfl
  rw [stmt_of_none h, executes_loop_iff]
  constructor
  · intro hloop
    obtain ⟨ending, st₁⟩ := r
    obtain ⟨st', hrounds, hleaves⟩ := id hloop
    rw [← hleave hloop]
    exact .after ⟨st, .absent h, hrounds⟩ hleaves
  · rintro (⟨h', _, _⟩ | ⟨⟨_, hstarts, hrounds⟩, hleaves⟩)
    · cases h.symm.trans h'
    · cases hstarts with
      | absent => rw [hleave ⟨_, hrounds, hleaves⟩]; exact ⟨_, hrounds, hleaves⟩
      | initializer h' => cases h.symm.trans h'

theorem executes_stmt_of_some (h : L.initializer = some s) :
    st.Executes L.stmt r ↔ L.Ends st r := by
  rw [stmt_of_some h]
  constructor
  · intro hblock
    obtain ⟨st₁, hseq, hleave⟩ := Interpreter.executes_block_iff.mp hblock
    obtain ⟨ending, st₂⟩ := r
    cases hleave
    rcases Interpreter.executesSeq_pair_iff.mp hseq with ⟨hfirst, hstops⟩ | ⟨st₂, hfirst, hloop⟩
    · exact .unstarted h hfirst hstops
    · obtain ⟨st', hrounds, hleaves⟩ := executes_loop_iff.mp hloop
      exact .after ⟨st₂, .initializer h hfirst, hrounds⟩ hleaves
  · rintro (⟨h', hfirst, hstops⟩ | ⟨⟨_, hstarts, hrounds⟩, hleaves⟩)
    · cases h.symm.trans h'
      exact Interpreter.executes_block_of (.stop hfirst hstops)
    · cases hstarts with
      | absent h' => cases h.symm.trans h'
      | initializer h' hfirst =>
        cases h.symm.trans h'
        refine Interpreter.executes_block_of
          (Interpreter.executesSeq_pair_iff.mpr (.inr ⟨_, hfirst, ?_⟩))
        exact executes_loop_iff.mpr ⟨_, hrounds, hleaves⟩

/-- **Executing a loop is what its clauses say.** -/
theorem executes_stmt_iff : st.Executes L.stmt r ↔ L.Ends st r := by
  cases h : L.initializer with
  | none => exact executes_stmt_of_none h
  | some s => exact executes_stmt_of_some h

/-- The machine comes to each test, in the state that the clauses say. -/
theorem reaches_of_passes (h : L.Passes st st₁) :
    ∃ frames, Machine.Reaches ⟨.exec L.stmt, [], st⟩ ⟨.eval L.test, frames, st₁⟩ := by
  obtain ⟨st', hstarts, hrounds⟩ := h
  rw [tests_eq, rounds_eq] at hrounds
  cases hstarts with
  | absent h =>
    rw [stmt_of_none h]
    exact ⟨_, .of_step rfl (Interpreter.reaches_of_rounds hrounds)⟩
  | initializer h hfirst =>
    rw [stmt_of_some h]
    refine ⟨[.loopTest L.test L.round, .sequence [], .leave st.env], .of_step rfl (.of_step rfl ?_)⟩
    refine .trans (Machine.reaches_of_executes rfl hfirst) ?_
    exact .of_step rfl (.of_step rfl (Interpreter.reaches_of_rounds hrounds))

/-! ## The scope around body and increment -/

/-- A machine that starts a round: the scope that it makes for the body and the increment never gets
a name, and when the increment is evaluated, and as long as it is, all scopes that it sees have just
the names that they had before the round. -/
structure KeepsScope (L : ForLoop) (increment : Expr) (m : Machine) : Prop where
  empty : ∀ m' name, m.step.Leads m' → m'.state.store.contains m.state.store.nextScope name = false
  place : ∀ ending st₁, (m.state.enter m.state.env ∅).Executes L.body (ending, st₁) →
    st₁.env = m.state.store.nextScope :: m.state.env
  names : ∀ ending st₁, (m.state.enter m.state.env ∅).Executes L.body (ending, st₁) →
    ∀ k, ∀ i ∈ st₁.env, ∀ name, (Machine.run k ⟨.eval increment, [], st₁⟩).state.store.contains i
    name = m.state.store.contains i name

theorem keepsScope (hquiet : L.body.Quiet) {increment : Expr} {natives : List Native}
    {output : Output} {maxCallDepth : Nat} {clock : Nat → Float} {m : Machine}
    (h : (Machine.start natives output maxCallDepth clock).Leads m)
    (hcontrol : m.control = .exec (.block [L.body, .expression increment])) :
    L.KeepsScope increment m := by
  have hblock : [L.body, Stmt.expression increment].flatMap Stmt.direct = [] := by
    rw [List.flatMap_cons, hquiet]
    rfl
  refine ⟨fun m' name hm => Machine.scope_stays_empty h hcontrol hblock hm name,
    fun ending st₁ hbody => hbody.env, fun ending st₁ hbody k i hi name => ?_⟩
  rw [show st₁.env = m.state.store.nextScope :: m.state.env from hbody.env] at hi
  have hle : i ≤ m.state.store.nextScope := by
    rcases List.mem_cons.mp hi with rfl | hi
    · exact Nat.le_refl _
    · exact Nat.le_of_lt (Machine.refers_lt h .current i hi)
  have hi : i < (m.state.store.addScope ∅).scopes.size := by
    rw [Store.size_addScope]
    exact Nat.lt_succ_of_le hle
  obtain ⟨budget, hb⟩ := hbody
  have hround : Store.Adds i [] (m.state.enter m.state.env ∅).store
      (Machine.run budget ⟨.exec L.body, [], m.state.enter m.state.env ∅⟩).state.store :=
    Machine.adds_run_quiet (c := .exec L.body) hquiet hi budget
  rw [(Machine.state_of_ending? hb).2] at hround
  have hincrement :
      Store.Adds i [] st₁.store (Machine.run k ⟨.eval increment, [], st₁⟩).state.store :=
    Machine.adds_run_quiet rfl (Nat.lt_of_lt_of_le hi hround.size) k
  rw [hincrement.contains_eq, hround.contains_eq]
  -- The new scope has no names, and before the round it is not there.
  show (m.state.store.addScope ∅).contains i name = m.state.store.contains i name
  rw [Store.contains, Store.find?_addScope]
  split
  · next heq =>
    rw [heq]
    exact (Bool.eq_false_iff.mpr fun hc => Nat.lt_irrefl _ (Store.lt_of_contains hc)).symm
  · rfl

/-! ## The statement that is read -/

variable {depth : Nat} {c c' : Cursor}

/-- What is read after the word `for` is the statement of the parts that are read. -/
theorem readFor_done_iff : Stmt.readFor (depth + 1) c = .done s c' ↔
    ∃ L : ForLoop, L.ReadFrom depth c c' ∧ s = L.stmt := by
  constructor
  · intro h
    unfold Stmt.readFor at h
    obtain ⟨left, c₁, hleft, h⟩ := Reader.done_of_bind h
    obtain ⟨initializer, c₂, hinitializer, h⟩ := Reader.done_of_bind h
    obtain ⟨condition, c₃, hcondition, h⟩ := Reader.done_of_bind h
    obtain ⟨semicolon, c₄, hsemicolon, h⟩ := Reader.done_of_bind h
    obtain ⟨increment, c₅, hincrement, h⟩ := Reader.done_of_bind h
    obtain ⟨right, c₆, hright, h⟩ := Reader.done_of_bind h
    obtain ⟨body, c₇, hbody, h⟩ := Reader.done_of_bind h
    cases h
    exact ⟨⟨initializer, condition, increment, body⟩,
      ⟨left, semicolon, right, c₁, c₂, c₃, c₄, c₅, c₆, hleft, hinitializer, hcondition, hsemicolon,
      hincrement, hright, hbody⟩, rfl⟩
  · rintro ⟨L, ⟨left, semicolon, right, c₁, c₂, c₃, c₄, c₅, c₆, hleft, hinitializer, hcondition,
      hsemicolon, hincrement, hright, hbody⟩, rfl⟩
    unfold Stmt.readFor
    simp only [bind, Reader.bind, hleft, hinitializer, hcondition, hsemicolon, hincrement, hright,
      hbody]
    rfl

theorem ReadFrom.quiet (h : L.ReadFrom depth c c') : L.body.Quiet := by
  obtain ⟨_, _, _, _, _, _, _, _, c₆, _, _, _, _, _, _, hbody⟩ := h
  exact Stmt.quiet_of_readStatement hbody

/-- **A loop with clauses, once it is read, does what its clauses say.** From every state it ends
just as they say, and whether it ends or not, it comes to all the tests that they say. The scope
around its body and its increment stays empty, so that the increment cannot see what the body
declares. -/
theorem read_executes_clauses (depth : Nat) (c c' : Cursor) :
    (∀ s, Stmt.readFor (depth + 1) c = .done s c' ↔
      ∃ L : ForLoop, L.ReadFrom depth c c' ∧ s = L.stmt) ∧
    ∀ L : ForLoop, L.ReadFrom depth c c' → (∀ st r, st.Executes L.stmt r ↔ L.Ends st r) ∧
      (∀ st st', L.Passes st st' →
        ∃ frames, Machine.Reaches ⟨.exec L.stmt, [], st⟩ ⟨.eval L.test, frames, st'⟩) ∧
      ∀ increment, L.increment = some increment → ∀ natives output maxCallDepth clock m,
        (Machine.start natives output maxCallDepth clock).Leads m →
        m.control = .exec (.block [L.body, .expression increment]) → L.KeepsScope increment m :=
  ⟨fun _ => readFor_done_iff, fun _ hread =>
    ⟨fun _ _ => executes_stmt_iff, fun _ _ => reaches_of_passes, fun _ _ _ _ _ _ _ hm hcontrol =>
      keepsScope hread.quiet hm hcontrol⟩⟩

/-- What follows the word in `for (var go = true; go; go = false) { var seen = go; }`. -/
def onceTokens : List Token :=
  [⟨.symbol .leftParen, "(", 1⟩, ⟨.keyword .varWord, "var", 1⟩, ⟨.identifier, "go", 1⟩,
    ⟨.symbol .equal, "=", 1⟩, ⟨.keyword .trueWord, "true", 1⟩, ⟨.symbol .semicolon, ";", 1⟩,
    ⟨.identifier, "go", 1⟩, ⟨.symbol .semicolon, ";", 1⟩, ⟨.identifier, "go", 1⟩,
    ⟨.symbol .equal, "=", 1⟩, ⟨.keyword .falseWord, "false", 1⟩, ⟨.symbol .rightParen, ")", 1⟩,
    ⟨.symbol .leftBrace, "\x7b", 1⟩, ⟨.keyword .varWord, "var", 1⟩, ⟨.identifier, "seen", 1⟩,
    ⟨.symbol .equal, "=", 1⟩, ⟨.identifier, "go", 1⟩, ⟨.symbol .semicolon, ";", 1⟩,
    ⟨.symbol .rightBrace, "\x7d", 1⟩]

/-- The parts of this loop. -/
def once : ForLoop where
  initializer := some (.var ⟨.identifier, "go", 1⟩ (some (.literal .true)))
  condition := some (.variable 0 ⟨.identifier, "go", 1⟩)
  increment := some (.assign 2 ⟨.identifier, "go", 1⟩ (.literal .false))
  body := .block [.var ⟨.identifier, "seen", 1⟩ (some (.variable 3 ⟨.identifier, "go", 1⟩))]

/-- The machine some steps into this loop, after it was resolved. -/
def onceAfter (steps : Nat) : Machine :=
  Machine.run steps
    ⟨.exec once.stmt, [], ((Interpreter.new [] .unlimited 9 fun _ => 0).resolve [once.stmt]).2⟩

theorem readFrom_once : once.ReadFrom 29 ⟨onceTokens, 1, 0, [], false⟩ ⟨[], 1, 4, [], false⟩ := by
  refine ⟨⟨.symbol .leftParen, "(", 1⟩, ⟨.symbol .semicolon, ";", 1⟩, ⟨.symbol .rightParen, ")", 1⟩,
    ⟨onceTokens.drop 1, 1, 0, [], false⟩, ⟨onceTokens.drop 6, 1, 0, [], false⟩,
    ⟨onceTokens.drop 7, 1, 1, [], false⟩, ⟨onceTokens.drop 8, 1, 1, [], false⟩,
    ⟨onceTokens.drop 11, 1, 3, [], false⟩, ⟨onceTokens.drop 12, 1, 3, [], false⟩, ?_⟩
  cbv

/-- This loop is read, it goes round once and ends, and the scope of that round stays empty. -/
theorem once_executes_clauses :
    once.ReadFrom 29 ⟨onceTokens, 1, 0, [], false⟩ ⟨[], 1, 4, [], false⟩ ∧
      Stmt.readFor 30 ⟨onceTokens, 1, 0, [], false⟩ = .done once.stmt ⟨[], 1, 4, [], false⟩ ∧
    (∃ st', once.Ends (onceAfter 0).state (.ok .normal, st')) ∧
      (onceAfter 9).state.store.nextScope = 2 ∧
    (Machine.start [] .unlimited 9 fun _ => 0).Leads (onceAfter 9) ∧
    once.KeepsScope (.assign 2 ⟨.identifier, "go", 1⟩ (.literal .false)) (onceAfter 9) := by
  obtain ⟨hiff, hall⟩ :=
    read_executes_clauses 29 ⟨onceTokens, 1, 0, [], false⟩ ⟨[], 1, 4, [], false⟩
  obtain ⟨hends, -, hscope⟩ := hall once readFrom_once
  have hm : (Machine.start [] .unlimited 9 fun _ => 0).Leads (onceAfter 9) :=
    .head (.resolve rfl [once.stmt]) (.head (.execute rfl once.stmt) (Machine.leads_run 9 _))
  have hexecutes : ∃ st', (onceAfter 0).state.Executes once.stmt (.ok .normal, st') := by
    have hending : (onceAfter 40).ending?.map (fun r => r.1.isNormal) = some true := by cbv
    obtain ⟨⟨ending, st'⟩, hr, hnormal⟩ := Option.map_eq_some_iff.mp hending
    cases Ending.eq_of_isNormal hnormal
    exact ⟨st', 40, hr⟩
  obtain ⟨st', hst'⟩ := hexecutes
  have hcontrol : (onceAfter 9).control =
      .exec (.block
        [once.body, .expression (.assign 2 ⟨.identifier, "go", 1⟩ (.literal .false))]) := by cbv
  exact ⟨readFrom_once, (hiff _).mpr ⟨once, readFrom_once, rfl⟩,
    ⟨st', (hends _ _).mp hst'⟩, by cbv, hm,
    hscope _ rfl [] .unlimited 9 (fun _ => 0) (onceAfter 9) hm hcontrol⟩

end ForLoop

end Lox
