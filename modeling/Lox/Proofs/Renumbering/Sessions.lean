import Lox.Proofs.Renumbering.Step
import Lox.Proofs.Scope.Sessions
import Lox.Proofs.Text.Utf8

/-!
# Rejected sources leave no trace

A source that is rejected has used up ids, and may have recorded distances for them. Later trees get
later ids, so two sessions, one with such a source and one without, go on with other ids. They do
the same nevertheless: the second is the first with its ids moved on (`Session.Apart`), and this
lasts (`Session.Apart.run`, `Session.Apart.evaluate`).

What a session has made before the rejected source has smaller ids, which must not move. That none
of its values holds an id that is still to be given out is said by renumberings again: a store is
that of a session if moving only such ids changes nothing in it (`Session.Numbered`). Since machines
do the same on renumbered trees, this lasts too.
-/

namespace Lox

variable {n : NodeId} {f : NodeId → NodeId}

/-! ## Ids still to be given out -/

/-- A renumbering that leaves the ids below a bound alone and moves no other below it. -/
structure Beyond (n : NodeId) (f : NodeId → NodeId) : Prop where
  fixes : ∀ id, id < n → f id = id
  keeps : ∀ id, n ≤ id → n ≤ f id

theorem Beyond.mono {n' : NodeId} (h : Beyond n' f) (hle : n ≤ n') : Beyond n f := by
  refine ⟨fun id hid => h.fixes id (Nat.lt_of_lt_of_le hid hle), fun id hid => ?_⟩
  by_cases hlt : id < n'
  · rw [h.fixes id hlt]
    exact hid
  · exact Nat.le_trans hle (h.keeps id (Nat.le_of_not_lt hlt))

namespace Session

variable {s : Session} {budget : Nat} {source : List UInt8} {st : Interpreter} {r : Run}

/-- A session in which only ids that were given out are in use. -/
structure Numbered (s : Session) : Prop where
  unrecorded : ∀ id, s.nextId ≤ id → s.interpreter.distances[id]? = none
  store : ∀ f, Beyond s.nextId f → s.interpreter.store.renumber f = s.interpreter.store

namespace Numbered

/-- Moving ids that were not given out changes nothing. -/
theorem renumbers (h : Numbered s) (hf : Beyond s.nextId f) :
    s.interpreter.distances.Renumbers f s.interpreter.distances := by
  intro id
  by_cases hid : id < s.nextId
  · rw [hf.fixes id hid]
  · have hle := Nat.le_of_not_lt hid
    rw [h.unrecorded id hle, h.unrecorded (f id) (hf.keeps id hle)]

theorem renumber_eq (h : Numbered s) (hf : Beyond s.nextId f) :
    s.interpreter.renumber f s.interpreter.distances = s.interpreter := by
  simp only [Interpreter.renumber, h.store f hf]

/-- Ids may be left out. -/
theorem skip (h : Numbered s) (hle : s.nextId ≤ n) : Numbered ⟨s.interpreter, n⟩ :=
  ⟨fun id hid => h.unrecorded id (Nat.le_trans hle hid), fun f hf => h.store f (hf.mono hle)⟩

/-- Looking at a program records distances of its own ids only. -/
theorem resolve (h : Numbered s) (source : List UInt8) :
    Numbered ⟨(s.interpreter.resolve (s.parse source).program).2, (s.parse source).nextId⟩ := by
  obtain ⟨hle, hids⟩ := Parse.ids_between (Scan.ofSource source).tokens s.nextId
  have htouches := Stmt.touches_resolveAll (s.parse source).program (s.visit source).resolver
  refine ⟨fun id hid => ?_, fun f hf => h.store f (hf.mono hle)⟩
  refine (htouches.distances id fun hnew => ?_).trans (h.unrecorded id (Nat.le_trans hle hid))
  exact Nat.not_le.mpr (hids.bounds id hnew).2 hid

/-- What a program leaves behind holds no ids but those of the session and its own: moving others
changes neither the program nor the interpreter it runs on, and so not what it ends in. -/
theorem interpret (h : Numbered ⟨st, n⟩) {program : List Stmt}
    (hids : ∀ id ∈ Stmt.idsAll program, id < n) {r : Except Fault Unit × Interpreter}
    (hr : st.interpret budget program = some r) : Numbered ⟨r.2, n⟩ := by
  have hdist : r.2.distances = st.distances := (Interpreter.interpret_samePlace hr).distances
  refine ⟨fun id hid => ?_, fun f hf => ?_⟩
  · show r.2.distances[id]? = none
    rw [hdist]
    exact h.unrecorded id hid
  · have hprogram : Stmt.renumberAll f program = program :=
      Stmt.renumberAll_eq_self fun id hid => hf.fixes id (hids id hid)
    have hrun := Interpreter.interpret_renumber (h.renumbers hf) budget program
    rw [h.renumber_eq hf, hprogram, hr, Option.map_some, Option.some.injEq] at hrun
    exact (congrArg (fun r => r.2.store) hrun).symm

theorem evaluate (h : Numbered ⟨st, n⟩) {e : Expr} (hids : ∀ id ∈ e.ids, id < n)
    {r : Except Fault Value × Interpreter} (hr : st.evaluate budget e = some r) :
    Numbered ⟨r.2, n⟩ := by
  have hdist : r.2.distances = st.distances := (Interpreter.evaluate_samePlace hr).distances
  refine ⟨fun id hid => ?_, fun f hf => ?_⟩
  · show r.2.distances[id]? = none
    rw [hdist]
    exact h.unrecorded id hid
  · have hexpr : e.renumber f = e := Expr.renumber_eq_self fun id hid => hf.fixes id (hids id hid)
    have hrun := Interpreter.evaluate_renumber (h.renumbers hf) budget e
    rw [h.renumber_eq hf, hexpr, hr, Option.map_some, Option.some.injEq] at hrun
    exact (congrArg (fun r => r.2.store) hrun).symm

end Numbered

/-- Native functions hold no ids. -/
theorem map_renumber_natives (f : NodeId → NodeId) (natives : List Native) {table : NameTable Value}
    (h : table.map (Value.renumber f) = table) :
    (natives.foldl (fun t n => t.insert n.name (.native n)) table).map (Value.renumber f) =
      natives.foldl (fun t n => t.insert n.name (.native n)) table := by
  induction natives generalizing table with
  | nil => exact h
  | cons n rest ih => exact ih (by rw [NameTable.map_insert, h]; rfl)

theorem numbered_new (natives : List Native) (output : Output) (maxCallDepth : Nat)
    (clock : Nat → Float) : Numbered (new (.new natives output maxCallDepth clock)) := by
  refine ⟨fun id _ => Std.HashMap.getElem?_empty, fun f _ => ?_⟩
  have hempty : Store.empty.renumber f = Store.empty := by simp [Store.renumber, Store.empty]
  show (Store.empty.addScope _).renumber f = Store.empty.addScope _
  rw [Store.renumber_addScope, map_renumber_natives f natives rfl, hempty]

/-- Running a source uses only ids that it is given. -/
theorem Numbered.run (h : Numbered s) (hr : s.run budget source = some r) : Numbered r.session := by
  obtain ⟨hle, hids⟩ := Parse.ids_between (Scan.ofSource source).tokens s.nextId
  have hresolved := h.resolve source
  cases ends_of_run hr with
  | unread => exact h.skip hle
  | refused _ hresolve =>
    rw [hresolve] at hresolved
    exact hresolved
  | ran _ hresolve hi | failed _ hresolve hi =>
    rw [hresolve] at hresolved
    exact hresolved.interpret (fun id hid => (hids.bounds id hid).2) hi

theorem Numbered.evaluateSource (h : Numbered s) {r : Evaluation}
    (hr : s.evaluate budget source = some r) : Numbered r.session := by
  obtain ⟨hle, hids⟩ := ParsedExpr.ids_between (Scan.ofSource source).tokens s.nextId
  have hskip := h.skip hle
  rcases session_of_evaluate hr with heq | ⟨e, x, he, hi, heq⟩
  · rw [heq]
    exact hskip
  · rw [heq]
    exact hskip.evaluate (fun id hid => ((hids e he).bounds id hid).2) hi

theorem Reached.numbered {start : Session} (h : Reached start s) (hstart : Numbered start) :
    Numbered s := by
  induction h with
  | start => exact hstart
  | run _ hr ih => exact ih.run hr
  | evaluate _ hr ih => exact ih.evaluateSource hr

/-! ## Two sessions -/

/-- Moves the ids from a bound on. -/
def moveFrom (n k : Nat) (id : NodeId) : NodeId :=
  if id < n then id else id + k

theorem moveFrom_injective (n k : Nat) : Function.Injective (moveFrom n k) := by
  intro (a : Nat) (b : Nat) h
  have h : (if a < n then a else a + k) = if b < n then b else b + k := h
  show a = b
  split at h <;> split at h <;> omega

theorem beyond_moveFrom (n k : Nat) : Beyond n (moveFrom n k) := by
  refine ⟨fun id hid => if_pos hid, fun id hid => ?_⟩
  rw [moveFrom, if_neg (Nat.not_lt.mpr hid)]
  exact Nat.le_add_right_of_le hid

/-- Two sessions that differ in ids: from `n` on, those of the second are `k` more. -/
structure Apart (n k : Nat) (s s' : Session) : Prop where
  le : n ≤ s.nextId
  nextId : s'.nextId = s.nextId + k
  interpreter : s'.interpreter = s.interpreter.renumber (moveFrom n k) s'.interpreter.distances
  distances : s.interpreter.distances.Renumbers (moveFrom n k) s'.interpreter.distances

namespace Apart

variable {n k : Nat} {s' : Session} {next : NodeId}

theorem output (h : Apart n k s s') : s'.interpreter.output = s.interpreter.output := by
  rw [h.interpreter]
  rfl

/-- Both sessions may leave out ids, if they leave out as many. -/
theorem skip (h : Apart n k s s') (hle : s.nextId ≤ next) :
    Apart n k ⟨s.interpreter, next⟩ ⟨s'.interpreter, next + k⟩ :=
  ⟨Nat.le_trans h.le hle, rfl, h.interpreter, h.distances⟩

/-- The second session reads the same program with other ids. -/
theorem parse (h : Apart n k s s') (source : List UInt8) : s'.parse source =
    ⟨Stmt.renumberAll (moveFrom n k) (s.parse source).program, (s.parse source).errors,
      (s.parse source).nextId + k, (s.parse source).hadError⟩ := by
  obtain ⟨-, hids⟩ := Parse.ids_between (Scan.ofSource source).tokens s.nextId
  rw [Session.parse, h.nextId, Parse.ofTokens_add]
  have hmoved : Stmt.renumberAll (· + k) (s.parse source).program =
      Stmt.renumberAll (moveFrom n k) (s.parse source).program := by
    refine Stmt.renumberAll_congr _ fun id hid => ?_
    rw [moveFrom, if_neg (Nat.not_lt.mpr (Nat.le_trans h.le (hids.bounds id hid).1))]
  rw [← hmoved]
  rfl

/-- Both sessions find the same broken rules, and stay alike. -/
theorem resolve (h : Apart n k s s') (program : List Stmt) (hle : s.nextId ≤ next) :
    (s'.interpreter.resolve (Stmt.renumberAll (moveFrom n k) program)).1 = (s.interpreter.resolve
      program).1 ∧
      Apart n k ⟨(s.interpreter.resolve program).2, next⟩
        ⟨(s'.interpreter.resolve (Stmt.renumberAll (moveFrom n k) program)).2, next + k⟩ := by
  have hglobals : (fun name => s'.interpreter.store.contains s'.interpreter.globals name) =
      fun name => s.interpreter.store.contains s.interpreter.globals name := by
    rw [h.interpreter]
    funext name
    exact Store.contains_renumber ..
  obtain ⟨herrors, hdistances⟩ :=
    Resolution.ofProgram_renumbers (moveFrom_injective n k) h.distances
      (fun name => s.interpreter.store.contains s.interpreter.globals name) program
  simp only [Interpreter.resolve, Interpreter.resolution, hglobals]
  refine ⟨herrors, Nat.le_trans h.le hle, rfl, ?_, hdistances⟩
  rw [h.interpreter]
  rfl

/-- The interpreters stay alike if the second changes as the first does. -/
theorem after {next' : NodeId} {st' st₁ : Interpreter} (h : Apart n k ⟨st, next⟩ ⟨st', next'⟩)
    (hst : st₁.distances = st.distances) :
    Apart n k ⟨st₁, next⟩ ⟨st₁.renumber (moveFrom n k) st'.distances, next'⟩ := by
  refine ⟨h.le, h.nextId, rfl, ?_⟩
  show st₁.distances.Renumbers (moveFrom n k) st'.distances
  rw [hst]
  exact h.distances

/-- Both sessions do the same with a program that was read without error. -/
theorem runProgram (h : Apart n k s s') (budget : Nat) (program : List Stmt) :
    Option.Rel (fun r r' : Run => r'.outcome = r.outcome ∧ r'.reports = r.reports ∧
      Apart n k r.session r'.session)
      (s.runProgram budget program)
      (s'.runProgram budget (Stmt.renumberAll (moveFrom n k) program)) := by
  obtain ⟨herrors, hresolved⟩ := h.resolve program (Nat.le_refl _)
  rw [← h.nextId] at hresolved
  obtain ⟨⟨errors, st⟩, hfound⟩ : ∃ found, s.interpreter.resolve program = found := ⟨_, rfl⟩
  obtain ⟨⟨errors', st'⟩, hfound'⟩ :
      ∃ found, s'.interpreter.resolve (Stmt.renumberAll (moveFrom n k) program) = found := ⟨_, rfl⟩
  rw [hfound, hfound'] at herrors hresolved
  obtain rfl : errors' = errors := herrors
  by_cases hnil : errors' = []
  · subst hnil
    have hst : st' = st.renumber (moveFrom n k) st'.distances := hresolved.interpreter
    have hrun := Interpreter.interpret_renumber hresolved.distances budget program
    rw [← hst] at hrun
    rw [runProgram_of_clean hfound, runProgram_of_clean hfound', hrun]
    cases hi : st.interpret budget program with
    | none => exact .none
    | some r =>
      have hafter := hresolved.after (Interpreter.interpret_samePlace hi).distances
      obtain ⟨_ | _, st₁⟩ := r <;> exact .some ⟨rfl, rfl, hafter⟩
  · rw [runProgram_of_errors hfound hnil, runProgram_of_errors hfound' hnil]
    exact .some ⟨rfl, rfl, hresolved⟩

/-- **Both sessions do the same with a source**, and stay alike. -/
theorem run (h : Apart n k s s') (budget : Nat) (source : List UInt8) :
    Option.Rel (fun r r' : Run => r'.outcome = r.outcome ∧ r'.reports = r.reports ∧
      Apart n k r.session r'.session)
      (s.run budget source) (s'.run budget source) := by
  obtain ⟨hle, -⟩ := Parse.ids_between (Scan.ofSource source).tokens s.nextId
  have hparse := h.parse source
  have hreports : s'.syntaxReports source =
      s.syntaxReports source := by rw [syntaxReports, hparse]; rfl
  by_cases hread : s.syntaxReports source = []
  · rw [run_eq_runProgram hread, run_eq_runProgram (hreports.trans hread), hparse]
    exact (h.skip hle).runProgram budget (s.parse source).program
  · rw [run_of_syntaxReports hread, run_of_syntaxReports (hreports ▸ hread), hparse, hreports]
    exact .some ⟨rfl, rfl, h.skip hle⟩

/-- Both sessions evaluate a source alike. -/
theorem evaluate (h : Apart n k s s') (budget : Nat) (source : List UInt8) :
    Option.Rel (fun r r' : Evaluation => r'.result = r.result.map (Value.renumber (moveFrom n k)) ∧
        r'.reports = r.reports ∧ Apart n k r.session r'.session)
      (s.evaluate budget source) (s'.evaluate budget source) := by
  obtain ⟨hle, hids⟩ := ParsedExpr.ids_between (Scan.ofSource source).tokens s.nextId
  have hskip := h.skip hle
  simp only [Session.evaluate, h.nextId, ParsedExpr.ofTokens_add]
  cases he : (ParsedExpr.ofTokens (Scan.ofSource source).tokens s.nextId).expr? with
  | none => exact .some ⟨rfl, rfl, hskip⟩
  | some e =>
    have hmoved : e.renumber (· + k) = e.renumber (moveFrom n k) := by
      refine e.renumber_congr fun id hid => ?_
      rw [moveFrom, if_neg (Nat.not_lt.mpr (Nat.le_trans h.le ((hids e he).bounds id hid).1))]
    simp only [Option.map_some, hmoved]
    split
    · exact .some ⟨rfl, rfl, hskip⟩
    · have hst : s'.interpreter = s.interpreter.renumber (moveFrom n k) s'.interpreter.distances :=
        h.interpreter
      have hrun := Interpreter.evaluate_renumber h.distances budget e
      rw [← hst] at hrun
      simp only [evaluateExpr, hrun]
      cases hi : s.interpreter.evaluate budget e with
      | none => exact .none
      | some r =>
        have hafter := hskip.after (Interpreter.evaluate_samePlace hi).distances
        obtain ⟨_ | _, st₁⟩ := r <;> exact .some ⟨rfl, rfl, hafter⟩

end Apart

/-! ## Asking a session -/

/-- What a session can be asked to do with a source. -/
inductive Request where
  | run (source : List UInt8)
  | evaluate (source : List UInt8)

/-- What a session can answer: how it ended, or the text of a value and the name of its type. -/
inductive Response where
  | ended (outcome : Outcome)
  | value (text typeName : String)
  deriving DecidableEq, Repr

/-- All that can be seen of an answer: the response, what was reported in order, and the output so
far. -/
structure Answer where
  response : Response
  reports : List Diagnostic
  output : Output
  deriving DecidableEq, Repr

/-- What can be seen of running a source. -/
def answerRun (r : Run) : Answer :=
  ⟨.ended r.outcome, r.reports, r.session.interpreter.output⟩

/-- What can be seen of evaluating a source. -/
def answerEvaluation (r : Evaluation) : Answer :=
  let response := match r.result with
    | .ok v => .value v.display v.typeName
    | .error outcome => .ended outcome
  ⟨response, r.reports, r.session.interpreter.output⟩

/-- Asks a session, and gives the session after the answer. -/
def ask (budget : Nat) (s : Session) : Request → Option (Answer × Session)
  | .run source => (s.run budget source).map fun r => (answerRun r, r.session)
  | .evaluate source => (s.evaluate budget source).map fun r => (answerEvaluation r, r.session)

/-- The answers to requests in turn. -/
def answers (budget : Nat) (s : Session) : List Request → Option (List Answer)
  | [] => some []
  | request :: rest =>
    match s.ask budget request with
    | some (answer, s) => (s.answers budget rest).map (answer :: ·)
    | none => none

namespace Apart

variable {n k : Nat} {s' : Session}

/-- Both sessions answer alike. -/
theorem ask (h : Apart n k s s') (budget : Nat) (request : Request) :
    Option.Rel (fun a a' : Answer × Session => a'.1 = a.1 ∧ Apart n k a.2 a'.2)
      (s.ask budget request) (s'.ask budget request) := by
  cases request with
  | run source =>
    have hrun := h.run budget source
    simp only [Session.ask]
    generalize s.run budget source = ran, s'.run budget source = ran' at hrun ⊢
    cases hrun with
    | none => exact .none
    | some hr =>
      obtain ⟨houtcome, hreports, hapart⟩ := hr
      refine .some ⟨?_, hapart⟩
      simp only [answerRun, houtcome, hreports, hapart.output]
  | evaluate source =>
    have heval := h.evaluate budget source
    simp only [Session.ask]
    generalize s.evaluate budget source = evaluated, s'.evaluate budget source =
      evaluated' at heval ⊢
    cases heval with
    | none => exact .none
    | @some r _ hr =>
      obtain ⟨hresult, hreports, hapart⟩ := hr
      refine .some ⟨?_, hapart⟩
      simp only [answerEvaluation, hresult, hreports, hapart.output]
      cases r.result with
      | error outcome => rfl
      | ok v => simp only [Except.map, Value.display_renumber, Value.typeName_renumber]

theorem answers (h : Apart n k s s') (budget : Nat) (requests : List Request) :
    s'.answers budget requests = s.answers budget requests := by
  induction requests generalizing s s' with
  | nil => rfl
  | cons request rest ih =>
    have hask := h.ask budget request
    simp only [Session.answers]
    generalize s.ask budget request = asked, s'.ask budget request = asked' at hask ⊢
    cases hask with
    | none => rfl
    | @some a a' ha =>
      obtain ⟨hanswer, hapart⟩ := ha
      simp only [hanswer, ih hapart]

end Apart

/-- A rejected source leaves the interpreter as it was, but for distances of its own ids. -/
theorem session_of_rejected (hr : s.run budget source = some r)
    (hrejected : r.outcome = .syntaxError ∨ r.outcome = .staticError) :
    s.nextId ≤ r.session.nextId ∧
      r.session.interpreter = { s.interpreter with distances := r.session.interpreter.distances } ∧
      ∀ id, id < s.nextId →
      r.session.interpreter.distances[id]? = s.interpreter.distances[id]? := by
  obtain ⟨hle, hids⟩ := Parse.ids_between (Scan.ofSource source).tokens s.nextId
  have htouches := Stmt.touches_resolveAll (s.parse source).program (s.visit source).resolver
  cases ends_of_run hr with
  | unread => exact ⟨hle, rfl, fun _ _ => rfl⟩
  | refused _ hresolve =>
    obtain rfl := congrArg Prod.snd hresolve
    refine ⟨hle, rfl, fun id hid => htouches.distances id fun hnew => ?_⟩
    exact Nat.not_le.mpr hid (hids.bounds id hnew).1
  | ran | failed => rcases hrejected with h | h <;> cases h

/-- The session with a rejected source is the session without it, with its ids moved on. -/
theorem apart_of_rejected (h : Numbered s) (hr : s.run budget source = some r)
    (hrejected : r.outcome = .syntaxError ∨ r.outcome = .staticError) :
    Apart s.nextId (r.session.nextId - s.nextId) s r.session := by
  obtain ⟨hle, hinterpreter, hkept⟩ := session_of_rejected hr hrejected
  have hnext : s.nextId + (r.session.nextId - s.nextId) = r.session.nextId :=
    Nat.add_sub_cancel' hle
  refine ⟨Nat.le_refl _, hnext.symm, ?_, fun id => ?_⟩
  · rw [hinterpreter]
    simp only [Interpreter.renumber, h.store _ (beyond_moveFrom _ _)]
  · rw [moveFrom]
    split
    · next hid => exact hkept id hid
    · next hid =>
      -- The id is new to both sessions.
      have hid := Nat.le_of_not_lt hid
      rw [h.unrecorded id hid]
      exact (h.run hr).unrecorded _
        (Nat.le_trans (Nat.le_of_eq hnext.symm) (Nat.add_le_add_right hid _))

/-- **A rejected source is invisible to the rest of the session.** Whenever running a source ends in
an error of its syntax or its names, the interpreter is afterwards what it was before, in all but
the distances; in particular nothing was printed, and the variables, the objects, the environment
and the clock are untouched. Whatever the session is asked afterwards, it answers as if it had never
seen that source. -/
theorem rejected_source_invisible {natives : List Native} {output : Output} {maxCallDepth : Nat}
    {clock : Nat → Float} {s : Session}
    (hs : Reached (.new (.new natives output maxCallDepth clock)) s) {budget : Nat}
    {source : List UInt8} {r : Run} (hr : s.run budget source = some r)
    (hrejected : r.outcome = .syntaxError ∨ r.outcome = .staticError) :
    r.session.interpreter = { s.interpreter with distances := r.session.interpreter.distances } ∧
      ∀ (budget : Nat) (requests : List Request),
        r.session.answers budget requests = s.answers budget requests := by
  have hnumbered : Numbered s := hs.numbered (numbered_new natives output maxCallDepth clock)
  refine ⟨(session_of_rejected hr hrejected).2.1, fun budget requests => ?_⟩
  exact (apart_of_rejected hnumbered hr hrejected).answers budget requests

/-- The source `fun f() { var a = "hi"; { return a; } }`. -/
def greeting : List UInt8 :=
  "fun f() \x7b var a = \"hi\"; \x7b return a; \x7d \x7d".toUTF8.toList

/-- The source `{ var a = "no"; return a; }`, in which `return` stands at the top level. -/
def strayReturn : List UInt8 :=
  "\x7b var a = \"no\"; return a; \x7d".toUTF8.toList

/-- The rejected source has recorded a distance for an id of its own; the function made before it,
and a later source that calls it, do the same with and without it. -/
theorem greeting_survives_strayReturn :
    ∃ r r' : Run, Reached (.new (.new [] .unlimited 9 fun _ => 0)) r.session ∧
      r.session.run 9 strayReturn = some r' ∧ r'.outcome = .staticError ∧
      r.session.interpreter.distances[1]? = none ∧ r'.session.interpreter.distances[1]? = some 0 ∧
      r'.session.interpreter =
        { r.session.interpreter with distances := r'.session.interpreter.distances } ∧
      r'.session.answers 30 [.run "print f();".toUTF8.toList, .evaluate "f".toUTF8.toList] =
        some [⟨.ended .success, [], ⟨"hi\n", 1, none, false⟩⟩,
          ⟨.value "<fn f>" "function", [], ⟨"hi\n", 1, none, false⟩⟩] := by
  have hfirst : ((Session.new (.new [] .unlimited 9 fun _ => 0)).run 9 greeting).isSome =
      true := by decide +kernel
  obtain ⟨r, hr⟩ := Option.isSome_iff_exists.mp hfirst
  have hsecond : (((Session.new (.new [] .unlimited 9 fun _ => 0)).run 9 greeting).bind fun r =>
      (r.session.run 9 strayReturn).map fun r' => (r'.outcome, r.session.interpreter.distances[1]?,
        r'.session.interpreter.distances[1]?)) = some (.staticError, none, some 0) := by
    rw [show greeting = _ from Utf8.encode_eq _, show strayReturn = _ from Utf8.encode_eq _]
    cbv
  have hanswers : (((Session.new (.new [] .unlimited 9 fun _ => 0)).run 9 greeting).bind fun r =>
      r.session.answers 30 [.run "print f();".toUTF8.toList, .evaluate "f".toUTF8.toList]) =
        some [⟨.ended .success, [], ⟨"hi\n", 1, none, false⟩⟩,
          ⟨.value "<fn f>" "function", [], ⟨"hi\n", 1, none, false⟩⟩] := by
    rw [show greeting = _ from Utf8.encode_eq _]
    cbv
  rw [hr, Option.bind_some] at hsecond hanswers
  obtain ⟨r', hr', heq⟩ := Option.map_eq_some_iff.mp hsecond
  simp only [Prod.mk.injEq] at heq
  have hreached : Reached _ r.session := .run .start hr
  obtain ⟨hsame, hlater⟩ := rejected_source_invisible hreached hr' (.inr heq.1)
  exact ⟨r, r', hreached, hr', heq.1, heq.2.1, heq.2.2, hsame, (hlater 30 _).trans hanswers⟩

end Session

end Lox
