import Lox.Proofs.Binding.Effects
import Lox.Session

/-!
# The stages of a source

Running a source goes through stages: its tokens, its syntax, its names, and the run itself. Each
stage keeps a note of its own of whether it has gone wrong, and the next one starts only if there is
no such note. The notes are in step with what is reported (`Scan.hadError_ofItems`,
`Parse.hadError_eq`, `Stmt.hadError_ofProgram`), so that how a run ends can be said by the reports
alone. `Session.Ends` says what comes of each stage that a source can end in, and
`Session.ends_of_run` that there is no other way to end.
-/

namespace Lox

/-- Looking at a program notes that it has gone wrong exactly if a rule is found broken. -/
theorem Interpreter.hadError_resolution (st : Interpreter) (program : List Stmt) :
    (st.resolution program).hadError = !(st.resolve program).1.isEmpty :=
  Stmt.hadError_ofProgram _ st.distances program

namespace Session

variable {s : Session} {budget : Nat} {source : List UInt8} {r : Run}

/-! ## What is read -/

/-- What is read from a source. -/
def parse (s : Session) (source : List UInt8) : Parse :=
  Parse.ofTokens (Scan.ofSource source).tokens s.nextId

/-- What is read from a source as an expression. -/
def parseExpr (s : Session) (source : List UInt8) : ParsedExpr :=
  ParsedExpr.ofTokens (Scan.ofSource source).tokens s.nextId

/-- Whether a source is run: there is no error in its tokens, its syntax or its names. -/
def accepts (s : Session) (source : List UInt8) : Bool :=
  (Scan.ofSource source).errors.isEmpty && (s.parse source).errors.isEmpty &&
    (s.interpreter.resolve (s.parse source).program).1.isEmpty

theorem accepts_iff : s.accepts source = true ↔
    (Scan.ofSource source).errors = [] ∧ (s.parse source).errors = [] ∧
      (s.interpreter.resolve (s.parse source).program).1 = [] := by
  simp [accepts, and_assoc]

/-- What is reported before the names of a source are looked at. -/
def syntaxReports (s : Session) (source : List UInt8) : List Diagnostic :=
  (Scan.ofSource source).errors.map LexError.diagnostic ++
    (s.parse source).errors.map ParseError.diagnostic

theorem syntaxReports_eq_nil : s.syntaxReports source = [] ↔
    (Scan.ofSource source).errors = [] ∧ (s.parse source).errors = [] := by
  rw [syntaxReports, List.append_eq_nil_iff, List.map_eq_nil_iff, List.map_eq_nil_iff]

/-- Scanning and parsing note that they have gone wrong exactly if there is something to report. -/
theorem hadError_syntax (s : Session) (source : List UInt8) :
    ((Scan.ofSource source).hadError || (s.parse source).hadError) =
      !(s.syntaxReports source).isEmpty := by
  rw [syntaxReports, parse, Parse.hadError_eq, Scan.ofSource, Scan.hadError_ofItems]
  cases (Scan.ofItems _).errors <;> cases (Parse.ofTokens _ s.nextId).errors <;> rfl

/-! ## Running -/

/-- What came of a program that has run. -/
def ended (next : NodeId) : Except Fault Unit × Interpreter → Run
  | (.ok _, st) => ⟨.success, [], ⟨st, next⟩⟩
  | (.error f, st) => ⟨.runtimeError, [f.diagnostic], ⟨st, next⟩⟩

theorem interpreter_ended (next : NodeId) (r : Except Fault Unit × Interpreter) :
    (ended next r).session.interpreter = r.2 := by
  obtain ⟨_ | _, _⟩ := r <;> rfl

section

variable {st st₁ : Interpreter} {n : NodeId} {program : List Stmt} {errors : List StaticError}

/-- A program in which no rule is broken runs. -/
theorem runProgram_of_clean (h : st.resolve program = ([], st₁)) (budget : Nat) :
    runProgram budget ⟨st, n⟩ program = (st₁.interpret budget program).map (ended n) := by
  have hflag := st.hadError_resolution program
  rw [h] at hflag
  obtain ⟨herrors, rfl⟩ := Prod.mk.inj h
  simp only [runProgram, hflag, herrors]
  rcases Interpreter.interpret budget _ program with _ | ⟨_ | _, _⟩ <;> rfl

/-- A program in which a rule is broken does not. -/
theorem runProgram_of_errors (h : st.resolve program = (errors, st₁)) (hne : errors ≠ [])
    (budget : Nat) : runProgram budget ⟨st, n⟩ program =
      some ⟨.staticError, errors.map StaticError.diagnostic, ⟨st₁, n⟩⟩ := by
  have hflag := st.hadError_resolution program
  rw [h, List.isEmpty_eq_false_iff.mpr hne] at hflag
  obtain ⟨rfl, rfl⟩ := Prod.mk.inj h
  exact if_pos hflag

end

/-- A source that is written without error goes on as a program. -/
theorem run_eq_runProgram (h : s.syntaxReports source = []) (budget : Nat) :
    s.run budget source =
      runProgram budget ⟨s.interpreter, (s.parse source).nextId⟩ (s.parse source).program := by
  have hflag := s.hadError_syntax source
  rw [h] at hflag
  have hrun : s.run budget source = if (Scan.ofSource source).hadError || (s.parse source).hadError
      then some ⟨.syntaxError, s.syntaxReports source, ⟨s.interpreter, (s.parse source).nextId⟩⟩
      else (runProgram budget ⟨s.interpreter, (s.parse source).nextId⟩ (s.parse source).program).map
        (Run.after (s.syntaxReports source)) := rfl
  rw [hrun, hflag, h]
  exact Option.map_id_apply

/-- Any other source does not. -/
theorem run_of_syntaxReports (h : s.syntaxReports source ≠ []) (budget : Nat) :
    s.run budget source =
      some ⟨.syntaxError, s.syntaxReports source, ⟨s.interpreter, (s.parse source).nextId⟩⟩ := by
  have hflag := s.hadError_syntax source
  rw [List.isEmpty_eq_false_iff.mpr h] at hflag
  exact if_pos hflag

/-- An accepted source runs. -/
theorem run_of_accepts (h : s.accepts source = true) (budget : Nat) :
    s.run budget source = ((s.interpreter.resolve (s.parse source).program).2.interpret budget
      (s.parse source).program).map (ended (s.parse source).nextId) := by
  obtain ⟨hscan, hparse, hclean⟩ := accepts_iff.mp h
  rw [run_eq_runProgram (syntaxReports_eq_nil.mpr ⟨hscan, hparse⟩)]
  exact runProgram_of_clean (Prod.ext hclean rfl) budget

theorem accepts_of_resolve {st : Interpreter} (h : s.syntaxReports source = [])
    (hresolve : s.interpreter.resolve (s.parse source).program = ([], st)) :
    s.accepts source = true := by
  obtain ⟨hscan, hparse⟩ := syntaxReports_eq_nil.mp h
  exact accepts_iff.mpr ⟨hscan, hparse, congrArg Prod.fst hresolve⟩

/-- The ways in which running a source ends. -/
inductive Ends (budget : Nat) (s : Session) (source : List UInt8) : Run → Prop where
  /-- The source is no program. -/
  | unread (h : s.syntaxReports source ≠ []) : Ends budget s source
      ⟨.syntaxError, s.syntaxReports source, ⟨s.interpreter, (s.parse source).nextId⟩⟩
  /-- The program breaks a rule. -/
  | refused (h : s.syntaxReports source = []) {errors : List StaticError} {st : Interpreter}
      (hresolve : s.interpreter.resolve (s.parse source).program = (errors, st))
      (hne : errors ≠ []) : Ends budget s source
        ⟨.staticError, errors.map StaticError.diagnostic, ⟨st, (s.parse source).nextId⟩⟩
  /-- The program has run. -/
  | ran (h : s.syntaxReports source = []) {st st' : Interpreter}
      (hresolve : s.interpreter.resolve (s.parse source).program = ([], st))
      (hrun : st.interpret budget (s.parse source).program = some (.ok (), st')) :
      Ends budget s source ⟨.success, [], ⟨st', (s.parse source).nextId⟩⟩
  /-- The program has failed. -/
  | failed (h : s.syntaxReports source = []) {st st' : Interpreter} {f : Fault}
      (hresolve : s.interpreter.resolve (s.parse source).program = ([], st))
      (hrun : st.interpret budget (s.parse source).program = some (.error f, st')) :
      Ends budget s source ⟨.runtimeError, [f.diagnostic], ⟨st', (s.parse source).nextId⟩⟩

/-- **There is no other way to end.** -/
theorem ends_of_run (hr : s.run budget source = some r) : Ends budget s source r := by
  by_cases hread : s.syntaxReports source = []
  · rw [run_eq_runProgram hread] at hr
    obtain ⟨errors, st, hresolve⟩ :
        ∃ errors st, s.interpreter.resolve (s.parse source).program = (errors, st) := ⟨_, _, rfl⟩
    cases errors with
    | nil =>
      rw [runProgram_of_clean hresolve, Option.map_eq_some_iff] at hr
      obtain ⟨⟨result, st'⟩, hi, rfl⟩ := hr
      cases result with
      | ok => exact .ran hread hresolve hi
      | error f => exact .failed hread hresolve hi
    | cons e rest =>
      have hne : e :: rest ≠ [] := List.cons_ne_nil e rest
      rw [runProgram_of_errors hresolve hne, Option.some.injEq] at hr
      subst hr
      exact .refused hread hresolve hne
  · rw [run_of_syntaxReports hread, Option.some.injEq] at hr
    subst hr
    exact .unread hread

/-! ## Evaluating -/

/-- What came of an expression that has been evaluated. -/
def evaluated (next : NodeId) : Except Fault Value × Interpreter → Evaluation
  | (.ok v, st) => ⟨.ok v, [], ⟨st, next⟩⟩
  | (.error f, st) => ⟨.error .runtimeError, [f.diagnostic], ⟨st, next⟩⟩

/-- An expression that is written without error is evaluated. -/
theorem evaluate_eq {e : Expr} (hscan : (Scan.ofSource source).errors = [])
    (hparse : (s.parseExpr source).expr? = some e) (budget : Nat) : s.evaluate budget source =
      (s.interpreter.evaluate budget e).map (evaluated (s.parseExpr source).nextId) := by
  have hflag : (Scan.ofSource source).hadError = false := by
    rw [Scan.ofSource, Scan.hadError_ofItems]
    simpa [Scan.ofSource] using hscan
  have herrors : (s.parseExpr source).errors = [] := ParsedExpr.errors_eq_nil hparse
  rw [parseExpr] at hparse herrors
  simp only [evaluate, hparse, hflag, hscan, herrors, evaluateExpr]
  rcases s.interpreter.evaluate budget e with _ | ⟨_ | _, _⟩ <;> rfl

/-- **Evaluating a source leaves the interpreter alone, or evaluates the expression in it.** -/
theorem session_of_evaluate {ev : Evaluation} (hr : s.evaluate budget source = some ev) :
    ev.session = ⟨s.interpreter, (s.parseExpr source).nextId⟩ ∨
      ∃ e x, (s.parseExpr source).expr? = some e ∧ s.interpreter.evaluate budget e = some x ∧
        ev.session = ⟨x.2, (s.parseExpr source).nextId⟩ := by
  simp only [evaluate] at hr
  split at hr
  · next e he =>
    split at hr
    · cases hr
      exact .inl rfl
    · obtain ⟨ev', hev, rfl⟩ := Option.map_eq_some_iff.mp hr
      simp only [evaluateExpr] at hev
      split at hev
      · next hi => cases hev; exact .inr ⟨e, _, he, hi, rfl⟩
      · next hi => cases hev; exact .inr ⟨e, _, he, hi, rfl⟩
      · cases hev
  · cases hr
    exact .inl rfl

/-! ## One source after the other -/

/-- The sessions that running and evaluating sources, in any order, can lead to. -/
inductive Reached (start : Session) : Session → Prop where
  | start : Reached start start
  | run {s : Session} {budget : Nat} {source : List UInt8} {r : Run} (h : Reached start s)
      (hr : s.run budget source = some r) : Reached start r.session
  | evaluate {s : Session} {budget : Nat} {source : List UInt8} {r : Evaluation}
      (h : Reached start s) (hr : s.evaluate budget source = some r) : Reached start r.session

/-- **Sessions keep what looking at programs, running them and evaluating expressions keep.** -/
theorem Reached.keeps {start : Session} {P : Interpreter → Prop} (h : Reached start s)
    (hdistances : ∀ st D, P st → P { st with distances := D })
    (hinterpret : ∀ {budget st program x}, P st →
      Interpreter.interpret budget st program = some x → P x.2)
    (hevaluate : ∀ {budget st e x}, P st → Interpreter.evaluate budget st e = some x → P x.2)
    (hstart : P start.interpreter) : P s.interpreter := by
  induction h with
  | start => exact hstart
  | @run s _ source _ _ hr ih =>
    have hresolved : P (s.interpreter.resolve (s.parse source).program).2 := hdistances _ _ ih
    cases ends_of_run hr with
    | unread => exact ih
    | refused _ hresolve =>
      rw [hresolve] at hresolved
      exact hresolved
    | ran _ hresolve hi | failed _ hresolve hi =>
      rw [hresolve] at hresolved
      exact hinterpret hresolved hi
  | evaluate _ hr ih =>
    rcases session_of_evaluate hr with heq | ⟨e, x, -, hi, heq⟩
    · rw [heq]
      exact ih
    · rw [heq]
      exact hevaluate ih hi

end Session

end Lox
