import Lox.Proofs.Scope.Sessions

/-!
# Outcomes and reports

How a run ends is up to the stages it goes through (`Session.Ends`), and what is reported tells
which of them it was.

Whether a source gets past its syntax can be said without the stages: every segment of it is a
token, a blank or a comment, and the grammar derives a program from the tokens (`IsWritten`). So no
error is left unreported, and none is reported without effect on the outcome
(`Session.outcome_agrees_with_reports`).
-/

namespace Lox

variable {d : Diagnostic} {o : Outcome}

/-! ## Kinds of reports -/

/-- What can go wrong with a source, in the order in which it is looked at, and with files. -/
inductive Stage where
  | lex
  | parse
  | resolve
  | runtime
  | io
  | utf8
  deriving DecidableEq, Repr

/-- What a report is about. -/
def Diagnostic.stage : Diagnostic → Stage
  | lex _ _ => .lex
  | parse _ _ _ => .parse
  | resolve _ _ _ => .resolve
  | runtime _ _ => .runtime
  | io _ => .io
  | utf8 _ => .utf8

/-- Reports are about one thing. -/
def AllAbout (stage : Stage) (reports : List Diagnostic) : Prop :=
  ∀ d ∈ reports, d.stage = stage

theorem allAbout_lex (errors : List LexError) : AllAbout .lex (errors.map LexError.diagnostic) := by
  intro d hd
  obtain ⟨e, -, rfl⟩ := List.mem_map.mp hd
  rfl

theorem allAbout_parse (errors : List ParseError) :
    AllAbout .parse (errors.map ParseError.diagnostic) := by
  intro d hd
  obtain ⟨e, -, rfl⟩ := List.mem_map.mp hd
  rfl

theorem allAbout_resolve (errors : List StaticError) :
    AllAbout .resolve (errors.map StaticError.diagnostic) := by
  intro d hd
  obtain ⟨e, -, rfl⟩ := List.mem_map.mp hd
  rfl

/-- A program fails because of what it does, or because of its output. -/
theorem Fault.stage_diagnostic (f : Fault) :
    f.diagnostic.stage = .runtime ∨ f.diagnostic.stage = .io := by
  cases f with
  | runtime line fault => exact .inl rfl
  | output fault => exact .inr rfl

/-- The outcome that goes with a kind of report. Reading and writing have none of their own. -/
def Stage.outcome? : Stage → Option Outcome
  | .lex => some .syntaxError
  | .parse => some .syntaxError
  | .resolve => some .staticError
  | .runtime => some .runtimeError
  | .io => none
  | .utf8 => none

/-- The exit status of a report is that of its outcome. -/
theorem Diagnostic.exitCode_eq (h : d.stage.outcome? = some o) : d.exitCode = o.exitCode := by
  cases d <;> cases h <;> rfl

/-! ## Sources without errors -/

/-- A segment that is a token, a blank, a line end or a comment. -/
def Segment.IsRead (s : Segment) : Prop :=
  s.form ≠ .unclosed ∧ s.form ≠ .stray

/-- A source of tokens from which the grammar derives a program. -/
def IsWritten (source : List UInt8) : Prop :=
  (∀ s ∈ Segment.cut source, s.IsRead) ∧
    ∃ body, Grammar.Program false (beforeEnd (Scan.ofSource source).tokens) body

namespace Segment

/-- A segment that is no token gives an error, and nothing else does. -/
theorem isRead_iff (s : Segment) (line : Nat) : s.IsRead ↔ ∀ e, s.item? line ≠ some (.error e) := by
  unfold IsRead item?
  cases s.form <;> simp

theorem errors_items (line : Nat) (segments : List Segment) :
    (items line segments).filterMap Scan.error? = [] ↔ ∀ s ∈ segments, s.IsRead := by
  induction segments generalizing line with
  | nil => simp [items, Scan.error?]
  | cons s rest ih =>
    have hs : (s.item? (line + s.lineEnds)).toList.filterMap Scan.error? = [] ↔ s.IsRead := by
      rw [s.isRead_iff (line + s.lineEnds)]
      cases s.item? (line + s.lineEnds) with
      | none => simp
      | some item => cases item <;> simp [Scan.error?]
    rw [items, List.filterMap_append, List.append_eq_nil_iff, hs, ih, List.forall_mem_cons]

end Segment

theorem Scan.errors_eq_nil_iff (source : List UInt8) :
    (Scan.ofSource source).errors = [] ↔ ∀ s ∈ Segment.cut source, s.IsRead := by
  rw [Scan.ofSource, errors_ofItems]
  exact Segment.errors_items 1 (Segment.cut source)

theorem Parse.errors_eq_nil_iff (tokens : List Token) (nextId : NodeId) :
    (Parse.ofTokens tokens nextId).errors = [] ↔
      ∃ body, Grammar.Program false (beforeEnd tokens) body := by
  have hflag : (Parse.ofTokens tokens nextId).errors = [] ↔
      (Parse.ofTokens tokens nextId).hadError = false := by
    simp [Parse.hadError_eq]
  rw [hflag]
  constructor
  · exact fun h => ⟨_, Parse.program_of_hadError h⟩
  · rintro ⟨body, h⟩
    obtain ⟨_, h'⟩ := h.nearest
    exact (Parse.of_program h').1

namespace Session

variable {s : Session} {budget : Nat} {source : List UInt8} {r : Run}

/-- Nothing is reported about a source exactly if it is written as the grammar says. -/
theorem syntaxReports_eq_nil_iff : s.syntaxReports source = [] ↔ IsWritten source := by
  rw [syntaxReports_eq_nil, Scan.errors_eq_nil_iff, parse, Parse.errors_eq_nil_iff, IsWritten]

namespace Ends

variable (h : Ends budget s source r)

include h

/-- The reports about the tokens come before those about the syntax. -/
theorem reports_of_syntaxError (ho : r.outcome = .syntaxError) :
    r.reports ≠ [] ∧ ∃ lexical syntactic, r.reports = lexical ++ syntactic ∧ AllAbout .lex lexical ∧
      AllAbout .parse syntactic := by
  cases h with
  | unread hne => exact ⟨hne, _, _, rfl, allAbout_lex _, allAbout_parse _⟩
  | _ => cases ho

theorem reports_of_staticError (ho : r.outcome = .staticError) :
    r.reports ≠ [] ∧ AllAbout .resolve r.reports := by
  cases h with
  | @refused _ errors _ _ hne =>
    exact ⟨fun hnil => hne (List.map_eq_nil_iff.mp hnil), allAbout_resolve errors⟩
  | _ => cases ho

theorem reports_of_runtimeError (ho : r.outcome = .runtimeError) :
    ∃ d, r.reports = [d] ∧ (d.stage = .runtime ∨ d.stage = .io) := by
  cases h with
  | @failed _ _ _ f _ _ => exact ⟨f.diagnostic, rfl, f.stage_diagnostic⟩
  | _ => cases ho

/-- Each report stands for the outcome, but for those about the output. -/
theorem outcome?_stage (hd : d ∈ r.reports) :
    d.stage = .io ∧ r.outcome = .runtimeError ∨ d.stage.outcome? = some r.outcome := by
  cases h with
  | unread =>
    rcases List.mem_append.mp hd with hd | hd
    · exact .inr (by rw [allAbout_lex _ d hd]; rfl)
    · exact .inr (by rw [allAbout_parse _ d hd]; rfl)
  | refused => exact .inr (by rw [allAbout_resolve _ d hd]; rfl)
  | ran => cases hd
  | @failed _ _ _ f _ _ =>
    obtain rfl := List.mem_singleton.mp hd
    rcases f.stage_diagnostic with hstage | hstage
    · exact .inr (by rw [hstage]; rfl)
    · exact .inl ⟨hstage, rfl⟩

theorem outcome_of_stage (hd : d ∈ r.reports) (ho : d.stage.outcome? = some o) : r.outcome = o := by
  rcases h.outcome?_stage hd with ⟨hio, -⟩ | hstage
  · rw [hio] at ho
    cases ho
  · exact Option.some.inj (hstage.symm.trans ho)

theorem success_iff : r.outcome = .success ↔ r.reports = [] := by
  cases h with
  | unread hne => exact ⟨fun ho => (nomatch ho), fun hnil => absurd hnil hne⟩
  | refused _ _ hne =>
    exact ⟨fun ho => (nomatch ho), fun hnil => absurd (List.map_eq_nil_iff.mp hnil) hne⟩
  | ran => exact ⟨fun _ => rfl, fun _ => rfl⟩
  | failed => exact ⟨fun ho => (nomatch ho), fun hnil => (nomatch hnil)⟩

/-- Reports that all stand for one outcome. -/
theorem outcome_of_allAbout (hne : r.reports ≠ [])
    (hall : ∀ d ∈ r.reports, d.stage.outcome? = some o) : r.outcome = o := by
  obtain ⟨d, hd⟩ := List.exists_mem_of_ne_nil _ hne
  exact h.outcome_of_stage hd (hall d hd)

/-- Only a program that runs writes. -/
theorem output_eq (ho : r.outcome = .syntaxError ∨ r.outcome = .staticError) :
    r.session.interpreter.output = s.interpreter.output := by
  cases h with
  | unread => rfl
  | refused _ hresolve => exact (congrArg (fun found => found.2.output) hresolve).symm
  | _ => rcases ho with ho | ho <;> cases ho

theorem syntaxError_iff : r.outcome = .syntaxError ↔ ¬ IsWritten source := by
  rw [← syntaxReports_eq_nil_iff (s := s)]
  cases h with
  | unread hne => exact ⟨fun _ => hne, fun _ => rfl⟩
  | refused hnil | ran hnil | failed hnil =>
    exact ⟨fun ho => (nomatch ho), fun hne => absurd hnil hne⟩

end Ends

/-- **Outcome, reports and effects agree.** Whatever the session and the source, if a run ends: it
is a success exactly if nothing is reported; it is a syntax error exactly if there are reports,
first some about tokens and then some about syntax, and that is exactly if the source is not written
as the grammar says; it is a static error exactly if there are reports and all are about names; it
is an error at run time exactly if there is one report, about the run or the output. A source that
does not run writes nothing, and each report, unless it is about the output, has the exit status of
the outcome. -/
theorem outcome_agrees_with_reports (hr : s.run budget source = some r) :
    (r.outcome = .success ↔ r.reports = []) ∧
    (r.outcome = .syntaxError ↔ r.reports ≠ [] ∧
      ∃ lexical syntactic, r.reports = lexical ++ syntactic ∧
        AllAbout .lex lexical ∧ AllAbout .parse syntactic) ∧
    (r.outcome = .syntaxError ↔ ¬ IsWritten source) ∧
    (r.outcome = .staticError ↔ r.reports ≠ [] ∧ AllAbout .resolve r.reports) ∧
    (r.outcome = .runtimeError ↔ ∃ d, r.reports = [d] ∧ (d.stage = .runtime ∨ d.stage = .io)) ∧
    (r.outcome = .syntaxError ∨ r.outcome = .staticError →
      r.session.interpreter.output = s.interpreter.output) ∧
    ∀ d ∈ r.reports, d.stage ≠ .io → d.exitCode = r.outcome.exitCode := by
  have h := ends_of_run hr
  refine ⟨h.success_iff, ⟨h.reports_of_syntaxError, ?_⟩, h.syntaxError_iff,
    ⟨h.reports_of_staticError, ?_⟩, ⟨h.reports_of_runtimeError, ?_⟩, h.output_eq,
    fun d hd hio => ?_⟩
  -- Conversely, one report already tells the outcome by what it is about.
  · rintro ⟨hne, lexical, syntactic, heq, hlexical, hsyntactic⟩
    refine h.outcome_of_allAbout hne fun d hd => ?_
    rcases List.mem_append.mp (heq ▸ hd) with hd | hd
    · rw [hlexical d hd]; rfl
    · rw [hsyntactic d hd]; rfl
  · rintro ⟨hne, hall⟩
    exact h.outcome_of_allAbout hne fun d hd => by rw [hall d hd]; rfl
  · rintro ⟨d, heq, hstage⟩
    have hd : d ∈ r.reports := by rw [heq]; exact List.mem_singleton_self d
    rcases h.outcome?_stage hd with ⟨-, ho⟩ | ho
    · exact ho
    · rcases hstage with hstage | hstage
      · rw [hstage] at ho
        exact (Option.some.inj ho).symm
      · rw [hstage] at ho
        cases ho
  · rcases h.outcome?_stage hd with ⟨hstage, -⟩ | ho
    · exact absurd hstage hio
    · exact Diagnostic.exitCode_eq ho

/-- The source `print # 1 2; print "three` with a byte that starts nothing, a string that is never
closed and, between them, a number where a semicolon should stand. -/
def garbled : List UInt8 :=
  "print # 1 2; print \"three".toUTF8.toList

/-- The reports about the two tokens come first, and so the outcome is a syntax error. -/
theorem garbled_reports :
    ∃ r : Run, (Session.new (.new [] .unlimited 9 fun _ => 0)).run 9 garbled = some r ∧
      r.reports.map Diagnostic.stage = [.lex, .lex, .parse, .parse] ∧ r.outcome = .syntaxError ∧
      ¬ IsWritten garbled ∧ r.session.interpreter.output = .unlimited ∧
      ∀ d ∈ r.reports, d.exitCode = 65 := by
  have hreports : ((Session.new (.new [] .unlimited 9 fun _ => 0)).run 9 garbled).map
      (fun r => r.reports.map Diagnostic.stage) =
      some [.lex, .lex, .parse, .parse] := by decide +kernel
  obtain ⟨r, hr, hstages⟩ := Option.map_eq_some_iff.mp hreports
  obtain ⟨-, hsyntax, hwritten, -, -, houtput, hexit⟩ := outcome_agrees_with_reports hr
  have hlexical : AllAbout .lex (r.reports.take 2) := fun d hd => by
    have hmem := List.mem_map_of_mem (f := Diagnostic.stage) hd
    rw [List.map_take, hstages] at hmem
    simpa using hmem
  have hsyntactic : AllAbout .parse (r.reports.drop 2) := fun d hd => by
    have hmem := List.mem_map_of_mem (f := Diagnostic.stage) hd
    rw [List.map_drop, hstages] at hmem
    simpa using hmem
  have hne : r.reports ≠ [] := fun hnil => by rw [hnil] at hstages; cases hstages
  have houtcome :=
    hsyntax.mpr ⟨hne, _, _, (List.take_append_drop 2 r.reports).symm, hlexical, hsyntactic⟩
  refine ⟨r, hr, hstages, houtcome, hwritten.mp houtcome, houtput (.inl houtcome), fun d hd => ?_⟩
  have hio : d.stage ≠ .io := fun hio => by
    have hmem := List.mem_map_of_mem (f := Diagnostic.stage) hd
    rw [hstages, hio] at hmem
    simp at hmem
  rw [hexit d hd hio, houtcome]
  rfl

end Session

end Lox
