import Lox.Proofs.Lexical.Sessions
import Lox.Proofs.Limits.Cut

/-!
# An output that refuses cuts runs off

What a program prints goes to its output in pieces, and the output may refuse a piece. That ends the
program, however deep in calls and loops the print is, and changes nothing else
(`Session.refusing_output_cuts_off`).

An output that refuses after some lines is compared with one that takes everything (`Output.cap`).
Both take the same pieces as long as no piece comes after these lines (`Output.write_cap`,
`Output.write_cap_refused`), and so the two runs go side by side up to the first print with such a
piece.
-/

namespace Lox

variable {written : String}

/-! ## Outputs -/

namespace Output

/-- The output, which takes nothing more after `n` lines. -/
def cap (n : Nat) (o : Output) : Output :=
  { o with limit := some (match o.limit with
      | some k => min n k
      | none => n) }

/-- An output that takes everything and counts the lines of what was written. -/
structure Open (o : Output) : Prop where
  limit : o.limit = none
  lines : o.lines = lineEnds o.text

variable {o : Output} {n : Nat}

theorem Open.append (h : o.Open) (s : String) : (o.append s).Open where
  limit := h.limit
  lines := by rw [Output.append, h.lines, lineEnds_append]

theorem Open.isFull (h : o.Open) : o.isFull = false := by
  rw [Output.isFull, h.limit]

theorem Open.isFull_cap (h : o.Open) : (o.cap n).isFull = decide (n ≤ lineEnds o.text) := by
  rw [← h.lines, Output.isFull, cap, h.limit]

theorem Open.write (h : o.Open) (pieces : List String) : (o.write pieces).1.Open := by
  rw [write_of_limit h.limit]
  exact h.append _

/-- In writing pieces, something is written after `written`. -/
def WritesAfter (o : Output) (pieces : List String) (written : String) : Prop :=
  ∃ before piece after, pieces = before ++ piece :: after ∧ piece ≠ "" ∧
    written = o.text ++ String.join before

theorem writesAfter_cons {s : String} {rest : List String} : o.WritesAfter (s :: rest) written ↔
    (s ≠ "" ∧ written = o.text) ∨ (o.append s).WritesAfter rest written := by
  constructor
  · rintro ⟨before, piece, after, heq, hne, rfl⟩
    cases before with
    | nil =>
      obtain ⟨rfl, rfl⟩ := List.cons.inj heq
      exact .inl ⟨hne, String.append_empty⟩
    | cons s' before =>
      obtain ⟨rfl, rfl⟩ := List.cons.inj heq
      refine .inr ⟨before, piece, after, rfl, hne, ?_⟩
      rw [String.join_cons, ← String.append_assoc]
      rfl
  · rintro (⟨hne, rfl⟩ | ⟨before, piece, after, rfl, hne, rfl⟩)
    · exact ⟨[], s, rest, rfl, hne, String.append_empty.symm⟩
    · refine ⟨s :: before, piece, after, rfl, hne, ?_⟩
      rw [String.join_cons, ← String.append_assoc]
      rfl

/-- Pieces of which none comes after `n` lines are taken as by an output that takes everything. -/
theorem write_cap (h : o.Open) {pieces : List String}
    (hfew : ∀ written, o.WritesAfter pieces written → lineEnds written < n) :
    (o.cap n).write pieces = ((o.write pieces).1.cap n, true) := by
  induction pieces generalizing o with
  | nil => rfl
  | cons s rest ih =>
    have hrest := ih (h.append s) fun written hw => hfew written (writesAfter_cons.mpr (.inr hw))
    rw [write, write]
    split
    · next hs =>
      rw [String.isEmpty_iff.mp hs, append_empty] at hrest
      exact hrest
    · next hs =>
      have hlt :=
        hfew o.text (writesAfter_cons.mpr (.inl ⟨fun heq => hs (String.isEmpty_iff.mpr heq), rfl⟩))
      rw [h.isFull, h.isFull_cap, decide_eq_false (Nat.not_le.mpr hlt)]
      exact hrest

/-- **Of pieces of which one comes after `n` lines, the first of them is refused.** -/
theorem write_cap_refused (h : o.Open) {pieces : List String} (hw : o.WritesAfter pieces written)
    (hmany : n ≤ lineEnds written) :
    ((o.cap n).write pieces).2 = false ∧ o.WritesAfter pieces ((o.cap n).write pieces).1.text ∧
      n ≤ lineEnds ((o.cap n).write pieces).1.text := by
  induction pieces generalizing o with
  | nil =>
    obtain ⟨before, piece, after, heq, -⟩ := hw
    cases before <;> cases heq
  | cons s rest ih =>
    by_cases hs : s = ""
    · subst hs
      rcases writesAfter_cons.mp hw with ⟨hne, -⟩ | hw
      · exact absurd rfl hne
      · rw [append_empty] at hw
        obtain ⟨hrefused, hafter, hlines⟩ := ih h hw
        refine ⟨hrefused, writesAfter_cons.mpr (.inr ?_), hlines⟩
        rw [append_empty]
        exact hafter
    · have hpiece : ¬ s.isEmpty = true := fun hempty => hs (String.isEmpty_iff.mp hempty)
      rw [write, if_neg hpiece, h.isFull_cap]
      by_cases hfull : n ≤ lineEnds o.text
      · rw [decide_eq_true hfull, if_pos rfl]
        exact ⟨rfl, writesAfter_cons.mpr (.inl ⟨hs, rfl⟩), hfull⟩
      · rw [decide_eq_false hfull, if_neg Bool.false_ne_true]
        rcases writesAfter_cons.mp hw with ⟨-, rfl⟩ | hw
        · exact absurd hmany hfull
        · obtain ⟨hrefused, hafter, hlines⟩ := ih (h.append s) hw
          exact ⟨hrefused, writesAfter_cons.mpr (.inr hafter), hlines⟩

end Output

/-! ## Machines -/

namespace Interpreter

/-- The interpreter with an output that takes nothing more after `n` lines. -/
def capOutput (n : Nat) (st : Interpreter) : Interpreter :=
  { st with output := st.output.cap n }

end Interpreter

namespace Machine

open Interpreter (capOutput)

variable {n : Nat} {m : Machine}

/-- In the next step, something is written after `written`. -/
def WritesAfter (m : Machine) (written : String) : Prop :=
  ∃ v, m.prints? = some v ∧ m.state.output.WritesAfter (v.pieces ++ ["\n"]) written

/-- In the next step, something is written after `n` lines. -/
def WritesPast (n : Nat) (m : Machine) : Prop :=
  ∃ written, m.WritesAfter written ∧ n ≤ Output.lineEnds written

theorem open_run (h : m.state.output.Open) (budget : Nat) : (run budget m).state.output.Open :=
  output_kept_by_run (fun _ pieces ho => ho.write pieces) h budget

theorem isDone_of_prints? {v : Value} (h : m.prints? = some v) : m.isDone = false := by
  obtain ⟨control, frames, st⟩ := m
  simp only [prints?] at h
  split at h
  · rfl
  · cases h

/-- A step that writes nothing after `n` lines is the same for an output that would refuse it. -/
theorem step_capOutput (h : m.state.output.Open) (hfew : ¬ m.WritesPast n) :
    (m.mapState (capOutput n)).step = m.step.mapState (capOutput n) := by
  cases hprint : m.prints? with
  | none =>
    have hstep : (m.mapState (capOutput n)).step =
        m.step.under (m.state.output.cap n) m.state.maxCallDepth :=
      step_under hprint Iff.rfl
    obtain ⟨houtput, hbound⟩ := output_step hprint
    rw [hstep, ← houtput, ← hbound]
    rfl
  | some v =>
    have hwrite : (m.state.output.cap n).write (v.pieces ++ ["\n"]) =
        ((m.state.output.write (v.pieces ++ ["\n"])).1.cap n, true) :=
      Output.write_cap h fun written hw => Nat.not_le.mp fun hmany =>
        hfew ⟨written, ⟨v, hprint, hw⟩, hmany⟩
    have hprints : (capOutput n m.state).print v =
        ((m.state.print v).1, capOutput n (m.state.print v).2) := by
      have htaken : (m.state.output.write (v.pieces ++ ["\n"])).2 =
          true := by rw [Output.write_of_limit h.limit]
      simp only [Interpreter.print, capOutput, hwrite, htaken]
    rw [step_of_prints? hprint, step_of_prints? (m := m.mapState (capOutput n)) hprint,
      ← finish_mapState, ← hprints]
    rfl

/-- A step that writes something after `n` lines fails with an output that refuses it. -/
theorem step_capOutput_refused (h : m.state.output.Open) (hmany : m.WritesPast n) :
    ∃ o, (m.mapState (capOutput n)).step =
        ⟨.fault (.output .writeRefused), m.frames.tail, { m.state with output := o }⟩ ∧
      m.WritesAfter o.text ∧ n ≤ Output.lineEnds o.text := by
  obtain ⟨written, ⟨v, hprint, hw⟩, hmany⟩ := hmany
  obtain ⟨hrefused, hafter, hlines⟩ := Output.write_cap_refused h hw hmany
  refine ⟨_, ?_, ⟨v, hprint, hafter⟩, hlines⟩
  have hprints : (capOutput n m.state).print v = (.error (.output .writeRefused),
      { m.state with output := ((m.state.output.cap n).write (v.pieces ++ ["\n"])).1 }) := by
    simp only [Interpreter.print, capOutput, hrefused]
    rfl
  rw [step_of_prints? (m := m.mapState (capOutput n)) hprint]
  exact congrArg (finish · m.frames.tail) hprints

end Machine

/-! ## Programs -/

namespace Interpreter

open Machine (Stricter mapState)

variable {st st' : Interpreter} {program : List Stmt} {m : Machine} {n : Nat}

theorem Passes.open (hm : st.Passes program m) (h : st.output.Open) : m.state.output.Open := by
  induction hm with
  | here steps => exact Machine.open_run h steps
  | @later st st' s rest budget f m hs _ ih =>
    have hrun := Machine.open_run (m := ⟨.exec s, [], st⟩) h budget
    rw [(Machine.state_of_ending? hs).2] at hrun
    exact ih hrun

/-- Where a program goes on, it comes to the next step. -/
theorem Passes.step (hm : st.Passes program m) (hbusy : m.isDone = false) :
    st.Passes program m.step := by
  induction hm with
  | @here st s rest steps =>
    have hnext : Machine.run (steps + 1) ⟨.exec s, [], st⟩ =
        (Machine.run steps ⟨.exec s, [], st⟩).step := by
      rw [Machine.run_add, Machine.run, if_neg (by rw [hbusy]; exact Bool.false_ne_true),
        Machine.run]
    rw [← hnext]
    exact .here (steps + 1)
  | later hs _ ih => exact .later hs (ih hbusy)

theorem capOutput_stricter (n : Nat) :
    Stricter (capOutput n) fun m => m.state.output.Open → m.WritesPast n := by
  intro m huncut
  obtain ⟨hopen, hfew⟩ := Classical.not_imp.mp huncut
  exact Machine.step_capOutput hopen hfew

/-- A program that writes nothing after `n` lines ends alike with an output that would refuse it. -/
theorem interpret_capOutput (h : st.output.Open)
    (hfew : ∀ m, st.Passes program m → ¬ m.WritesPast n) (budget : Nat) :
    (st.capOutput n).interpret budget program = (st.interpret budget program).map fun r =>
      (r.1, r.2.capOutput n) :=
  interpret_mapState (capOutput_stricter n) (fun _ => rfl)
    (fun m hm hcut => hfew m hm (hcut (hm.open h))) budget

/-- **A program that writes something after `n` lines fails at the first such print with an output
that refuses it.** -/
theorem interpret_capOutput_refused (h : st.output.Open) (hm : st.Passes program m)
    (hmany : m.WritesPast n) :
    ∃ m budget st', st.Passes program m ∧
      (st.capOutput n).Passes program (m.mapState (capOutput n)) ∧
      (st.capOutput n).interpret budget program = some (.error (.output .writeRefused), st') ∧
      m.WritesAfter st'.output.text ∧ n ≤ Output.lineEnds st'.output.text ∧
      st'.store = m.state.store ∧ st'.readings = m.state.readings := by
  obtain ⟨m, hm, hcut, hm'⟩ := exists_first_cut (capOutput_stricter n) hm fun _ => hmany
  obtain ⟨o, hstep, hafter, hlines⟩ := Machine.step_capOutput_refused (hm.open h) (hcut (hm.open h))
  have hbusy : (m.mapState (capOutput n)).isDone = false := by
    obtain ⟨v, hprint, -⟩ := hafter
    exact Machine.isDone_of_prints? hprint
  obtain ⟨b, hb⟩ := executeAll_of_fault hm' hbusy hstep
  refine ⟨m, b, _, hm, hm', interpret_of_error hb, ?_⟩
  rw [Machine.unwind_eq]
  exact ⟨hafter, hlines, rfl, rfl⟩

/-- What was written before a moment's piece is the beginning of what is written in the end. -/
theorem Passes.before_of_writesAfter (hm : st.Passes program m) (h : st.output.Open)
    (hafter : m.WritesAfter written) {budget : Nat} {r : Except Fault Unit × Interpreter}
    (hr : st.interpret budget program = some r) : ∃ more, r.2.output.text = written ++ more := by
  obtain ⟨v, hprint, before, piece, after, heq, -, rfl⟩ := hafter
  have hnext := (hm.step (Machine.isDone_of_prints? hprint)).before_interpret hr
  rw [Machine.step_of_prints? hprint, Machine.state_finish] at hnext
  obtain ⟨more, hmore⟩ := hnext
  have htext : (m.state.print v).2.output.text =
      m.state.output.text ++ String.join (before ++ piece :: after) := by
    rw [← heq]
    exact congrArg (·.1.text) (Output.write_of_limit (hm.open h).limit _)
  refine ⟨String.join (piece :: after) ++ more, ?_⟩
  rw [hmore, htext, String.join_append, String.append_assoc, String.append_assoc,
    String.append_assoc]

end Interpreter

/-! ## Sources -/

namespace Session

open Interpreter (capOutput)

variable {s : Session} {source : List UInt8}

/-- The machines that running a source goes through. -/
def Passes (s : Session) (source : List UInt8) (m : Machine) : Prop :=
  s.accepts source = true ∧
    (s.interpreter.resolve (s.parse source).program).2.Passes (s.parse source).program m

/-- The session with an output that takes nothing more after `n` lines. -/
def capOutput (n : Nat) (s : Session) : Session :=
  ⟨s.interpreter.capOutput n, s.nextId⟩

/-- A source that is not accepted comes to the same end with any output. -/
theorem run_capOutput_of_refused (h : s.accepts source = false) (n budget : Nat) :
    (s.capOutput n).run budget source =
      (s.run budget source).map fun r => ⟨r.outcome, r.reports, r.session.capOutput n⟩ := by
  have hparse : (s.capOutput n).parse source = s.parse source := rfl
  have hreports : (s.capOutput n).syntaxReports source = s.syntaxReports source := rfl
  have hresolve : (s.interpreter.capOutput n).resolve (s.parse source).program =
      ((s.interpreter.resolve (s.parse source).program).1,
        (s.interpreter.resolve (s.parse source).program).2.capOutput n) := rfl
  by_cases hread : s.syntaxReports source = []
  · rw [run_eq_runProgram hread, run_eq_runProgram (hreports.trans hread), hparse]
    have hne : (s.interpreter.resolve (s.parse source).program).1 ≠ [] := by
      intro hnil
      rw [accepts_of_resolve hread (Prod.ext hnil rfl)] at h
      cases h
    rw [runProgram_of_errors rfl hne]
    exact runProgram_of_errors hresolve hne budget
  · rw [run_of_syntaxReports hread, run_of_syntaxReports (hreports ▸ hread), hparse, hreports]
    rfl

/-- The end of an accepted source does not hang on the budget. -/
theorem run_det_of_accepts (h : s.accepts source = true) {b b' : Nat} {r r' : Run}
    (hr : s.run b source = some r) (hr' : s.run b' source = some r') : r = r' := by
  rw [run_of_accepts h] at hr hr'
  obtain ⟨e, he, rfl⟩ := Option.map_eq_some_iff.mp hr
  obtain ⟨e', he', rfl⟩ := Option.map_eq_some_iff.mp hr'
  rw [Interpreter.interpret_det he he']

/-- A session in which nothing has run, with an output that takes nothing more after some lines. -/
def fresh (natives : List Native) (maxCallDepth : Nat) (clock : Nat → Float) (flushFails : Bool)
    (limit : Option Nat) : Session :=
  .new (.new natives ⟨"", 0, limit, flushFails⟩ maxCallDepth clock)

/-- **An output that refuses cuts runs off and changes nothing else.** Run a source with an output
that takes everything, and with one that takes nothing more after `n` lines. If the first run ends,
so does the second, and what it has written is the beginning of what the first one writes. If the
first run writes nothing after `n` lines, both end alike with the same reports. If it does, the
second fails with the refusal as its only report, at a print to which both runs come: it has written
what was written before the refused piece, and nothing that comes later takes effect. -/
theorem refusing_output_cuts_off (natives : List Native) (maxCallDepth : Nat) (clock : Nat → Float)
    (flushFails : Bool) (n : Nat) (source : List UInt8) {budget : Nat} {r : Run}
    (hr : (fresh natives maxCallDepth clock flushFails none).run budget source = some r) :
    ∃ budget' r',
      (fresh natives maxCallDepth clock flushFails (some n)).run budget' source = some r' ∧
      (∃ more, r.session.interpreter.output.text = r'.session.interpreter.output.text ++ more) ∧
      ((∀ m, (fresh natives maxCallDepth clock flushFails none).Passes source m →
          ¬ m.WritesPast n) →
        r'.outcome = r.outcome ∧ r'.reports = r.reports ∧ r'.session = r.session.capOutput n) ∧
      ((∃ m, (fresh natives maxCallDepth clock flushFails none).Passes source m ∧ m.WritesPast n) →
        r'.outcome = .runtimeError ∧ r'.reports = [.io "write refused"] ∧
        ∃ m, (fresh natives maxCallDepth clock flushFails none).Passes source m ∧
          (fresh natives maxCallDepth clock flushFails (some n)).Passes source
            (m.mapState (Interpreter.capOutput n)) ∧
          m.WritesAfter r'.session.interpreter.output.text ∧
          n ≤ Output.lineEnds r'.session.interpreter.output.text ∧
          r'.session.interpreter.store = m.state.store ∧
          r'.session.interpreter.readings = m.state.readings) := by
  generalize hs : fresh natives maxCallDepth clock flushFails none = s at hr ⊢
  have hcap : fresh natives maxCallDepth clock flushFails (some n) =
      s.capOutput n := by rw [← hs]; rfl
  have hopen : (s.interpreter.resolve (s.parse source).program).2.output.Open := by
    rw [← hs]
    exact ⟨rfl, Output.lineEnds_empty.symm⟩
  rw [hcap]
  cases haccepts : s.accepts source with
  | false =>
    refine ⟨budget,
      ⟨r.outcome, r.reports,
      r.session.capOutput
      n⟩, by rw [run_capOutput_of_refused haccepts, hr]; rfl, ⟨"", String.append_empty.symm⟩,
      fun _ => ⟨rfl, rfl, rfl⟩, ?_⟩
    rintro ⟨m, ⟨haccepts', -⟩, -⟩
    rw [haccepts] at haccepts'
    cases haccepts'
  | true =>
    have haccepts' : (s.capOutput n).accepts source = true := haccepts
    rw [run_of_accepts haccepts] at hr
    obtain ⟨r₁, hrun, rfl⟩ := Option.map_eq_some_iff.mp hr
    by_cases hmany : ∃ m, s.Passes source m ∧ m.WritesPast n
    · obtain ⟨m, hm, hpast⟩ := hmany
      obtain ⟨m₁, b, st', hm₁, hm₁', hb, hafter, hlines, hstore, hreadings⟩ :=
        Interpreter.interpret_capOutput_refused hopen hm.2 hpast
      refine ⟨b, _, by rw [run_of_accepts haccepts']; exact congrArg (Option.map _) hb, ?_, ?_, ?_⟩
      · obtain ⟨more, hmore⟩ := hm₁.before_of_writesAfter hopen hafter hrun
        refine ⟨more, ?_⟩
        rw [interpreter_ended, interpreter_ended]
        exact hmore
      · exact fun hfew => absurd hpast (hfew m hm)
      · exact fun _ =>
          ⟨rfl, rfl, m₁, ⟨haccepts, hm₁⟩, ⟨haccepts', hm₁'⟩, hafter, hlines, hstore, hreadings⟩
    · have hfew : ∀ m, s.Passes source m → ¬ m.WritesPast n :=
        fun m hm hpast => hmany ⟨m, hm, hpast⟩
      have hsame := Interpreter.interpret_capOutput hopen (fun m hm => hfew m ⟨haccepts, hm⟩) budget
      rw [hrun] at hsame
      refine ⟨budget,
        _, by rw [run_of_accepts haccepts']; exact congrArg (Option.map _) hsame, ?_, ?_, ?_⟩
      · refine ⟨"", ?_⟩
        rw [String.append_empty, interpreter_ended, interpreter_ended]
        rfl
      · intro _
        rcases r₁ with ⟨_ | _, _⟩ <;> exact ⟨rfl, rfl, rfl⟩
      · exact fun h => absurd h hmany

/-- The source of a function that prints a text of two lines, a call of it, and another print. -/
def twoLines : List UInt8 :=
  "fun f() \x7b print \"one\ntwo\"; \x7d f(); print \"three\";".toUTF8.toList

/-- Of the print in the call the text is taken, since it comes before the end of the first line, and
the end of the second line is refused. -/
theorem twoLines_cut_off : ∃ r r', (fresh [] 9 (fun _ => 0) false none).run 60 twoLines = some r ∧
    r.session.interpreter.output.text = "one\ntwo\nthree\n" ∧
    (fresh [] 9 (fun _ => 0) false (some 1)).run 60 twoLines = some r' ∧
    (∃ m, (fresh [] 9 (fun _ => 0) false none).Passes twoLines m ∧ m.WritesPast 1) ∧
    r'.reports = [.io "write refused"] ∧ r'.session.interpreter.output.text = "one\ntwo" ∧
    ∃ m, (fresh [] 9 (fun _ => 0) false none).Passes twoLines m ∧ m.WritesAfter "one\ntwo" := by
  have hfirst : ((fresh [] 9 (fun _ => 0) false none).run 60 twoLines).map
      (fun r => (r.outcome, r.session.interpreter.output.text)) =
      some (.success, "one\ntwo\nthree\n") := by
    rw [show twoLines = _ from Utf8.encode_eq _]
    cbv
  have hsecond : ((fresh [] 9 (fun _ => 0) false (some 1)).run 60 twoLines).map
      (fun r => (r.outcome, r.session.interpreter.output.text)) =
      some (.runtimeError, "one\ntwo") := by
    rw [show twoLines = _ from Utf8.encode_eq _]
    cbv
  obtain ⟨r, hr, heq⟩ := Option.map_eq_some_iff.mp hfirst
  obtain ⟨r', hr', heq'⟩ := Option.map_eq_some_iff.mp hsecond
  simp only [Prod.mk.injEq] at heq heq'
  obtain ⟨budget, r₂, hr₂, -, hfew, hmany⟩ :=
    refusing_output_cuts_off [] 9 (fun _ => 0) false 1 twoLines hr
  obtain rfl := run_det_of_accepts (by decide +kernel) hr' hr₂
  have hpast : ∃ m, (fresh [] 9 (fun _ => 0) false none).Passes twoLines m ∧ m.WritesPast 1 := by
    by_contra hnone
    have houtcome := (hfew fun m hm hpast => hnone ⟨m, hm, hpast⟩).1
    rw [heq.1, heq'.1] at houtcome
    cases houtcome
  obtain ⟨-, hreports, m, hm, -, hafter, -⟩ := hmany hpast
  exact ⟨r, r', hr, heq.2, hr', hpast, hreports, heq'.2, m, hm, heq'.2 ▸ hafter⟩

end Session

end Lox
