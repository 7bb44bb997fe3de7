import Lox.Proofs.Limits.Cut

/-!
# Frames below

A machine looks at its uppermost frame only, so more frames below its own change nothing until it
has a result (`Machine.step_onto`). What an expression comes to on its own is then what it comes to
inside a statement, and printing an expression is evaluating it and writing its value
(`Interpreter.executeAll_print_iff`).
-/

namespace Lox

variable {m : Machine}

namespace Machine

/-- The machine with more frames below its own. -/
def onto (m : Machine) (below : List Frame) : Machine :=
  ⟨m.control, m.frames ++ below, m.state⟩

variable {frames below : List Frame} {frame : Frame} {st : Interpreter} {callee v : Value}
  {paren : Token} {arguments done : List Value} {todo : List Expr} {e : Expr} {s : Stmt} {f : Flow}

/-! ## One step -/

theorem give_onto (r : Except Fault Value × Interpreter) (frames : List Frame) :
    give r (frames ++ below) = (give r frames).onto below := by
  obtain ⟨_ | _, _⟩ := r <;> rfl

theorem finish_onto (r : Except Fault Unit × Interpreter) :
    finish r (frames ++ below) = (finish r frames).onto below := by
  obtain ⟨_ | _, _⟩ := r <;> rfl

theorem enterClosure_onto (c : Closure) (frames : List Frame) :
    enterClosure c arguments (frames ++ below) st =
      (enterClosure c arguments frames st).onto below := by
  unfold enterClosure
  cases c.isInitializer <;> rfl

theorem instantiate_onto (c : Class) (frames : List Frame) :
    instantiate c arguments (frames ++ below) st =
      (instantiate c arguments frames st).onto below := by
  unfold instantiate
  cases c.findMethod? "init" with
  | none => rfl
  | some method => exact enterClosure_onto _ (.construct ⟨st.store.nextObject, c⟩ :: frames)

theorem call_onto :
    call callee paren arguments (frames ++ below) st =
      (call callee paren arguments frames st).onto below := by
  unfold call
  split
  · rfl
  split
  · rfl
  split
  · rfl
  unfold startCall
  cases callee with
  | native n => exact give_onto _ (.endCall :: frames)
  | closure c => exact enterClosure_onto c (.endCall :: frames)
  | cls c => exact instantiate_onto c (.endCall :: frames)
  | _ => rfl

theorem stepArguments_onto : stepArguments callee paren done todo (frames ++ below) st =
      (stepArguments callee paren done todo frames st).onto below := by
  cases todo with
  | nil => exact call_onto
  | cons e rest => rfl

/-- Starting an expression does not look at the frames. -/
theorem stepEval_onto : stepEval e (frames ++ below) st = (stepEval e frames st).onto below := by
  cases e with
  | «variable» id name => exact give_onto _ frames
  | thisRef id word => exact give_onto _ frames
  | superRef id word method => exact give_onto _ frames
  | _ => rfl

/-- Starting a statement does not look at the frames. -/
theorem stepExec_onto : stepExec s (frames ++ below) st = (stepExec s frames st).onto below := by
  cases s with
  | var name value => cases value <;> rfl
  | returnWith word value => cases value <;> rfl
  | classDef name superclass methods =>
    cases superclass with
    | none => exact finish_onto _
    | some e => rfl
  | _ => rfl

/-- A value is taken by the top frame alone. -/
theorem stepValue_onto :
    stepValue v frame (frames ++ below) st = (stepValue v frame frames st).onto below := by
  cases frame with
  | unary operator => exact give_onto _ frames
  | binaryRight left operator => exact give_onto _ frames
  | logical operator right =>
    simp only [stepValue]
    split <;> rfl
  | assign id name => exact give_onto _ frames
  | callee paren arguments => exact stepArguments_onto
  | argument callee paren done todo => exact stepArguments_onto
  | get name =>
    cases v with
    | object o => exact give_onto _ frames
    | _ => rfl
  | setObject name value => cases v <;> rfl
  | print => exact finish_onto _
  | branch thenBranch elseBranch =>
    simp only [stepValue]
    split
    · rfl
    · cases elseBranch <;> rfl
  | loopTest condition body =>
    simp only [stepValue]
    split <;> rfl
  | superclass name line methods =>
    cases v with
    | cls c => exact finish_onto _
    | _ => rfl
  | _ => rfl

/-- The end of a statement is taken by the top frame alone. -/
theorem stepFlow_onto :
    stepFlow f frame (frames ++ below) st = (stepFlow f frame frames st).onto below := by
  cases frame with
  | sequence rest => cases f <;> cases rest <;> rfl
  | loopBody condition body => cases f <;> rfl
  | initializer c => exact give_onto _ frames
  | _ => rfl

/-- **A machine without a result does not look at the frames below its own.** -/
theorem step_onto (h : m.isDone = false) (below : List Frame) :
    (m.onto below).step = m.step.onto below := by
  obtain ⟨control, frames, st⟩ := m
  cases control with
  | eval e => exact stepEval_onto
  | exec s => exact stepExec_onto
  | value v =>
    cases frames with
    | nil => cases h
    | cons frame frames => exact stepValue_onto
  | flow f =>
    cases frames with
    | nil => cases h
    | cons frame frames => exact stepFlow_onto
  | fault f =>
    cases frames with
    | nil => cases h
    | cons frame frames => cases frame <;> rfl

/-! ## Runs -/

theorem isDone_onto (h : m.isDone = false) (below : List Frame) :
    (m.onto below).isDone = false := by
  obtain ⟨control, frames, st⟩ := m
  cases control with
  | eval e => rfl
  | exec s => rfl
  | _ =>
    cases frames with
    | nil => cases h
    | cons frame frames => rfl

/-- As long as a machine has no result, it takes the same steps with frames below. -/
theorem run_onto {k : Nat} (h : (run k m).isDone = false) (below : List Frame) :
    run k (m.onto below) = (run k m).onto below := by
  induction k generalizing m with
  | zero => rfl
  | succ k ih =>
    rw [run] at h ⊢
    split at h
    · next hdone => exact absurd hdone (by rw [h]; exact Bool.false_ne_true)
    · next hbusy =>
      have hbusy := Bool.eq_false_iff.mpr hbusy
      rw [run, hbusy, isDone_onto hbusy below, step_onto hbusy below]
      exact ih h

/-- Whatever a machine comes to, it comes to with frames below. -/
theorem exists_run_onto (k : Nat) (m : Machine) (below : List Frame) :
    ∃ j, run j (m.onto below) = (run k m).onto below := by
  induction k generalizing m with
  | zero => exact ⟨0, rfl⟩
  | succ k ih =>
    rw [run]
    split
    · exact ⟨0, rfl⟩
    · next hbusy =>
      have hbusy := Bool.eq_false_iff.mpr hbusy
      obtain ⟨j, hj⟩ := ih m.step
      refine ⟨j + 1, ?_⟩
      rw [run, isDone_onto hbusy below, step_onto hbusy below]
      exact hj

theorem isDone_of_result? {r : Except Fault Value × Interpreter} (h : m.result? = some r) :
    m.isDone = true := by
  obtain ⟨control, frames, st⟩ := m
  cases frames with
  | nil => cases control <;> first | rfl | cases h
  | cons frame frames => cases control <;> cases h

theorem exists_result? (h : m.isDone = true) : ∃ r, m.result? = some r := by
  obtain ⟨control, frames, st⟩ := m
  cases frames with
  | nil => cases control <;> first | exact ⟨_, rfl⟩ | cases h
  | cons frame frames => cases control <;> cases h

end Machine

/-! ## Printing an expression -/

namespace Interpreter

open Machine (finish)

variable {st : Interpreter} {e : Expr} {budget : Nat} {r : Except Fault Value × Interpreter}
  {r' : Except Fault Unit × Interpreter}

/-- What comes of printing what an expression came to. -/
def printResult : Except Fault Value × Interpreter → Except Fault Unit × Interpreter
  | (.ok v, st) => st.print v
  | (.error f, st) => (.error f, st)

/-- Two budgets that are large enough give one value. -/
theorem evaluate_det {b b' : Nat} {r' : Except Fault Value × Interpreter}
    (h : st.evaluate b e = some r) (h' : st.evaluate b' e = some r') : r = r' := by
  have hrun := Machine.run_eq_of_isDone (Machine.isDone_of_result? h) (Machine.isDone_of_result? h')
  rw [evaluate, hrun] at h
  exact Option.some.inj (h.symm.trans h')

theorem run_onto_print (h : m.result? = some r) :
    Machine.run 2 (m.onto [.print]) = finish (printResult r) [] := by
  have hstay (x : Except Fault Unit × Interpreter) : Machine.run 1 (finish x []) = finish x [] :=
    Machine.run_of_isDone (by obtain ⟨_ | _, _⟩ := x <;> rfl) 1
  obtain ⟨control, frames, st⟩ := m
  cases frames with
  | nil =>
    cases control with
    | value v =>
      cases h
      exact hstay (st.print v)
    | flow f =>
      cases h
      rfl
    | fault f =>
      cases h
      rfl
    | _ => cases h
  | cons frame frames => cases control <;> cases h

theorem executeAll_singleton {s : Stmt} (h : Machine.run budget ⟨.exec s, [], st⟩ = finish r' []) :
    st.executeAll budget [s] = some r' := by
  rw [executeAll, execute, h]
  obtain ⟨_ | _, _⟩ := r' <;> rfl

/-- An expression that comes to something is printed. -/
theorem exists_executeAll_print (h : st.evaluate budget e = some r) :
    ∃ budget', st.executeAll budget' [.print e] = some (printResult r) := by
  obtain ⟨j, hj⟩ := Machine.exists_run_onto budget ⟨.eval e, [], st⟩ [.print]
  refine ⟨1 + (j + 2), executeAll_singleton ?_⟩
  rw [Machine.run_add, Machine.run_add]
  show Machine.run 2 (Machine.run j (Machine.onto ⟨.eval e, [], st⟩ [.print])) = _
  rw [hj]
  exact run_onto_print h

/-- An expression that is printed comes to something. -/
theorem exists_evaluate_of_print (h : st.executeAll budget [.print e] = some r') :
    ∃ budget' r, st.evaluate budget' e = some r := by
  have hdone : (Machine.run budget ⟨.exec (.print e), [], st⟩).isDone = true := by
    rw [executeAll] at h
    split at h
    · next hs => exact Machine.isDone_of_ending? hs
    · next hs => exact Machine.isDone_of_ending? hs
    · cases h
  cases budget with
  | zero => cases hdone
  | succ budget =>
    have hinner : (Machine.run budget ⟨.eval e, [], st⟩).isDone = true := by
      by_contra hbusy
      have hbusy := Bool.eq_false_iff.mpr hbusy
      have hrun : (Machine.run budget (Machine.onto ⟨.eval e, [], st⟩ [.print])).isDone = true :=
        hdone
      rw [Machine.run_onto hbusy, Machine.isDone_onto hbusy] at hrun
      cases hrun
    obtain ⟨r, hr⟩ := Machine.exists_result? hinner
    exact ⟨budget, r, hr⟩

/-- **Printing an expression is evaluating it and writing its value.** -/
theorem executeAll_print_iff : (∃ budget, st.executeAll budget [.print e] = some r') ↔
    ∃ budget r, st.evaluate budget e = some r ∧ printResult r = r' := by
  constructor
  · rintro ⟨budget, h⟩
    obtain ⟨b, r, hr⟩ := exists_evaluate_of_print h
    obtain ⟨b', hb'⟩ := exists_executeAll_print hr
    exact ⟨b, r, hr, executeAll_det hb' h⟩
  · rintro ⟨budget, r, hr, rfl⟩
    exact exists_executeAll_print hr

end Interpreter

end Lox
