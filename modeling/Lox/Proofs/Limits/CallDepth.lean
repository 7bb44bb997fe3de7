import Lox.Proofs.Limits.Cut

/-!
# The bound on calls cuts runs off

How many calls may go on at once decides nothing but where a run ends: with a larger bound a program
does the same, unless a call was refused, and then it has done the same up to that call
(`Interpreter.bound_on_calls_cuts_off`).

A call is refused where a machine is about to make one that is fine but for the number of calls
(`Machine.RefusesCall`), and there is no other way for a program to end with the fault that its
calls are too many (`Machine.step_overflows`).
-/

namespace Lox

variable {line : Nat}

/-! ## Where the fault comes from -/

/-- The fault that too many calls go on. -/
def Fault.IsOverflow : Fault → Prop
  | .runtime _ .stackOverflow => True
  | _ => False

/-- The result is the fault that too many calls go on. -/
def Overflows {α : Type} : Except Fault α → Prop
  | .error f => f.IsOverflow
  | .ok _ => False

theorem Operates.calm {r : Except Fault Value} (h : Operates line r) : ¬ Overflows r := by
  cases h with
  | value => exact id
  | fault f hf =>
    cases f with
    | stackOverflow => exact absurd rfl hf
    | _ => exact id

namespace Interpreter

variable {st : Interpreter} {id : NodeId} {name word method : Token} {v : Value} {object : Object}

theorem found_calm {name : String} {v : Option Value} : ¬ Overflows (found name line v) := by
  cases v <;> exact id

/-- An assignment makes no call. -/
theorem assign_calm : ¬ Overflows (st.assign id name v).1 := by
  unfold assign
  split <;> exact fun h => h

theorem bindFound_calm {method : Option Closure} :
    ¬ Overflows (st.bindFound object name method).1 := by
  cases method <;> exact id

/-- Reading a property makes no call. -/
theorem property_calm : ¬ Overflows (st.property object name).1 := by
  unfold property
  split
  · exact id
  · exact bindFound_calm

theorem superBinding_calm : ¬ Overflows (st.superBinding id word) := by
  unfold superBinding
  split
  · exact fun h => h
  · split <;> exact fun h => h

theorem superMethod_calm : ¬ Overflows (st.superMethod id word method).1 := by
  have hbinding := @superBinding_calm st id word
  unfold superMethod
  split
  · exact bindFound_calm
  · next hf =>
    rw [hf] at hbinding
    exact hbinding

theorem defineClass_calm {superclass : Option Class} {methods : List FunctionDecl} :
    ¬ Overflows (st.defineClass name superclass methods).1 := by
  unfold defineClass
  dsimp only
  split <;> exact id

theorem print_calm : ¬ Overflows (st.print v).1 := by
  unfold print
  dsimp only
  split <;> exact id

end Interpreter

namespace Machine

variable {m : Machine} {frames : List Frame} {frame : Frame} {st : Interpreter} {callee v : Value}
  {paren : Token} {arguments : List Value} {e : Expr} {s : Stmt} {f : Flow}

/-- The machine hands on the fault that too many calls go on. -/
def Overflowing (m : Machine) : Prop :=
  ∃ line, m.control = .fault (.runtime line .stackOverflow)

theorem give_calm {r : Except Fault Value × Interpreter} (h : ¬ Overflows r.1) :
    ¬ (give r frames).Overflowing := by
  obtain ⟨f | v, st⟩ := r
  · rintro ⟨line, heq⟩
    cases heq
    exact h trivial
  · rintro ⟨line, heq⟩
    cases heq

theorem finish_calm {r : Except Fault Unit × Interpreter} (h : ¬ Overflows r.1) :
    ¬ (finish r frames).Overflowing := by
  obtain ⟨f | v, st⟩ := r
  · rintro ⟨line, heq⟩
    cases heq
    exact h trivial
  · rintro ⟨line, heq⟩
    cases heq

/-- Starting an expression does not overflow. -/
theorem stepEval_calm : ¬ (stepEval e frames st).Overflowing := by
  cases e with
  | «variable» id name => exact give_calm Interpreter.found_calm
  | thisRef id word => exact give_calm Interpreter.found_calm
  | superRef id word method => exact give_calm Interpreter.superMethod_calm
  | _ => rintro ⟨line, heq⟩; cases heq

/-- Starting a statement does not overflow. -/
theorem stepExec_calm : ¬ (stepExec s frames st).Overflowing := by
  cases s with
  | var name initializer => cases initializer <;> (rintro ⟨line, heq⟩; cases heq)
  | returnWith word value => cases value <;> (rintro ⟨line, heq⟩; cases heq)
  | classDef name superclass methods =>
    cases superclass with
    | none => exact finish_calm Interpreter.defineClass_calm
    | some e => rintro ⟨line, heq⟩; cases heq
  | _ => rintro ⟨line, heq⟩; cases heq

theorem startCall_calm : ¬ (startCall callee paren arguments frames st).Overflowing := by
  cases callee with
  | native n => exact give_calm (callNative_operates n paren arguments _).calm
  | cls c =>
    simp only [startCall, instantiate]
    cases c.findMethod? "init" <;> (rintro ⟨line, heq⟩; cases heq)
  | _ => rintro ⟨line, heq⟩; cases heq

/-- A call overflows only if the count of its arguments is right and the limit is reached. -/
theorem call_overflows (h : (call callee paren arguments frames st).Overflowing) :
    arity? callee = some arguments.length ∧ st.maxCallDepth ≤ st.callDepth := by
  unfold call at h
  split at h
  · obtain ⟨line, heq⟩ := h
    cases heq
  · next n harity =>
    split at h
    · obtain ⟨line, heq⟩ := h
      cases heq
    · next hn =>
      split at h
      · next hdepth => exact ⟨by rw [harity, not_not.mp hn], hdepth⟩
      · exact absurd h startCall_calm

/-- A value makes the machine overflow only where a call is refused. -/
theorem stepValue_overflows (h : (stepValue v frame frames st).Overflowing) :
    RefusesCall ⟨.value v, frame :: frames, st⟩ := by
  cases frame with
  | unary operator => exact absurd h (give_calm (Value.unary_operates operator v).calm)
  | binaryRight left operator =>
    exact absurd h (give_calm (Value.binary_operates left operator v).calm)
  | assign id name => exact absurd h (give_calm Interpreter.assign_calm)
  | callee paren arguments =>
    cases arguments with
    | nil => exact ⟨_, _, rfl, call_overflows h⟩
    | cons e rest =>
      obtain ⟨line, heq⟩ := h
      cases heq
  | argument callee paren done todo =>
    cases todo with
    | nil => exact ⟨_, _, rfl, call_overflows h⟩
    | cons e rest =>
      obtain ⟨line, heq⟩ := h
      cases heq
  | get name =>
    cases v with
    | object object => exact absurd h (give_calm Interpreter.property_calm)
    | _ =>
      obtain ⟨line, heq⟩ := h
      cases heq
  | print => exact absurd h (finish_calm Interpreter.print_calm)
  | superclass name line methods =>
    cases v with
    | cls c => exact absurd h (finish_calm Interpreter.defineClass_calm)
    | _ =>
      obtain ⟨line, heq⟩ := h
      cases heq
  | setObject name value =>
    obtain ⟨line, heq⟩ := h
    cases v <;> cases heq
  | logical operator right =>
    obtain ⟨line, heq⟩ := h
    simp only [stepValue] at heq
    split at heq <;> cases heq
  | branch thenBranch elseBranch =>
    obtain ⟨line, heq⟩ := h
    simp only [stepValue] at heq
    split at heq
    · cases heq
    · cases elseBranch <;> cases heq
  | loopTest condition body =>
    obtain ⟨line, heq⟩ := h
    simp only [stepValue] at heq
    split at heq <;> cases heq
  | _ =>
    obtain ⟨line, heq⟩ := h
    cases heq

theorem stepFlow_calm : ¬ (stepFlow f frame frames st).Overflowing := by
  cases frame with
  | sequence rest => cases f <;> cases rest <;> (rintro ⟨line, heq⟩; cases heq)
  | loopBody condition body => cases f <;> (rintro ⟨line, heq⟩; cases heq)
  | initializer c => exact give_calm Interpreter.found_calm
  | _ => rintro ⟨line, heq⟩; cases heq

/-- The fault that too many calls go on comes from a call that was refused. -/
theorem step_overflows (h : m.step.Overflowing) : m.Overflowing ∨ m.RefusesCall := by
  obtain ⟨control, frames, st⟩ := m
  cases control with
  | eval e => exact absurd h stepEval_calm
  | exec s => exact absurd h stepExec_calm
  | value v =>
    cases frames with
    | nil => exact .inl h
    | cons frame frames => exact .inr (stepValue_overflows h)
  | flow f =>
    cases frames with
    | nil => exact .inl h
    | cons frame frames => exact absurd h stepFlow_calm
  | fault f =>
    cases frames with
    | nil => exact .inl h
    | cons frame frames =>
      obtain ⟨line, heq⟩ := h
      rw [step, stepFault_eq] at heq
      exact .inl ⟨line, heq⟩

theorem run_overflows {budget : Nat} (h : (run budget m).Overflowing) :
    m.Overflowing ∨ ∃ k, (run k m).RefusesCall := by
  induction budget generalizing m with
  | zero => exact .inl h
  | succ budget ih =>
    rw [run] at h
    split at h
    · exact .inl h
    · next hbusy =>
      rcases ih h with hnext | ⟨k, hk⟩
      · rcases step_overflows hnext with hm | hm
        · exact .inl hm
        · exact .inr ⟨0, hm⟩
      · refine .inr ⟨k + 1, ?_⟩
        rwa [run, if_neg hbusy]

/-- A refused call is a step that fails. -/
theorem step_of_refusesCall (h : m.RefusesCall) :
    ∃ line frames, m.step = ⟨.fault (.runtime line .stackOverflow), frames, m.state⟩ := by
  obtain ⟨control, frames, st⟩ := m
  obtain ⟨callee, arguments, hcalls, harity, hdepth⟩ := h
  have hcall (paren : Token) (frames : List Frame) : call callee paren arguments frames st =
      ⟨.fault (.runtime paren.line .stackOverflow), frames, st⟩ := by
    unfold call
    simp only [harity]
    rw [if_neg (not_not.mpr rfl), if_pos hdepth]
  simp only [calls?] at hcalls
  split at hcalls
  · cases hcalls
    exact ⟨_, _, hcall _ _⟩
  · cases hcalls
    exact ⟨_, _, hcall _ _⟩
  · cases hcalls

theorem isDone_of_refusesCall (h : m.RefusesCall) : m.isDone = false := by
  obtain ⟨control, frames, st⟩ := m
  obtain ⟨callee, arguments, hcalls, -⟩ := h
  cases control with
  | value v =>
    cases frames with
    | nil => cases hcalls
    | cons frame frames => rfl
  | _ => cases hcalls

end Machine

/-! ## The smaller bound -/

namespace Interpreter

open Machine (Stricter mapState)

/-- The interpreter with a bound on calls that is no larger than `n`. -/
def capCalls (n : Nat) (st : Interpreter) : Interpreter :=
  { st with maxCallDepth := min n st.maxCallDepth }

/-- Some call of a program is refused. -/
def RefusesCall (st : Interpreter) (program : List Stmt) : Prop :=
  ∃ m, st.Passes program m ∧ m.RefusesCall

theorem capCalls_stricter (n : Nat) :
    Stricter (capCalls n) fun m => (m.mapState (capCalls n)).RefusesCall := by
  intro m huncut
  cases hprint : m.prints? with
  | some v =>
    rw [Machine.step_of_prints? hprint,
      Machine.step_of_prints? (m := m.mapState (capCalls n)) hprint]
    exact Machine.finish_mapState (φ := capCalls n) (m.state.print v) m.frames.tail
  | none =>
    -- What is not refused under the smaller bound is not refused under the larger one.
    have hcalls : m.AgreesOnCalls m.state.output (min n m.state.maxCallDepth) := by
      refine iff_of_false huncut ?_
      rintro ⟨callee, arguments, hcalls, harity, hdepth⟩
      exact huncut ⟨callee, arguments, hcalls, harity, Nat.le_trans (Nat.min_le_right _ _) hdepth⟩
    have hstep : (m.mapState (capCalls n)).step =
        m.step.under m.state.output (min n m.state.maxCallDepth) :=
      Machine.step_under hprint hcalls
    obtain ⟨houtput, hbound⟩ := Machine.output_step hprint
    rw [hstep, ← houtput, ← hbound]
    rfl

variable {st st' : Interpreter} {program : List Stmt} {budget : Nat}

/-- Under the smaller bound a call is refused just if the run under the larger one comes to where it
is. -/
theorem refusesCall_capCalls (n : Nat) : (st.capCalls n).RefusesCall program ↔
    ∃ m, st.Passes program m ∧ (m.mapState (capCalls n)).RefusesCall := by
  constructor
  · rintro ⟨m', hm', hrefuses⟩
    by_contra hnone
    have huncut : ∀ m, st.Passes program m → ¬ (m.mapState (capCalls n)).RefusesCall :=
      fun m hm hcut => hnone ⟨m, hm, hcut⟩
    obtain ⟨m, hm, rfl⟩ := exists_of_uncut (capCalls_stricter n) huncut hm'
    exact huncut m hm hrefuses
  · rintro ⟨m, hm, hcut⟩
    obtain ⟨m, -, hcut, hm⟩ := exists_first_cut (capCalls_stricter n) hm hcut
    exact ⟨_, hm, hcut⟩

/-- If a call is refused, the program ends with an overflow. -/
theorem executeAll_of_refusesCall (h : st.RefusesCall program) :
    ∃ budget line st', st.executeAll budget program =
      some (.error (.runtime line .stackOverflow), st') := by
  obtain ⟨m, hm, hrefuses⟩ := h
  obtain ⟨line, frames, hstep⟩ := Machine.step_of_refusesCall hrefuses
  obtain ⟨b, hb⟩ := executeAll_of_fault hm (Machine.isDone_of_refusesCall hrefuses) hstep
  exact ⟨b, line, _, hb⟩

/-- A program ends with an overflow only if a call is refused. -/
theorem refusesCall_of_executeAll
    (h : st.executeAll budget program = some (.error (.runtime line .stackOverflow), st')) :
    st.RefusesCall program := by
  induction program generalizing st with
  | nil => cases h
  | cons s rest ih =>
    rw [executeAll] at h
    split at h
    · next hs =>
      obtain ⟨m, hm, hrefuses⟩ := ih h
      exact ⟨m, .later hs hm, hrefuses⟩
    · next hs =>
      cases h
      have hend : (Machine.run budget ⟨.exec s, [], st⟩).Overflowing := by
        revert hs
        unfold execute
        generalize Machine.run budget ⟨.exec s, [], st⟩ = m
        intro hs
        obtain ⟨control, frames, st₁⟩ := m
        cases control <;> cases frames <;> cases hs
        exact ⟨line, rfl⟩
      rcases Machine.run_overflows hend with ⟨_, heq⟩ | ⟨k, hk⟩
      · cases heq
      · exact ⟨_, .here k, hk⟩
    · cases h

theorem flush_calm (st : Interpreter) : ¬ Overflows st.flush := by
  unfold flush
  split <;> exact id

/-- A program ends with the fault that too many calls go on just if one was refused. -/
theorem refusesCall_iff {r : Except Fault Unit} (h : st.interpret budget program = some (r, st')) :
    st.RefusesCall program ↔ ∃ line, r = .error (.runtime line .stackOverflow) := by
  rw [interpret_eq] at h
  obtain ⟨⟨r₁, st₁⟩, hall, heq⟩ := Option.map_eq_some_iff.mp h
  obtain ⟨rfl, rfl⟩ := Prod.mk.inj heq
  constructor
  · intro hrefuses
    obtain ⟨b, line, st₂, hb⟩ := executeAll_of_refusesCall hrefuses
    cases executeAll_det hall hb
    exact ⟨line, rfl⟩
  · rintro ⟨line, heq⟩
    cases r₁ with
    | error f =>
      cases heq
      exact refusesCall_of_executeAll hall
    | ok u =>
      have hcalm := flush_calm st₁
      rw [show st₁.flush = _ from heq] at hcalm
      exact absurd trivial hcalm

/-- **The bound on calls only cuts runs off.** Take a program that ends under a bound, and a larger
bound. It ends with the fault that too many calls go on just if one of its calls was refused. If
none was, it ends in the same way under the larger bound, with the same output and in the same
state. If one was, what it has printed is the beginning of what it prints under the larger bound,
should it end there. -/
theorem bound_on_calls_cuts_off (st : Interpreter) (program : List Stmt) {n n' : Nat} (hle : n ≤ n')
    {budget : Nat} {r : Except Fault Unit} {st' : Interpreter}
    (h : ({ st with maxCallDepth := n } : Interpreter).interpret budget program = some (r, st')) :
    (({ st with maxCallDepth := n } : Interpreter).RefusesCall program ↔
      ∃ line, r = .error (.runtime line .stackOverflow)) ∧
    (¬ ({ st with maxCallDepth := n } : Interpreter).RefusesCall program →
      ({ st with maxCallDepth := n' } : Interpreter).interpret budget program =
        some (r, { st' with maxCallDepth := n' })) ∧
    (({ st with maxCallDepth := n } : Interpreter).RefusesCall program → ∀ budget' r' st'',
      ({ st with maxCallDepth := n' } : Interpreter).interpret budget' program = some (r', st'') →
      ∃ more, st''.output.text = st'.output.text ++ more) := by
  have hcap : ({ st with maxCallDepth := n } : Interpreter) =
      capCalls n { st with maxCallDepth := n' } := by
    rw [capCalls, Nat.min_eq_left hle]
  refine ⟨refusesCall_iff h, fun hrefuses => ?_, fun hrefuses budget' r' st'' h' => ?_⟩
  · rw [hcap, refusesCall_capCalls] at hrefuses
    rw [hcap, interpret_mapState (capCalls_stricter n) (fun _ => rfl) fun m hm hcut =>
      hrefuses ⟨m, hm, hcut⟩] at h
    obtain ⟨⟨r₁, st₁⟩, h₁, heq⟩ := Option.map_eq_some_iff.mp h
    obtain ⟨rfl, rfl⟩ := Prod.mk.inj heq
    have hbound : st₁.maxCallDepth = n' := (interpret_samePlace h₁).maxCallDepth
    rw [h₁, ← hbound]
    rfl
  · rw [hcap, refusesCall_capCalls] at hrefuses
    obtain ⟨m, hm, hcut⟩ := hrefuses
    obtain ⟨m, hm, hcut, hm'⟩ := exists_first_cut (capCalls_stricter n) hm hcut
    -- The run under the smaller bound ends there, with what was printed so far.
    obtain ⟨line, frames, hstep⟩ := Machine.step_of_refusesCall hcut
    obtain ⟨b, hb⟩ := executeAll_of_fault hm' (Machine.isDone_of_refusesCall hcut) hstep
    have hend := interpret_of_error hb
    rw [← hcap] at hend
    obtain ⟨-, rfl⟩ := Prod.mk.inj (interpret_det h hend)
    rw [Machine.unwind_eq]
    have hbefore := hm.before_interpret h'
    exact hbefore

/-- The program `fun dive() { print "deep"; dive(); } print "go"; dive();`, which never comes
back. -/
def dive : List Stmt :=
  (Parse.ofTokens (Scan.ofSource
    "fun dive() \x7b print \"deep\"; dive(); \x7d print \"go\"; dive();".toUTF8.toList).tokens
    0).program

/-- With one call at most it dives once, and with two it begins in the same way; without its last
statement no call is refused. -/
theorem dive_cut_off : ∃ st₁ st₂,
    (Interpreter.new [] .unlimited 1 fun _ => 0).interpret 40 dive =
      some (.error (.runtime 1 .stackOverflow), st₁) ∧
    (Interpreter.new [] .unlimited 1 fun _ => 0).RefusesCall dive ∧ st₁.output.text = "go\ndeep\n" ∧
    (∀ budget r' st'',
      (Interpreter.new [] .unlimited 2 fun _ => 0).interpret budget dive = some (r', st'') →
      ∃ more, st''.output.text = "go\ndeep\n" ++ more) ∧
    (Interpreter.new [] .unlimited 2 fun _ => 0).interpret 40 (dive.take 2) = some (.ok (), st₂) ∧
    st₂.output.text = "go\n" := by
  have hdive : ((Interpreter.new [] .unlimited 1 fun _ => 0).interpret 40 dive).map
      (fun r => (r.1, r.2.output.text)) =
      some (.error (.runtime 1 .stackOverflow), "go\ndeep\n") := by
    rw [dive, ← Utf8.encode, Utf8.encode_eq]
    cbv
  have hstart : ((Interpreter.new [] .unlimited 1 fun _ => 0).interpret 40 (dive.take 2)).map
      (fun r => (r.1, r.2.output.text)) = some (.ok (), "go\n") := by
    rw [dive, ← Utf8.encode, Utf8.encode_eq]
    cbv
  obtain ⟨⟨r, st₁⟩, hdive, heq⟩ := Option.map_eq_some_iff.mp hdive
  obtain ⟨⟨r', st₂⟩, hstart, heq'⟩ := Option.map_eq_some_iff.mp hstart
  simp only [Prod.mk.injEq] at heq heq'
  obtain ⟨rfl, htext⟩ := heq
  obtain ⟨rfl, htext'⟩ := heq'
  obtain ⟨hiff, -, hcut⟩ :=
    bound_on_calls_cuts_off (.new [] .unlimited 0 fun _ => 0) dive (Nat.le_succ 1) hdive
  obtain ⟨hiff', hsame, -⟩ :=
    bound_on_calls_cuts_off (.new [] .unlimited 0 fun _ => 0) (dive.take 2) (Nat.le_succ 1) hstart
  have hrefuses := hiff.mpr ⟨1, rfl⟩
  have hcalm := hsame fun hrefuses => by
    obtain ⟨line, heq⟩ := hiff'.mp hrefuses
    cases heq
  exact ⟨_, _, hdive, hrefuses, htext, htext ▸ hcut hrefuses, hcalm, htext'⟩

end Interpreter

end Lox
