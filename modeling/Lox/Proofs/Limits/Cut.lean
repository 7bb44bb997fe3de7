import Lox.Proofs.Limits.Lockstep

/-!
# Runs that are cut off

A stricter way to run a program takes the same steps until it fails where the other one goes on.
What is stricter is a change `φ` of the interpreter, and `Machine.Stricter φ Cut` says that the
changed machine takes the changed step, but for machines with `Cut`. Then a program either is never
cut, and both runs end alike (`Interpreter.executeAll_mapState`), or there is a first place where it
is cut, up to which both go side by side (`Interpreter.exists_first_cut`), and the stricter run ends
with the fault of that place (`Interpreter.executeAll_of_fault`).

What was written stays written (`Output.Before`), so what was written up to that place is the
beginning of what the other run writes.
-/

namespace Lox

variable {b b' : Nat} {f : Fault}

/-! ## What was written -/

namespace Output

theorem lineEnds_eq_count (s : String) : lineEnds s = s.toList.count '\n' := by
  have hfold (cs : List Char) (k : Nat) :
      cs.foldl (fun n c => if c = '\n' then n + 1 else n) k = k + cs.count '\n' := by
    induction cs generalizing k with
    | nil => rfl
    | cons c cs ih =>
      rw [List.foldl_cons, ih, List.count_cons]
      by_cases hc : c = '\n'
      · simp only [hc, if_true, beq_self_eq_true]
        omega
      · simp only [hc, if_false, beq_iff_eq]
        omega
  rw [lineEnds, String.foldl_eq_foldl_toList, hfold, Nat.zero_add]

theorem lineEnds_append (s t : String) : lineEnds (s ++ t) = lineEnds s + lineEnds t := by
  simp only [lineEnds_eq_count, String.toList_append, List.count_append]

theorem lineEnds_empty : lineEnds "" = 0 := by
  rw [lineEnds_eq_count]
  rfl

theorem append_empty (o : Output) : o.append "" = o := by
  have htext : o.text ++ "" = o.text := String.append_empty
  rw [append, htext, lineEnds_empty]
  rfl

theorem append_append (o : Output) (s t : String) : (o.append s).append t = o.append (s ++ t) := by
  simp only [append, lineEnds_append, String.append_assoc, Nat.add_assoc]

/-- An output without a limit takes all pieces. -/
theorem write_of_limit {o : Output} (h : o.limit = none) (pieces : List String) :
    o.write pieces = (o.append (String.join pieces), true) := by
  induction pieces generalizing o with
  | nil => exact congrArg (·, true) (append_empty o).symm
  | cons s rest ih =>
    rw [write]
    split
    · next hs => rw [ih h, String.isEmpty_iff.mp hs, String.join_cons, String.empty_append]
    · have hfull : o.isFull = false := by rw [isFull, h]
      have hnext : (o.append s).limit = none := h
      rw [hfull, if_neg Bool.false_ne_true, ih hnext, append_append, String.join_cons]

/-- What was written to the second output begins with what was written to the first. -/
def Before (o o' : Output) : Prop :=
  ∃ more, o'.text = o.text ++ more

namespace Before

variable {o o₁ o₂ : Output}

theorem refl (o : Output) : Before o o := ⟨"", String.append_empty.symm⟩

theorem trans (h : Before o o₁) (h' : Before o₁ o₂) : Before o o₂ := by
  obtain ⟨more, h⟩ := h
  obtain ⟨more', h'⟩ := h'
  exact ⟨more ++ more', by rw [h', h, String.append_assoc]⟩

end Before

/-- Writing only adds to the output. -/
theorem before_write (o : Output) (pieces : List String) : o.Before (o.write pieces).1 := by
  induction pieces generalizing o with
  | nil => exact .refl o
  | cons s rest ih =>
    rw [write]
    split
    · exact ih o
    · split
      · exact .refl o
      · exact .trans ⟨s, rfl⟩ (ih (o.append s))

end Output

namespace Machine

variable {m : Machine} {P : Output → Prop}

theorem state_finish (r : Except Fault Unit × Interpreter) (frames : List Frame) :
    (finish r frames).state = r.2 := by
  obtain ⟨_ | _, _⟩ := r <;> rfl

/-- What writing keeps true of an output, a step keeps true of it. -/
theorem output_kept_by_step (hwrite : ∀ o pieces, P o → P (o.write pieces).1)
    (h : P m.state.output) : P m.step.state.output := by
  cases hprint : m.prints? with
  | none => rwa [(output_step hprint).1]
  | some v =>
    rw [step_of_prints? hprint, state_finish]
    exact hwrite m.state.output _ h

/-- What writing keeps true of an output, a run keeps true of it. -/
theorem output_kept_by_run (hwrite : ∀ o pieces, P o → P (o.write pieces).1) (h : P m.state.output)
    (budget : Nat) : P (run budget m).state.output := by
  induction budget generalizing m with
  | zero => exact h
  | succ budget ih =>
    rw [run]
    split
    · exact h
    · exact ih (output_kept_by_step hwrite h)

theorem before_run (budget : Nat) (m : Machine) :
    m.state.output.Before (run budget m).state.output :=
  output_kept_by_run (fun o pieces h => h.trans (Output.before_write o pieces))
    (.refl m.state.output) budget

/-! ## Running on -/

/-- A long run is a run after a run. -/
theorem run_add (k l : Nat) (m : Machine) : run (k + l) m = run l (run k m) := by
  induction k generalizing m with
  | zero => rw [Nat.zero_add, run]
  | succ k ih =>
    rw [Nat.succ_add, run, run]
    split
    · next hdone => exact (run_of_isDone hdone l).symm
    · exact ih m.step

/-- Runs that have ended have ended alike. -/
theorem run_eq_of_isDone (h : (run b m).isDone = true) (h' : (run b' m).isDone = true) :
    run b m = run b' m := by
  rcases Nat.le_total b b' with hle | hle
  · exact (run_mono hle h).symm
  · exact run_mono hle h'

/-- Where a run has come to by the time it ends, nothing is unwritten. -/
theorem before_of_isDone (h : (run b m).isDone = true) (k : Nat) :
    (run k m).state.output.Before (run b m).state.output := by
  rcases Nat.le_total k b with hle | hle
  · obtain ⟨l, rfl⟩ := Nat.exists_eq_add_of_le hle
    rw [run_add]
    exact before_run l (run k m)
  · rw [run_mono hle h]
    exact .refl _

/-! ## Faults -/

theorem run_fault (f : Fault) (frames : List Frame) (st : Interpreter) :
    run frames.length ⟨.fault f, frames, st⟩ = ⟨.fault f, [], Frame.unwind frames st⟩ := by
  induction frames generalizing st with
  | nil => rfl
  | cons frame frames ih =>
    rw [List.length_cons, run, if_neg (by simp [isDone]), step, stepFault_eq]
    exact ih (frame.pop st)

/-- A run that fails somewhere ends with that fault. -/
theorem run_of_fault {k : Nat} {frames : List Frame} {st : Interpreter}
    (hbusy : (run k m).isDone = false) (hstep : (run k m).step = ⟨.fault f, frames, st⟩) :
    run (k + (1 + frames.length)) m = ⟨.fault f, [], Frame.unwind frames st⟩ := by
  rw [run_add, run_add, run, if_neg (by rw [hbusy]; exact Bool.false_ne_true), hstep, run]
  exact run_fault f frames st

/-! ## Stricter machines -/

/-- The machine with its interpreter changed. -/
def mapState (φ : Interpreter → Interpreter) (m : Machine) : Machine :=
  ⟨m.control, m.frames, φ m.state⟩

/-- A change after which a machine takes the same steps, but for those of machines with `Cut`. -/
def Stricter (φ : Interpreter → Interpreter) (Cut : Machine → Prop) : Prop :=
  ∀ m, ¬ Cut m → (m.mapState φ).step = m.step.mapState φ

variable {φ : Interpreter → Interpreter} {Cut : Machine → Prop}

theorem isDone_mapState (m : Machine) : (m.mapState φ).isDone = m.isDone := by
  obtain ⟨control, frames, st⟩ := m
  cases control <;> cases frames <;> rfl

theorem ending?_mapState (m : Machine) :
    (m.mapState φ).ending? = m.ending?.map fun e => (e.1, φ e.2) := by
  obtain ⟨control, frames, st⟩ := m
  cases control <;> cases frames <;> rfl

theorem finish_mapState (r : Except Fault Unit × Interpreter) (frames : List Frame) :
    finish (r.1, φ r.2) frames = (finish r frames).mapState φ := by
  obtain ⟨_ | _, _⟩ := r <;> rfl

/-- Up to the first cut both machines go side by side. -/
theorem Stricter.run (h : Stricter φ Cut) {k : Nat} (huncut : ∀ j < k, ¬ Cut (run j m)) :
    Machine.run k (m.mapState φ) = (Machine.run k m).mapState φ := by
  induction k generalizing m with
  | zero => rfl
  | succ k ih =>
    rw [Machine.run, Machine.run, isDone_mapState]
    split
    · rfl
    · next hdone =>
      have hstep : ¬ Cut m := huncut 0 (Nat.succ_pos k)
      rw [h m hstep]
      refine ih fun j hj => ?_
      have hnext := huncut (j + 1) (Nat.succ_lt_succ hj)
      rwa [Machine.run, if_neg hdone] at hnext

end Machine

/-! ## Programs -/

namespace Interpreter

open Machine (Stricter mapState)

variable {st : Interpreter} {program : List Stmt} {m : Machine} {budget : Nat} {s : Stmt}
  {r r' : Except Fault Unit × Interpreter} {e : Ending × Interpreter}

/-- Two budgets that are large enough give one ending. -/
theorem execute_det {e' : Ending × Interpreter} (h : st.execute b s = some e)
    (h' : st.execute b' s = some e') : e = e' := by
  rcases Nat.le_total b b' with hle | hle
  · exact Option.some.inj ((execute_mono hle h).symm.trans h')
  · exact Option.some.inj (h.symm.trans (execute_mono hle h'))

theorem executeAll_det (h : st.executeAll b program = some r)
    (h' : st.executeAll b' program = some r') : r = r' := by
  rcases Nat.le_total b b' with hle | hle
  · exact Option.some.inj ((executeAll_mono hle h).symm.trans h')
  · exact Option.some.inj (h.symm.trans (executeAll_mono hle h'))

theorem before_execute (h : st.execute budget s = some e) : st.output.Before e.2.output := by
  have hrun := Machine.before_run budget ⟨.exec s, [], st⟩
  rwa [(Machine.state_of_ending? h).2] at hrun

theorem before_executeAll (h : st.executeAll budget program = some r) :
    st.output.Before r.2.output := by
  induction program generalizing st with
  | nil =>
    cases h
    exact .refl _
  | cons s rest ih =>
    rw [executeAll] at h
    split at h
    · next hs => exact (before_execute hs).trans (ih h)
    · next hs =>
      cases h
      exact before_execute hs
    · cases h

/-- What was written by some moment of a program is the beginning of what it has written in the
end. -/
theorem Passes.before (hm : st.Passes program m) (h : st.executeAll budget program = some r) :
    m.state.output.Before r.2.output := by
  induction hm with
  | @here st s rest steps =>
    have hfirst {e : Ending × Interpreter} (hs : st.execute budget s = some e) :
        (Machine.run steps ⟨.exec s, [], st⟩).state.output.Before e.2.output := by
      have hrun := Machine.before_of_isDone (Machine.isDone_of_ending? hs) steps
      rwa [(Machine.state_of_ending? hs).2] at hrun
    rw [executeAll] at h
    split at h
    · next hs => exact (hfirst hs).trans (before_executeAll h)
    · next hs =>
      cases h
      exact hfirst hs
    · cases h
  | later hs _ ih =>
    rw [executeAll] at h
    split at h
    · next hs' =>
      cases execute_det hs hs'
      exact ih h
    · next hs' => cases execute_det hs hs'
    · cases h

/-- A program that fails at some moment ends with that fault. -/
theorem executeAll_of_fault (hm : st.Passes program m) (hbusy : m.isDone = false)
    {frames : List Frame} {st' : Interpreter} (hstep : m.step = ⟨.fault f, frames, st'⟩) :
    ∃ budget, st.executeAll budget program = some (.error f, Frame.unwind frames st') := by
  induction hm with
  | @here st s rest steps =>
    refine ⟨steps + (1 + frames.length), ?_⟩
    have hend : st.execute (steps + (1 + frames.length)) s =
        some (.error f, Frame.unwind frames st') := by
      rw [execute, Machine.run_of_fault hbusy hstep]
      rfl
    rw [executeAll, hend]
  | @later st st₁ s rest b flow m hs _ ih =>
    obtain ⟨b', hb'⟩ := ih hbusy hstep
    refine ⟨max b b', ?_⟩
    rw [executeAll, execute_mono (Nat.le_max_left b b') hs]
    exact executeAll_mono (Nat.le_max_right b b') hb'

variable {φ : Interpreter → Interpreter} {Cut : Machine → Prop}

theorem execute_mapState (h : Stricter φ Cut)
    (huncut : ∀ k, ¬ Cut (Machine.run k ⟨.exec s, [], st⟩)) (budget : Nat) :
    (φ st).execute budget s = (st.execute budget s).map fun e => (e.1, φ e.2) := by
  have hrun := h.run (m := ⟨.exec s, [], st⟩) (k := budget) fun j _ => huncut j
  rw [execute, execute, ← Machine.ending?_mapState, ← hrun]
  rfl

/-- **A program that is never cut ends alike.** -/
theorem executeAll_mapState (h : Stricter φ Cut) (huncut : ∀ m, st.Passes program m → ¬ Cut m)
    (budget : Nat) :
    (φ st).executeAll budget program = (st.executeAll budget program).map fun r =>
      (r.1, φ r.2) := by
  induction program generalizing st with
  | nil => rfl
  | cons s rest ih =>
    rw [executeAll, executeAll, execute_mapState h (fun k => huncut _ (.here k))]
    cases hs : st.execute budget s with
    | none => rfl
    | some e =>
      obtain ⟨ending, st'⟩ := e
      cases ending with
      | error f => rfl
      | ok flow => exact ih fun m hm => huncut m (.later hs hm)

/-- Flushing is all that comes after the statements. -/
theorem interpret_eq (budget : Nat) (st : Interpreter) (program : List Stmt) :
    st.interpret budget program = (st.executeAll budget program).map fun r =>
      (r.1.bind fun _ => r.2.flush, r.2) := by
  unfold interpret
  rcases st.executeAll budget program with _ | ⟨_ | _, _⟩ <;> rfl

/-- Two budgets that are large enough give one result. -/
theorem interpret_det (h : st.interpret b program = some r)
    (h' : st.interpret b' program = some r') : r = r' := by
  rcases Nat.le_total b b' with hle | hle
  · exact Option.some.inj ((interpret_mono hle h).symm.trans h')
  · exact Option.some.inj (h.symm.trans (interpret_mono hle h'))

theorem interpret_of_error {st' : Interpreter}
    (h : st.executeAll budget program = some (.error f, st')) :
    st.interpret budget program = some (.error f, st') := by
  rw [interpret_eq, h]
  rfl

theorem Passes.before_interpret (hm : st.Passes program m)
    (h : st.interpret budget program = some r) : m.state.output.Before r.2.output := by
  rw [interpret_eq] at h
  obtain ⟨r₁, hall, rfl⟩ := Option.map_eq_some_iff.mp h
  have hbefore := hm.before hall
  exact hbefore

theorem interpret_mapState (h : Stricter φ Cut)
    (hflush : ∀ st : Interpreter, (φ st).flush = st.flush)
    (huncut : ∀ m, st.Passes program m → ¬ Cut m) (budget : Nat) :
    (φ st).interpret budget program = (st.interpret budget program).map fun r => (r.1, φ r.2) := by
  rw [interpret_eq, interpret_eq, executeAll_mapState h huncut, Option.map_map, Option.map_map]
  refine congrArg (Option.map · _) (funext fun r => ?_)
  simp only [Function.comp, hflush]

/-- Of a program that is never cut, the stricter run goes through changed machines of the other. -/
theorem exists_of_uncut (h : Stricter φ Cut) (huncut : ∀ m, st.Passes program m → ¬ Cut m)
    {m' : Machine} (hm : (φ st).Passes program m') :
    ∃ m, st.Passes program m ∧ m' = m.mapState φ := by
  generalize hst : φ st = st' at hm
  induction hm generalizing st with
  | @here st' s rest steps =>
    subst hst
    exact ⟨_, .here steps, h.run fun j _ => huncut _ (.here j)⟩
  | @later st' st₁ s rest b flow m hs _ ih =>
    subst hst
    rw [execute_mapState h (fun k => huncut _ (.here k))] at hs
    obtain ⟨⟨ending, st₂⟩, hs', heq⟩ := Option.map_eq_some_iff.mp hs
    cases heq
    obtain ⟨m, hm, rfl⟩ := ih (fun m hm => huncut m (.later hs' hm)) rfl
    exact ⟨m, .later hs' hm, rfl⟩

/-- **Up to the first cut both runs go side by side.** -/
theorem exists_first_cut (h : Stricter φ Cut) (hm : st.Passes program m) (hcut : Cut m) :
    ∃ m, st.Passes program m ∧ Cut m ∧ (φ st).Passes program (m.mapState φ) := by
  -- If a statement is cut, then at a first number of steps.
  have hfirst {st : Interpreter} {s : Stmt} {rest : List Stmt}
      (hex : ∃ k, Cut (Machine.run k ⟨.exec s, [], st⟩)) :
      ∃ m, st.Passes (s :: rest) m ∧ Cut m ∧ (φ st).Passes (s :: rest) (m.mapState φ) := by
    classical
    refine ⟨_, .here (Nat.find hex), Nat.find_spec hex, ?_⟩
    rw [← h.run fun j hj => Nat.find_min hex hj]
    exact .here (Nat.find hex)
  induction hm with
  | here steps => exact hfirst ⟨steps, hcut⟩
  | @later st st₁ s rest b flow m hs _ ih =>
    by_cases hex : ∃ k, Cut (Machine.run k ⟨.exec s, [], st⟩)
    · exact hfirst hex
    · obtain ⟨m, hm, hcut, hm'⟩ := ih hcut
      have hs' : (φ st).execute b s = some (.ok flow, φ st₁) := by
        rw [execute_mapState h (fun k hk => hex ⟨k, hk⟩), hs]
        rfl
      exact ⟨m, .later hs hm, hcut, .later hs' hm'⟩

end Interpreter

end Lox
