import Lox.Proofs.Heap.Links
import Lox.Proofs.Lexical.Sessions
import Lox.Proofs.Limits.Cut

/-!
# What holds at every moment of a session

A property of machines and their pasts that every step keeps, and for which only the store counts
between two statements, holds at every moment of a session if it holds at the start
(`Session.MomentAfter.keeps`). And from every moment on, the machine goes through further moments of
the session (`Session.MomentAfter.onwards`).
-/

namespace Lox

variable {m : Machine}

/-! ## Steps and pauses -/

namespace Machine

/-- A property of machines, with those that have taken a step before them, that every step keeps,
and for which only the store counts before a statement and after it. -/
structure Lasting (I : List Machine → Machine → Prop) : Prop where
  step : ∀ past m, I past m → m.isDone = false → I (past ++ [m]) m.step
  pause : ∀ past m c st, I past m → Control.values c = [] → st.store = m.state.store →
    I past ⟨c, [], st⟩

/-- The steps of a long run are those of its two parts. -/
theorem taken_add (j k : Nat) (m : Machine) : taken (j + k) m = taken j m ++ taken k (run j m) := by
  induction j generalizing m with
  | zero => rw [Nat.zero_add]; rfl
  | succ j ih =>
    rw [Nat.succ_add, taken, taken, run]
    by_cases hdone : m.isDone = true
    · rw [if_pos hdone, if_pos hdone, if_pos hdone]
      cases k with
      | zero => rfl
      | succ k => rw [taken, if_pos hdone]; rfl
    · rw [if_neg hdone, if_neg hdone, if_neg hdone, ih m.step]
      rfl

variable {I : List Machine → Machine → Prop} {past : List Machine}

theorem Lasting.run (hI : Lasting I) (h : I past m) (k : Nat) :
    I (past ++ taken k m) (Machine.run k m) := by
  induction k generalizing m past with
  | zero =>
    rw [taken, List.append_nil]
    exact h
  | succ k ih =>
    rw [taken, Machine.run]
    by_cases hdone : m.isDone = true
    · rw [if_pos hdone, if_pos hdone, List.append_nil]
      exact h
    · rw [if_neg hdone, if_neg hdone, List.append_cons]
      exact ih (hI.step past m h (Bool.eq_false_iff.mpr hdone))

end Machine

/-! ## Programs -/

namespace Interpreter

open Machine (Lasting)

variable {I : List Machine → Machine → Prop} {past new : List Machine} {st : Interpreter}
  {budget : Nat} {program : List Stmt} {r : Except Fault Unit × Interpreter}

/-- A lasting property outlives a statement. -/
theorem execute_keeps (hI : Lasting I) (h : I past ⟨.flow .normal, [], st⟩) {s : Stmt}
    {e : Ending × Interpreter} (he : st.execute budget s = some e) :
    I (past ++ Machine.taken budget ⟨.exec s, [], st⟩) ⟨.flow .normal, [], e.2⟩ := by
  have hrun := hI.run (hI.pause past _ (.exec s) st h rfl rfl) budget
  refine hI.pause _ _ _ _ hrun rfl ?_
  rw [(Machine.state_of_ending? he).2]

theorem executeAll_keeps (hI : Lasting I) (h : I past ⟨.flow .normal, [], st⟩)
    (hr : st.executeAll budget program = some r) :
    I (past ++ st.taken budget program) ⟨.flow .normal, [], r.2⟩ := by
  induction program generalizing st past with
  | nil =>
    cases hr
    rw [taken, List.append_nil]
    exact h
  | cons s rest ih =>
    rw [executeAll] at hr
    rw [taken, ← List.append_assoc]
    split at hr
    · next he =>
      rw [he]
      exact ih (execute_keeps hI h he) hr
    · next he =>
      rw [he]
      cases hr
      rw [List.append_nil]
      exact execute_keeps hI h he
    · cases hr

theorem interpret_keeps (hI : Lasting I) (h : I past ⟨.flow .normal, [], st⟩)
    (hr : st.interpret budget program = some r) :
    I (past ++ st.taken budget program) ⟨.flow .normal, [], r.2⟩ := by
  rw [interpret] at hr
  split at hr
  · next he =>
    have hall := executeAll_keeps hI h he
    cases hr
    exact hall
  · exact executeAll_keeps hI h hr

theorem PassesAfter.keeps (hI : Lasting I) (h : I past ⟨.flow .normal, [], st⟩)
    (hm : st.PassesAfter program new m) : I (past ++ new) m := by
  induction hm generalizing past with
  | here steps => exact hI.run (hI.pause past _ _ _ h rfl rfl) steps
  | later he _ ih =>
    rw [← List.append_assoc]
    exact ih (execute_keeps hI h he)

theorem PassesAfter.onwards (h : st.PassesAfter program new m) (k : Nat) :
    st.PassesAfter program (new ++ Machine.taken k m) (Machine.run k m) := by
  induction h with
  | here steps =>
    rw [← Machine.taken_add, ← Machine.run_add]
    exact .here (steps + k)
  | later he _ ih =>
    rw [List.append_assoc]
    exact .later he ih

end Interpreter

/-! ## Sessions -/

namespace Session

open Machine (Lasting)

variable {I : List Machine → Machine → Prop} {start s : Session} {roots : List Visit}
  {past : List Machine}

/-- A lasting property outlives a source. -/
theorem run_keeps (hI : Lasting I) (h : I past ⟨.flow .normal, [], s.interpreter⟩) {budget : Nat}
    {source : List UInt8} {r : Run} (hr : s.run budget source = some r) :
    I (past ++ s.taken budget source) ⟨.flow .normal, [], r.session.interpreter⟩ := by
  rw [Session.taken]
  cases haccepts : s.accepts source with
  | true =>
    rw [if_pos rfl]
    have hresolved :=
      hI.pause past _ (.flow .normal) (s.interpreter.resolve (s.parse source).program).2 h rfl rfl
    rw [run_of_accepts haccepts] at hr
    obtain ⟨x, hi, rfl⟩ := Option.map_eq_some_iff.mp hr
    rw [interpreter_ended]
    exact Interpreter.interpret_keeps hI hresolved hi
  | false =>
    rw [if_neg Bool.false_ne_true, List.append_nil]
    exact hI.pause past _ _ _ h rfl (store_of_refused haccepts hr).1

/-- A lasting property outlives every source that was run. -/
theorem RanAfter.keeps (hI : Lasting I) (hstart : I [] ⟨.flow .normal, [], start.interpreter⟩)
    (h : RanAfter start roots past s) : I past ⟨.flow .normal, [], s.interpreter⟩ := by
  induction h with
  | start => exact hstart
  | run _ hr ih => exact run_keeps hI ih hr

/-- **What every step keeps holds at every moment of a session.** -/
theorem MomentAfter.keeps (hI : Lasting I) (hstart : I [] ⟨.flow .normal, [], start.interpreter⟩)
    (h : MomentAfter start roots past m) : I past m := by
  cases h with
  | during h haccepts hm =>
    refine Interpreter.PassesAfter.keeps hI ?_ hm
    exact hI.pause _ _ _ _ (h.keeps hI hstart) rfl rfl

/-- The machine of a moment goes through moments. -/
theorem MomentAfter.onwards (h : MomentAfter start roots past m) (k : Nat) :
    MomentAfter start roots (past ++ Machine.taken k m) (Machine.run k m) := by
  cases h with
  | during h haccepts hm =>
    rw [List.append_assoc]
    exact .during h haccepts (hm.onwards k)

end Session

end Lox
