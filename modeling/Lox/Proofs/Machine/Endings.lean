import Lox.Proofs.Machine.Below

/-!
# What statements come to

The machine takes small steps; here is what whole statements come to, each said by what its parts
come to. The parts of a statement run on top of frames that wait for them, and a run of the part
alone is a run there (`Machine.reaches_of_executes`, `Machine.reaches_of_evaluates`). In the other
direction, a run that comes to an end has come to the end of the part first
(`Machine.exists_executes`, `Machine.exists_evaluates`).

A block executes its statements in a scope of its own (`Interpreter.executes_block_iff`), and a loop
tests and goes round until something ends it (`Interpreter.executes_whileLoop_iff`).
-/

namespace Lox

variable {r : Ending × Interpreter} {k : Nat} {below : List Frame}

/-- Whether the next statement goes on. -/
def Ending.isNormal : Ending → Bool
  | .ok .normal => true
  | _ => false

theorem Ending.eq_of_isNormal {e : Ending} (h : e.isNormal = true) : e = .ok .normal := by
  unfold isNormal at h
  split at h
  · rfl
  · cases h

namespace Interpreter

variable {st : Interpreter}

/-- A statement ends some way, if it is given enough steps. -/
def Executes (st : Interpreter) (s : Stmt) (r : Ending × Interpreter) : Prop :=
  ∃ budget, st.execute budget s = some r

/-- An expression comes to something, if it is given enough steps. -/
def Evaluates (st : Interpreter) (e : Expr) (r : Except Fault Value × Interpreter) : Prop :=
  ∃ budget, st.evaluate budget e = some r

/-- A statement ends in one way at most. -/
theorem Executes.det {s : Stmt} {r' : Ending × Interpreter} (h : st.Executes s r)
    (h' : st.Executes s r') : r = r' := by
  obtain ⟨b, hb⟩ := h
  obtain ⟨b', hb'⟩ := h'
  exact execute_det hb hb'

theorem Evaluates.det {e : Expr} {r r' : Except Fault Value × Interpreter} (h : st.Evaluates e r)
    (h' : st.Evaluates e r') : r = r' := by
  obtain ⟨b, hb⟩ := h
  obtain ⟨b', hb'⟩ := h'
  exact evaluate_det hb hb'

theorem Executes.env {s : Stmt} (h : st.Executes s r) : r.2.env = st.env := by
  obtain ⟨b, hb⟩ := h
  exact (execute_samePlace hb).env

end Interpreter

namespace Machine

/-! ## Coming from one machine to another -/

/-- One machine comes to another. -/
def Reaches (m m' : Machine) : Prop :=
  ∃ k, run k m = m'

variable {m m₁ m₂ : Machine} {st : Interpreter} {s : Stmt} {e : Expr} {frame : Frame}
  {frames : List Frame}

theorem Reaches.refl : Reaches m m :=
  ⟨0, rfl⟩

theorem Reaches.trans (h : Reaches m m₁) (h' : Reaches m₁ m₂) : Reaches m m₂ := by
  obtain ⟨j, rfl⟩ := h
  obtain ⟨k, rfl⟩ := h'
  exact ⟨j + k, run_add j k m⟩

theorem Reaches.of_step (hbusy : m.isDone = false) (h : Reaches m.step m₁) : Reaches m m₁ := by
  obtain ⟨k, rfl⟩ := h
  refine ⟨k + 1, ?_⟩
  rw [run, hbusy]
  rfl

/-- A run that goes through a machine without a result has steps left there. -/
theorem isDone_run_of_reaches (h : Reaches m m₁) (hbusy : m₁.isDone = false)
    (hdone : (run k m).isDone = true) : ∃ j ≤ k, (run j m₁).isDone = true := by
  obtain ⟨i, rfl⟩ := h
  have hle : i ≤ k := by
    by_contra hlt
    rw [run_mono (Nat.le_of_not_le hlt) hdone, hdone] at hbusy
    cases hbusy
  refine ⟨k - i, Nat.sub_le k i, ?_⟩
  rw [← run_add, Nat.add_sub_cancel' hle]
  exact hdone

theorem frames_of_isDone (h : m.isDone = true) : m.frames = [] := by
  obtain ⟨control, frames, st⟩ := m
  cases frames with
  | nil => rfl
  | cons frame frames => cases control <;> cases h

theorem isDone_of_frames_ne_nil (h : m.frames ≠ []) : m.isDone = false :=
  Bool.eq_false_iff.mpr fun hdone => h (frames_of_isDone hdone)

/-- Two ways from one machine, of which the second comes to an end: it goes on from where the first
leads. -/
theorem Reaches.through (h : Reaches m m₁) (h' : Reaches m m₂) (hdone : m₂.isDone = true) :
    Reaches m₁ m₂ := by
  obtain ⟨j, rfl⟩ := h
  obtain ⟨k, rfl⟩ := h'
  rcases Nat.le_total j k with hle | hle
  · refine ⟨k - j, ?_⟩
    rw [← run_add, Nat.add_sub_cancel' hle]
  · rw [run_mono hle hdone]
    exact .refl

theorem Reaches.eq_of_isDone (h : Reaches m m₁) (h' : Reaches m m₂) (h₁ : m₁.isDone = true)
    (h₂ : m₂.isDone = true) : m₁ = m₂ := by
  obtain ⟨j, rfl⟩ := h
  obtain ⟨k, rfl⟩ := h'
  exact run_eq_of_isDone h₁ h₂

/-- A fault goes through all frames. -/
theorem exists_reaches_fault (f : Fault) (frames : List Frame) (st : Interpreter) :
    ∃ st', Reaches ⟨.fault f, frames, st⟩ ⟨.fault f, [], st'⟩ := by
  induction frames generalizing st with
  | nil => exact ⟨st, .refl⟩
  | cons frame frames ih =>
    obtain ⟨st', h⟩ := ih (frame.pop st)
    refine ⟨st', .of_step rfl ?_⟩
    show Reaches (stepFault f frame frames st) _
    rw [stepFault_eq]
    exact h

theorem not_reaches_of_fault {f : Fault} {v : Value} {st' : Interpreter} :
    ¬Reaches ⟨.fault f, frames, st⟩ ⟨.value v, [], st'⟩ := by
  intro h
  obtain ⟨_, hfault⟩ := exists_reaches_fault f frames st
  cases hfault.eq_of_isDone h rfl rfl

/-- A run that comes to an end with frames below comes to an end without them. -/
theorem isDone_of_onto (h : (run k (m.onto below)).isDone = true) : (run k m).isDone = true := by
  by_contra hbusy
  have hbusy := Bool.eq_false_iff.mpr hbusy
  rw [run_onto hbusy, isDone_onto hbusy] at h
  cases h

theorem exists_ending? (h : m.isDone = true) : ∃ r, m.ending? = some r := by
  obtain ⟨control, frames, st⟩ := m
  cases frames with
  | nil => cases control <;> first | exact ⟨_, rfl⟩ | cases h
  | cons frame frames => cases control <;> cases h

/-! ## Parts of a statement -/

/-- What goes on after a statement. -/
def resume (r : Ending × Interpreter) (frames : List Frame) : Machine :=
  match r with
  | (.ok f, st) => ⟨.flow f, frames, st⟩
  | (.error f, st) => ⟨.fault f, frames, st⟩

theorem ending?_resume (r : Ending × Interpreter) : (resume r []).ending? = some r := by
  obtain ⟨_ | _, _⟩ := r <;> rfl

theorem isDone_resume_cons (r : Ending × Interpreter) :
    (resume r (frame :: frames)).isDone = false := by
  obtain ⟨_ | _, _⟩ := r <;> rfl

/-- Whether a frame waits for the end of a statement. -/
def awaitsStatement : Frame → Bool
  | .sequence _ | .loopBody _ _ | .leave _ | .initializer _ => true
  | _ => false

/-- What a machine came to on its own goes to the frame below that waits for a statement. -/
theorem reaches_resume (hframe : awaitsStatement frame = true) (h : m.ending? = some r) :
    Reaches (m.onto (frame :: frames)) (resume r (frame :: frames)) := by
  obtain ⟨control, own, st⟩ := m
  cases own with
  | cons _ _ => cases control <;> cases h
  | nil =>
    cases control with
    | flow f =>
      cases h
      exact .refl
    | fault f =>
      cases h
      exact .refl
    | value v =>
      -- a value at the end of a statement is dropped by the frame that waits for the statement
      cases h
      refine .of_step rfl ?_
      cases frame <;> first | exact .refl | cases hframe
    | _ => cases h

/-- What a machine came to on its own goes to the frame below that waits for a value. -/
theorem reaches_give {r : Except Fault Value × Interpreter} (hframe : awaitsStatement frame = false)
    (h : m.result? = some r) : Reaches (m.onto (frame :: frames)) (give r (frame :: frames)) := by
  obtain ⟨control, own, st⟩ := m
  cases own with
  | cons _ _ => cases control <;> cases h
  | nil =>
    cases control with
    | value v =>
      cases h
      exact .refl
    | fault f =>
      cases h
      exact .refl
    | flow f =>
      -- the end of a function body is a value for the frame that waits for one
      cases h
      refine .of_step rfl ?_
      cases frame <;> first | exact .refl | cases hframe
    | _ => cases h

/-- A statement on top of a frame that waits for it comes to what it comes to alone. -/
theorem reaches_of_executes (hframe : awaitsStatement frame = true) (h : st.Executes s r) :
    Reaches ⟨.exec s, frame :: frames, st⟩ (resume r (frame :: frames)) := by
  obtain ⟨budget, hb⟩ := h
  exact .trans (exists_run_onto budget ⟨.exec s, [], st⟩ (frame :: frames))
    (reaches_resume hframe hb)

/-- An expression on top of a frame that waits for it comes to what it comes to alone. -/
theorem reaches_of_evaluates {r : Except Fault Value × Interpreter}
    (hframe : awaitsStatement frame = false) (h : st.Evaluates e r) :
    Reaches ⟨.eval e, frame :: frames, st⟩ (give r (frame :: frames)) := by
  obtain ⟨budget, hb⟩ := h
  exact .trans (exists_run_onto budget ⟨.eval e, [], st⟩ (frame :: frames)) (reaches_give hframe hb)

theorem exists_executes (h : (run k ⟨.exec s, frames, st⟩).isDone = true) :
    ∃ r, st.Executes s r := by
  have hdone : (run k (onto ⟨.exec s, [], st⟩ frames)).isDone = true := h
  obtain ⟨r, hr⟩ := exists_ending? (isDone_of_onto hdone)
  exact ⟨r, k, hr⟩

theorem exists_evaluates (h : (run k ⟨.eval e, frames, st⟩).isDone = true) :
    ∃ r, st.Evaluates e r := by
  have hdone : (run k (onto ⟨.eval e, [], st⟩ frames)).isDone = true := h
  obtain ⟨r, hr⟩ := exists_result? (isDone_of_onto hdone)
  exact ⟨r, k, hr⟩

end Machine

namespace Interpreter

open Machine (Reaches resume)

variable {st st₁ : Interpreter} {s : Stmt} {e c : Expr} {r : Ending × Interpreter}
  {body : List Stmt}

/-- A statement ends in the way that its machine gets to. -/
theorem executes_of_reaches (h : Reaches ⟨.exec s, [], st⟩ (resume r [])) : st.Executes s r := by
  obtain ⟨k, hk⟩ := h
  refine ⟨k, ?_⟩
  rw [execute, hk, Machine.ending?_resume]

/-- A run of a statement that comes to an end has steps left after the first one. -/
theorem isDone_step_of_execute {budget : Nat} (h : st.execute budget s = some r) :
    ∃ k < budget, (Machine.run k (Machine.stepExec s [] st)).isDone = true := by
  cases budget with
  | zero => cases h
  | succ k => exact ⟨k, Nat.lt_succ_self k, Machine.isDone_of_ending? h⟩

/-! ## Expression statements -/

theorem executes_expression_of {result : Except Fault Value} (h : st.Evaluates e (result, st₁)) :
    st.Executes (.expression e) (result.map fun _ => .normal, st₁) := by
  refine executes_of_reaches (.of_step rfl ?_)
  refine .trans (Machine.reaches_of_evaluates rfl h) ?_
  cases result with
  | ok v => exact .of_step rfl .refl
  | error f => exact .of_step rfl .refl

/-- An expression statement drops the value. -/
theorem executes_expression_iff : st.Executes (.expression e) r ↔
    ∃ result, st.Evaluates e (result, r.2) ∧ r.1 = result.map fun _ => .normal := by
  constructor
  · intro h
    obtain ⟨budget, hb⟩ := id h
    obtain ⟨k, -, hk⟩ := isDone_step_of_execute hb
    obtain ⟨⟨result, st₁⟩, hr⟩ := Machine.exists_evaluates hk
    cases h.det (executes_expression_of hr)
    exact ⟨result, hr, rfl⟩
  · rintro ⟨result, hr, hr₁⟩
    obtain ⟨ending, st₁⟩ := r
    cases hr₁
    exact executes_expression_of hr

/-! ## Statements in turn and blocks -/

/-- Statements in turn, up to the first one that does not end normally. -/
inductive ExecutesSeq : Interpreter → List Stmt → Ending × Interpreter → Prop
  | nil (st : Interpreter) : ExecutesSeq st [] (.ok .normal, st)
  | next {st st₁ : Interpreter} {s : Stmt} {rest : List Stmt} {r : Ending × Interpreter}
      (first : st.Executes s (.ok .normal, st₁)) (others : ExecutesSeq st₁ rest r) :
      ExecutesSeq st (s :: rest) r
  | stop {st : Interpreter} {s : Stmt} {rest : List Stmt} {r : Ending × Interpreter}
      (first : st.Executes s r) (stopped : r.1.isNormal = false) : ExecutesSeq st (s :: rest) r

theorem reaches_sequence_stop {rest : List Stmt} (h : r.1.isNormal = false) :
    Reaches (resume r (.sequence rest :: below)) (resume r below) := by
  obtain ⟨ending, st⟩ := r
  refine .of_step (Machine.isDone_resume_cons _) ?_
  cases ending with
  | error f => exact .refl
  | ok f =>
    cases f with
    | normal => cases h
    | returned v => exact .refl

theorem reaches_of_executesSeq (h : ExecutesSeq st body r) :
    Reaches ⟨.flow .normal, .sequence body :: below, st⟩ (resume r below) := by
  induction h with
  | nil st => exact .of_step rfl .refl
  | next hs _ ih => exact .of_step rfl (.trans (Machine.reaches_of_executes rfl hs) ih)
  | stop hs hstop =>
    exact .of_step rfl (.trans (Machine.reaches_of_executes rfl hs) (reaches_sequence_stop hstop))

/-- Statements whose run comes to an end come to something in turn. -/
theorem exists_executesSeq
    (h : (Machine.run k ⟨.flow .normal, .sequence body :: below, st⟩).isDone = true) :
    ∃ r, ExecutesSeq st body r := by
  induction body generalizing st k with
  | nil => exact ⟨_, .nil st⟩
  | cons s rest ih =>
    cases k with
    | zero => cases h
    | succ k =>
      have h : (Machine.run k ⟨.exec s, .sequence rest :: below, st⟩).isDone = true := h
      obtain ⟨⟨ending, st₁⟩, hs⟩ := Machine.exists_executes h
      cases hnormal : ending.isNormal with
      | false => exact ⟨_, .stop hs hnormal⟩
      | true =>
        cases Ending.eq_of_isNormal hnormal
        obtain ⟨j, -, hj⟩ :=
          Machine.isDone_run_of_reaches (Machine.reaches_of_executes rfl hs) rfl h
        obtain ⟨r, hr⟩ := ih hj
        exact ⟨r, .next hs hr⟩

theorem executes_block_of {ending : Ending}
    (h : ExecutesSeq (st.enter st.env ∅) body (ending, st₁)) :
    st.Executes (.block body) (ending, st₁.leave st.env) := by
  refine executes_of_reaches (.of_step rfl ?_)
  refine .trans (reaches_of_executesSeq h) ?_
  cases ending with
  | ok f => exact .of_step rfl .refl
  | error f => exact .of_step rfl .refl

/-- **A block executes its statements in turn in a scope of its own.** -/
theorem executes_block_iff : st.Executes (.block body) r ↔
    ∃ st₁, ExecutesSeq (st.enter st.env ∅) body (r.1, st₁) ∧ r.2 = st₁.leave st.env := by
  constructor
  · intro h
    obtain ⟨budget, hb⟩ := id h
    obtain ⟨k, -, hk⟩ := isDone_step_of_execute hb
    obtain ⟨⟨ending, st₁⟩, hr⟩ := exists_executesSeq hk
    cases h.det (executes_block_of hr)
    exact ⟨st₁, hr, rfl⟩
  · rintro ⟨st₁, hseq, hleave⟩
    obtain ⟨ending, st₂⟩ := r
    cases hleave
    exact executes_block_of hseq

/-- Two statements in turn. -/
theorem executesSeq_pair_iff {s' : Stmt} : ExecutesSeq st [s, s'] r ↔
    (st.Executes s r ∧ r.1.isNormal = false) ∨ ∃ st₁, st.Executes s (.ok .normal, st₁) ∧
      st₁.Executes s' r := by
  constructor
  · intro h
    cases h with
    | stop hs hstop => exact .inl ⟨hs, hstop⟩
    | next hs hrest =>
      cases hrest with
      | stop hs' _ => exact .inr ⟨_, hs, hs'⟩
      | next hs' hnil =>
        cases hnil
        exact .inr ⟨_, hs, hs'⟩
  · rintro (⟨hs, hstop⟩ | ⟨st₁, hs, hs'⟩)
    · exact .stop hs hstop
    · refine .next hs ?_
      cases hnormal : r.1.isNormal with
      | false => exact .stop hs' hnormal
      | true =>
        obtain ⟨ending, st₂⟩ := r
        cases Ending.eq_of_isNormal hnormal
        exact .next hs' (.nil st₂)

/-! ## Loops -/

section Loops

/-! A loop is given by what its test comes to and by what one round comes to. -/

variable (Tests : Interpreter → Except Fault Value × Interpreter → Prop)
  (Rounds : Interpreter → Ending × Interpreter → Prop)

/-- The test is true, and the round ends normally. -/
def GoesRound (st st' : Interpreter) : Prop :=
  ∃ v st₁, Tests st (.ok v, st₁) ∧ v.isTruthy = true ∧ Rounds st₁ (.ok .normal, st')

/-- The loop ends without another round that ends normally. -/
inductive LeavesLoop (st : Interpreter) : Ending × Interpreter → Prop
  | failed {f : Fault} {st' : Interpreter} (test : Tests st (.error f, st')) :
      LeavesLoop st (.error f, st')
  | finished {v : Value} {st' : Interpreter} (test : Tests st (.ok v, st'))
      (falsy : v.isTruthy = false) : LeavesLoop st (.ok .normal, st')
  | stopped {v : Value} {st₁ : Interpreter} {r : Ending × Interpreter}
      (test : Tests st (.ok v, st₁)) (truthy : v.isTruthy = true) (round : Rounds st₁ r)
      (stops : r.1.isNormal = false) : LeavesLoop st r

/-- The loop goes round some number of times, and then ends. -/
def Loops (st : Interpreter) (r : Ending × Interpreter) : Prop :=
  ∃ st', Relation.ReflTransGen (GoesRound Tests Rounds) st st' ∧ LeavesLoop Tests Rounds st' r

end Loops

variable {b : Stmt} {below : List Frame}

/-- A test that is true leads to the body. -/
theorem reaches_loopBody {v : Value} (test : st.Evaluates c (.ok v, st₁))
    (truthy : v.isTruthy = true) :
    Reaches ⟨.eval c, .loopTest c b :: below, st⟩ ⟨.exec b, .loopBody c b :: below, st₁⟩ := by
  refine .trans (Machine.reaches_of_evaluates rfl test) (.of_step rfl ?_)
  show Reaches (if v.isTruthy then _ else _) _
  rw [truthy]
  exact .refl

/-- A round of a loop leads from one test to the next. -/
theorem reaches_of_goesRound (h : GoesRound (·.Evaluates c ·) (·.Executes b ·) st st₁) :
    Reaches ⟨.eval c, .loopTest c b :: below, st⟩ ⟨.eval c, .loopTest c b :: below, st₁⟩ := by
  obtain ⟨v, st₂, test, truthy, round⟩ := h
  refine .trans (reaches_loopBody test truthy) ?_
  exact .trans (Machine.reaches_of_executes rfl round) (.of_step rfl .refl)

theorem reaches_of_rounds
    (h : Relation.ReflTransGen (GoesRound (·.Evaluates c ·) (·.Executes b ·)) st st₁) :
    Reaches ⟨.eval c, .loopTest c b :: below, st⟩ ⟨.eval c, .loopTest c b :: below, st₁⟩ := by
  induction h with
  | refl => exact .refl
  | tail _ hround ih => exact .trans ih (reaches_of_goesRound hround)

theorem reaches_of_leavesLoop (h : LeavesLoop (·.Evaluates c ·) (·.Executes b ·) st r) :
    Reaches ⟨.eval c, .loopTest c b :: below, st⟩ (resume r below) := by
  cases h with
  | failed test => exact .trans (Machine.reaches_of_evaluates rfl test) (.of_step rfl .refl)
  | @finished v st' test falsy =>
    refine .trans (Machine.reaches_of_evaluates rfl test) (.of_step rfl ?_)
    show Reaches (if v.isTruthy then _ else _) _
    rw [falsy]
    exact .refl
  | stopped test truthy round stops =>
    refine .trans (reaches_loopBody test truthy) (.trans (Machine.reaches_of_executes rfl round) ?_)
    obtain ⟨ending, st'⟩ := r
    refine .of_step (Machine.isDone_resume_cons _) ?_
    cases ending with
    | error f => exact .refl
    | ok f =>
      cases f with
      | normal => cases stops
      | returned v => exact .refl

theorem executes_whileLoop_of (h : Loops (·.Evaluates c ·) (·.Executes b ·) st r) :
    st.Executes (.whileLoop c b) r := by
  obtain ⟨st₁, hrounds, hleaves⟩ := h
  exact executes_of_reaches
    (.of_step rfl (.trans (reaches_of_rounds hrounds) (reaches_of_leavesLoop hleaves)))

/-- A loop whose run comes to an end ends after some rounds. The induction is on the steps: each
round takes some. -/
theorem exists_loops (h : (Machine.run k ⟨.eval c, .loopTest c b :: below, st⟩).isDone = true) :
    ∃ r, Loops (·.Evaluates c ·) (·.Executes b ·) st r := by
  induction k using Nat.strong_induction_on generalizing st with
  | _ k ih =>
    obtain ⟨⟨result, st₁⟩, test⟩ := Machine.exists_evaluates h
    cases result with
    | error f => exact ⟨_, st, .refl, .failed test⟩
    | ok v =>
      cases truthy : v.isTruthy with
      | false => exact ⟨_, st, .refl, .finished test truthy⟩
      | true =>
        obtain ⟨j, hjk, hj⟩ := Machine.isDone_run_of_reaches (reaches_loopBody test truthy) rfl h
        obtain ⟨⟨ending, st₂⟩, round⟩ := Machine.exists_executes hj
        cases hnormal : ending.isNormal with
        | false => exact ⟨_, st, .refl, .stopped test truthy round hnormal⟩
        | true =>
          cases Ending.eq_of_isNormal hnormal
          obtain ⟨i, hij, hi⟩ :=
            Machine.isDone_run_of_reaches (Machine.reaches_of_executes rfl round) rfl hj
          cases i with
          | zero => cases hi
          | succ i =>
            obtain ⟨r, st', hrounds, hleaves⟩ := ih i (by omega) hi
            exact ⟨r, st', .head ⟨v, st₁, test, truthy, round⟩ hrounds, hleaves⟩

/-- **A loop tests its condition and executes its body in turn, until something ends it.** -/
theorem executes_whileLoop_iff :
    st.Executes (.whileLoop c b) r ↔ Loops (·.Evaluates c ·) (·.Executes b ·) st r := by
  constructor
  · intro h
    obtain ⟨budget, hb⟩ := id h
    obtain ⟨k, -, hk⟩ := isDone_step_of_execute hb
    obtain ⟨r', hr'⟩ := exists_loops hk
    cases h.det (executes_whileLoop_of hr')
    exact hr'
  · exact executes_whileLoop_of

end Interpreter

end Lox
