import Lox.Proofs.Renumbering.Sessions
import Lox.Proofs.Session.Reports

/-!
# One counter for all trees

Every node that names a variable takes its id from a counter that only moves on, whatever is read: a
program or an expression, with errors or without. So calls of the parser hand out stretches of the
counter one after the other (`ParseCall.idsAll_between`), and no two nodes of all the trees that
they return have the same id.

A session resolves later trees with later ids, and distances are recorded for the ids of the tree at
hand only. What is recorded for a program therefore stays, whatever the session does next and
whoever else uses the counter meanwhile (`Session.Continued`).
-/

namespace Lox

/-! ## Calls of the parser -/

/-- A call of the parser: for a program, or for one expression. -/
inductive ParseCall where
  | program (tokens : List Token)
  | expression (tokens : List Token)

namespace ParseCall

/-- The ids of the nodes of the trees that a call returns if the counter stands at `n`. -/
def ids (n : NodeId) : ParseCall → List NodeId
  | program tokens => Stmt.idsAll (Parse.ofTokens tokens n).program
  | expression tokens => Expr.ids? (ParsedExpr.ofTokens tokens n).expr?

/-- Where a call leaves the counter. -/
def counter (n : NodeId) : ParseCall → NodeId
  | program tokens => (Parse.ofTokens tokens n).nextId
  | expression tokens => (ParsedExpr.ofTokens tokens n).nextId

/-- Where calls in turn leave the counter. -/
def counterAfter (n : NodeId) (calls : List ParseCall) : NodeId :=
  calls.foldl counter n

/-- The ids of the nodes of all trees that calls in turn return. -/
def idsAll (n : NodeId) : List ParseCall → List NodeId
  | [] => []
  | call :: rest => call.ids n ++ idsAll (call.counter n) rest

/-- One call uses a stretch of the counter. -/
theorem ids_between (n : NodeId) (call : ParseCall) :
    n ≤ call.counter n ∧ Between n (call.counter n) (call.ids n) := by
  cases call with
  | program tokens => exact Parse.ids_between tokens n
  | expression tokens =>
    obtain ⟨hle, hids⟩ := ParsedExpr.ids_between tokens n
    refine ⟨hle, ?_⟩
    rw [ids]
    cases he : (ParsedExpr.ofTokens tokens n).expr? with
    | none => exact .nil
    | some e => exact hids e he

/-- Calls in turn use stretches of the counter one after the other. -/
theorem idsAll_between (n : NodeId) (calls : List ParseCall) :
    n ≤ counterAfter n calls ∧ Between n (counterAfter n calls) (idsAll n calls) := by
  induction calls generalizing n with
  | nil => exact ⟨Nat.le_refl n, .nil⟩
  | cons call rest ih =>
    obtain ⟨hle, hids⟩ := ids_between n call
    obtain ⟨hle', hids'⟩ := ih (call.counter n)
    exact ⟨Nat.le_trans hle hle', hids.append hids' hle hle'⟩

theorem counterAfter_concat (n : NodeId) (calls : List ParseCall) (call : ParseCall) :
    counterAfter n (calls ++ [call]) = call.counter (counterAfter n calls) := by
  simp [counterAfter]

end ParseCall

/-! ## Sessions with a common counter -/

namespace Session

variable {start s : Session} {budget : Nat} {source : List UInt8}

/-- The sessions that another one can become: by running and evaluating sources, while others move
the counter on. -/
inductive Continued (start : Session) : Session → Prop where
  | start : Continued start start
  | run {s : Session} {budget : Nat} {source : List UInt8} {r : Run} (h : Continued start s)
      (hr : s.run budget source = some r) : Continued start r.session
  | evaluate {s : Session} {budget : Nat} {source : List UInt8} {r : Evaluation}
      (h : Continued start s) (hr : s.evaluate budget source = some r) : Continued start r.session
  | others {s : Session} (h : Continued start s) (calls : List ParseCall) :
      Continued start ⟨s.interpreter, ParseCall.counterAfter s.nextId calls⟩

/-- The counter has moved on, and what was recorded for ids before has stayed. -/
structure Keeps (s s' : Session) : Prop where
  le : s.nextId ≤ s'.nextId
  distances : ∀ id, id < s.nextId → s'.interpreter.distances[id]? = s.interpreter.distances[id]?

theorem Keeps.trans {s₁ s₂ : Session} (h : Keeps s s₁) (h' : Keeps s₁ s₂) : Keeps s s₂ :=
  ⟨Nat.le_trans h.le h'.le, fun id hid => (h'.distances id (Nat.lt_of_lt_of_le hid h.le)).trans
    (h.distances id hid)⟩

/-- Looking at the program of a source records distances for the ids that the source was given. -/
theorem keeps_resolve (s : Session) (source : List UInt8) :
    Keeps s ⟨(s.interpreter.resolve (s.parse source).program).2, (s.parse source).nextId⟩ := by
  obtain ⟨hle, hids⟩ := Parse.ids_between (Scan.ofSource source).tokens s.nextId
  have htouches := Stmt.touches_resolveAll (s.parse source).program (s.visit source).resolver
  refine ⟨hle, fun id hid => htouches.distances id fun hnew => ?_⟩
  exact Nat.not_le.mpr hid (hids.bounds id hnew).1

theorem keeps_run {r : Run} (hr : s.run budget source = some r) : Keeps s r.session := by
  have hresolve := s.keeps_resolve source
  cases ends_of_run hr with
  | unread => exact ⟨hresolve.le, fun _ _ => rfl⟩
  | refused _ heq =>
    rw [heq] at hresolve
    exact hresolve
  | ran _ heq hrun | failed _ heq hrun =>
    rw [heq] at hresolve
    refine ⟨hresolve.le, fun id hid => ?_⟩
    rw [← hresolve.distances id hid]
    exact congrArg (·[id]?) (Interpreter.interpret_samePlace hrun).distances

/-- Evaluating a source records nothing. -/
theorem keeps_evaluate {r : Evaluation} (hr : s.evaluate budget source = some r) :
    Keeps s r.session := by
  obtain ⟨hle, -⟩ := ParsedExpr.ids_between (Scan.ofSource source).tokens s.nextId
  rcases session_of_evaluate hr with heq | ⟨e, x, -, hi, heq⟩
  · rw [heq]
    exact ⟨hle, fun _ _ => rfl⟩
  · rw [heq]
    exact ⟨hle, fun id _ => congrArg (·[id]?) (Interpreter.evaluate_samePlace hi).distances⟩

theorem Continued.keeps (h : Continued start s) : Keeps start s := by
  induction h with
  | start => exact ⟨Nat.le_refl _, fun _ _ => rfl⟩
  | run _ hr ih => exact ih.trans (keeps_run hr)
  | evaluate _ hr ih => exact ih.trans (keeps_evaluate hr)
  | others _ calls ih =>
    exact ⟨Nat.le_trans ih.le (ParseCall.idsAll_between _ calls).1, ih.distances⟩

end Session

theorem Machine.distances_run (budget : Nat) (m : Machine) :
    (run budget m).state.distances = m.state.distances := by
  induction budget generalizing m with
  | zero => rfl
  | succ budget ih =>
    rw [run]
    split
    · rfl
    · rw [ih, distances_step]

/-- While a program runs, nothing is recorded. -/
theorem Interpreter.Passes.distances {st : Interpreter} {program : List Stmt} {m : Machine}
    (h : st.Passes program m) : m.state.distances = st.distances := by
  induction h with
  | here steps => exact Machine.distances_run steps _
  | later hs _ ih => exact ih.trans (Interpreter.execute_samePlace hs).distances

namespace Session

/-- **All ids are different, and what is recorded for them stays.** In any sequence of calls of the
parser, no id occurs twice in all the trees returned, and the ids in the trees of one call lie
between where the counter stood before and after it. So after a session has run a source, the
distances of the ids of its program are the same in every session that it becomes, and at every
moment while that session runs a further source or evaluates an expression. -/
theorem ids_unique_and_distances_stay :
    (∀ (n : NodeId) (calls : List ParseCall), (ParseCall.idsAll n calls).Nodup) ∧
    (∀ (n : NodeId) (before : List ParseCall) (call : ParseCall),
      ∀ id ∈ call.ids (ParseCall.counterAfter n before),
        ParseCall.counterAfter n before ≤ id ∧ id < ParseCall.counterAfter n (before ++ [call])) ∧
    ∀ (s : Session) (budget : Nat) (source : List UInt8) (r : Run), s.run budget source = some r →
      ∀ s', Continued r.session s' → ∀ id ∈ Stmt.idsAll (s.parse source).program,
        s'.interpreter.distances[id]? = r.session.interpreter.distances[id]? ∧
        (∀ source' m,
          (s'.interpreter.resolve (s'.parse source').program).2.Passes
            (s'.parse source').program m →
          m.state.distances[id]? = r.session.interpreter.distances[id]?) ∧
        ∀ (e : Expr) (steps : Nat),
          (Machine.run steps ⟨.eval e, [], s'.interpreter⟩).state.distances[id]? =
            r.session.interpreter.distances[id]? := by
  refine ⟨fun n calls => (ParseCall.idsAll_between n calls).2.nodup, fun n before call id hid => ?_,
    fun s budget source r hr s' hs' id hid => ?_⟩
  · rw [ParseCall.counterAfter_concat]
    exact (ParseCall.ids_between _ call).2.bounds id hid
  -- Whatever a later walk records is about ids from `nextId` on.
  · have hlt : id < r.session.nextId := by
      have hbound := ((Parse.ids_between (Scan.ofSource source).tokens s.nextId).2.bounds id hid).2
      cases ends_of_run hr <;> exact hbound
    have hkept := hs'.keeps
    have hnow := hkept.distances id hlt
    refine ⟨hnow, fun source' m hm => ?_, fun e steps => ?_⟩
    · rw [hm.distances]
      exact (hkept.trans (s'.keeps_resolve source')).distances id hlt
    · rw [Machine.distances_run]
      exact hnow

/-- The source `1 = a; b = c; print (d; this;`, in which `a`, `b` and `d` are read but get into no
tree. -/
def wasteful : List UInt8 :=
  "1 = a; b = c; print (d; this;".toUTF8.toList

/-- Ids that get into no tree are not given out again, and a rejected source does not touch the
distance that the variable `a` of an earlier function has. -/
theorem wasteful_ids_and_greeting_distance :
    (ParseCall.idsAll 0 [.program (Scan.ofSource wasteful).tokens,
        .expression (Scan.ofSource "x + y".toUTF8.toList).tokens] = [2, 3, 5, 6, 7] ∧
        [2, 3, 5, 6, 7].Nodup) ∧
    ∃ r r' : Run, (Session.new (.new [] .unlimited 9 fun _ => 0)).run 9 greeting = some r ∧
      r.session.interpreter.distances[0]? = some 1 ∧ r.session.run 9 strayReturn = some r' ∧
      r'.session.interpreter.distances[0]? = some 1 := by
  have hids : ParseCall.idsAll 0 [.program (Scan.ofSource wasteful).tokens,
      .expression (Scan.ofSource "x + y".toUTF8.toList).tokens] =
      [2, 3, 5, 6, 7] := by decide +kernel
  have hruns : (((Session.new (.new [] .unlimited 9 fun _ => 0)).run 9 greeting).bind fun r =>
      (r.session.run 9 strayReturn).map fun _ => r.session.interpreter.distances[0]?) =
        some (some 1) := by
    rw [show greeting = _ from Utf8.encode_eq _, show strayReturn = _ from Utf8.encode_eq _]
    cbv
  have hid : 0 ∈
      Stmt.idsAll ((Session.new (.new [] .unlimited 9 fun _ => 0)).parse greeting).program := by
    decide +kernel
  obtain ⟨hnodup, -, hstay⟩ := ids_unique_and_distances_stay
  obtain ⟨r, hr, hruns⟩ := Option.bind_eq_some_iff.mp hruns
  obtain ⟨r', hr', hdistance⟩ := Option.map_eq_some_iff.mp hruns
  refine ⟨⟨hids, hids ▸ hnodup 0 _⟩, r, r', hr, hdistance, hr', ?_⟩
  rw [(hstay _ _ _ r hr r'.session (.run .start hr') 0 hid).1]
  exact hdistance

end Session

end Lox
