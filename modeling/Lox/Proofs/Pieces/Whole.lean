import Lox.Proofs.Pieces.Globals
import Lox.Proofs.Session.Counter

/-!
# Running a program in pieces

A program that is run in two pieces does what it does as a whole. Two things differ on the way. In
pieces, the second piece is looked at when the first has run, so the walk knows the names that the
first declares as global variables; as a whole, it has just passed their declarations. And as a
whole, the distances of the second piece are there while the first one runs. The names are the same
(`Interpreter.contains_executeAll`), and distances of ids that nothing refers to yet make no
difference (`Interpreter.executeAll_withDistances`), so both ways lead to one and the same state
(`Session.pieces_run_as_whole`).
-/

namespace Lox

variable {budget : Nat} {P : List Stmt} {e : Ending × Interpreter}

/-! ## Budgets -/

namespace Machine

variable {m : Machine}

theorem run_of_isDone (h : m.isDone = true) (budget : Nat) : run budget m = m := by
  cases budget with
  | zero => rfl
  | succ budget => rw [run, if_pos h]

/-- With a larger budget the result stays the same. -/
theorem run_mono {budget' : Nat} (hle : budget ≤ budget') (h : (run budget m).isDone = true) :
    run budget' m = run budget m := by
  induction budget generalizing m budget' with
  | zero => exact run_of_isDone h budget'
  | succ budget ih =>
    by_cases hdone : m.isDone = true
    · rw [run_of_isDone hdone, run_of_isDone hdone]
    · obtain ⟨k, rfl⟩ : ∃ k, budget' = k + 1 := ⟨budget' - 1, by omega⟩
      rw [run, if_neg hdone] at h ⊢
      rw [run, if_neg hdone]
      exact ih (by omega) h

theorem isDone_of_ending? (h : m.ending? = some e) : m.isDone = true := by
  obtain ⟨control, frames, st⟩ := m
  cases frames with
  | nil => cases control <;> first | rfl | cases h
  | cons frame frames => cases control <;> cases h

theorem state_of_result? {r : Except Fault Value × Interpreter} (h : m.result? = some r) :
    m.state = r.2 := by
  obtain ⟨control, frames, st⟩ := m
  cases frames with
  | nil => cases control <;> cases h <;> rfl
  | cons frame frames => cases control <;> cases h

end Machine

namespace Interpreter

variable {st st' : Interpreter} {budget budget' : Nat} {r : Except Fault Unit × Interpreter}
  {program : List Stmt}

theorem execute_mono (hle : budget ≤ budget') {s : Stmt} (h : st.execute budget s = some e) :
    st.execute budget' s = some e := by
  rw [execute, Machine.run_mono hle (Machine.isDone_of_ending? h)]
  exact h

/-- With a larger budget the answer stays the same. -/
theorem executeAll_mono (hle : budget ≤ budget') (h : st.executeAll budget program = some r) :
    st.executeAll budget' program = some r := by
  induction program generalizing st with
  | nil => exact h
  | cons s rest ih =>
    rw [executeAll] at h ⊢
    split at h
    · next hs =>
      rw [execute_mono hle hs]
      exact ih h
    · next hs =>
      rw [execute_mono hle hs]
      exact h
    · cases h

theorem interpret_mono (hle : budget ≤ budget') (h : st.interpret budget program = some r) :
    st.interpret budget' program = some r := by
  cases hall : st.executeAll budget program with
  | none =>
    rw [interpret, hall] at h
    cases h
  | some r' =>
    rw [interpret, hall] at h
    rw [interpret, executeAll_mono hle hall]
    exact h

/-! ## One piece after the other -/

/-- After a program that ended well, the next goes on. -/
theorem executeAll_append (h : st.executeAll budget P = some (.ok (), st')) (Q : List Stmt) :
    st.executeAll budget (P ++ Q) = st'.executeAll budget Q := by
  induction P generalizing st with
  | nil =>
    cases h
    rfl
  | cons s rest ih =>
    rw [executeAll] at h
    rw [List.cons_append, executeAll]
    split at h
    · exact ih h
    · cases h
    · cases h

theorem interpret_append (h : st.executeAll budget P = some (.ok (), st')) (Q : List Stmt) :
    st.interpret budget (P ++ Q) = st'.interpret budget Q := by
  rw [interpret, executeAll_append h, interpret]

/-- A program that has been interpreted without a fault has been executed without one. -/
theorem executeAll_of_interpret (h : st.interpret budget program = some (.ok (), st')) :
    st.executeAll budget program = some (.ok (), st') := by
  rw [interpret] at h
  split at h
  · next hall =>
    simp only [Option.some.injEq, Prod.mk.injEq] at h
    rw [hall, h.2]
  · exact h

/-! ## Distances that nothing refers to -/

/-- Moves some ids to another one. -/
def moveTo (ids : List NodeId) (n id : NodeId) : NodeId :=
  if id ∈ ids then n else id

/-- **Distances of ids that nothing refers to make no difference.** The ids may be renumbered to one
without a distance, since neither the program nor the store has them, and then their distances are
never looked at. -/
theorem executeAll_withDistances {ids : List NodeId} {n : NodeId} {D : Distances}
    (hstore : st.store.renumber (moveTo ids n) = st.store)
    (hprogram : ∀ id ∈ Stmt.idsAll program, id ∉ ids) (hids : ∀ id ∈ ids, st.distances[id]? = none)
    (hn : st.distances[n]? = none) (hnD : D[n]? = none)
    (hD : ∀ id, id ∉ ids → D[id]? = st.distances[id]?) (h : st.executeAll budget program = some r) :
    ({ st with distances := D } : Interpreter).executeAll budget program =
      some (r.1, { r.2 with distances := D }) := by
  have hself : st.distances.Renumbers (moveTo ids n) st.distances := by
    intro id
    by_cases hid : id ∈ ids
    · rw [moveTo, if_pos hid, hn, hids id hid]
    · rw [moveTo, if_neg hid]
  have hother : st.distances.Renumbers (moveTo ids n) D := by
    intro id
    by_cases hid : id ∈ ids
    · rw [moveTo, if_pos hid, hnD, hids id hid]
    · rw [moveTo, if_neg hid, hD id hid]
  have hsame : Stmt.renumberAll (moveTo ids n) program = program :=
    Stmt.renumberAll_eq_self fun id hid => if_neg (hprogram id hid)
  -- The store has none of the ids after the program either: renumbering everything changes nothing.
  have hafter : r.2.store.renumber (moveTo ids n) = r.2.store := by
    have hrun := executeAll_renumber hself budget program
    have hst : st.renumber (moveTo ids n) st.distances = st := by simp only [renumber, hstore]
    rw [hst, hsame, h, Option.map_some, Option.some.injEq] at hrun
    exact (congrArg (fun r => r.2.store) hrun).symm
  have hrun := executeAll_renumber hother budget program
  rw [hsame, h, Option.map_some] at hrun
  simp only [renumberState, renumber, hstore, hafter] at hrun
  exact hrun

/-! ## The global scope -/

/-- The scope of the global variables is there. -/
def Rooted (st : Interpreter) : Prop :=
  st.globals < st.store.scopes.size

theorem rooted_new (natives : List Native) (output : Output) (maxCallDepth : Nat)
    (clock : Nat → Float) : Rooted (new natives output maxCallDepth clock) := by
  show 0 < (Store.empty.addScope _).scopes.size
  simp [Store.addScope]

theorem Rooted.of_le (h : st.Rooted) (hglobals : st'.globals = st.globals)
    (hsize : st.store.scopes.size ≤ st'.store.scopes.size) : st'.Rooted := by
  rw [Rooted, hglobals]
  exact Nat.lt_of_lt_of_le h hsize

theorem Rooted.executeAll (h : st.Rooted) (hr : st.executeAll budget program = some r) :
    r.2.Rooted := by
  induction program generalizing st with
  | nil =>
    cases hr
    exact h
  | cons s rest ih =>
    rw [Interpreter.executeAll] at hr
    split at hr
    · next hs => exact ih (h.of_le (execute_samePlace hs).globals (adds_execute h hs).size) hr
    · next hs =>
      cases hr
      exact h.of_le (execute_samePlace hs).globals (adds_execute h hs).size
    · cases hr

theorem Rooted.interpret (h : st.Rooted) (hr : st.interpret budget program = some r) :
    r.2.Rooted := by
  rw [Interpreter.interpret] at hr
  split at hr
  · next hall =>
    have hafter := h.executeAll hall
    cases hr
    exact hafter
  · exact h.executeAll hr

theorem Rooted.evaluate (h : st.Rooted) {e : Expr} {r : Except Fault Value × Interpreter}
    (hr : st.evaluate budget e = some r) : r.2.Rooted := by
  have hconfined : Machine.Confined st.globals [] ⟨.eval e, [], st⟩ :=
    ⟨h, fun _ => List.nil_subset _, .nil⟩
  have hadds := hconfined.run budget
  rw [Machine.state_of_result? hr] at hadds
  exact h.of_le (evaluate_samePlace hr).globals hadds.size

end Interpreter

namespace Session

open Interpreter (Rooted)

variable {s : Session} {budget : Nat} {source : List UInt8}

/-- Between two sources the global scope is there. -/
theorem Reached.rooted {start : Session} (h : Reached start s) (hs : start.interpreter.Rooted) :
    s.interpreter.Rooted :=
  h.keeps (fun _ _ h => h) (fun h hi => h.interpret hi) (fun h hi => h.evaluate hi) hs

end Session

/-! ## Looking at the second piece -/

/-- When the first piece has run, looking at the second finds the errors and the distances that
looking at both in one pass finds. -/
theorem Interpreter.resolve_after {st st₁ st₂ : Interpreter} (hst : st.AtRest) (hrooted : st.Rooted)
    (hP : Stmt.FormedAll P) (hresolve : st.resolve P = ([], st₁))
    (hrun : st₁.interpret budget P = some (.ok (), st₂)) (Q : List Stmt) :
    (st₂.resolve Q).1 = (st.resolve (P ++ Q)).1 ∧
      (st₂.resolve Q).2.distances = (st.resolve (P ++ Q)).2.distances := by
  have hclean := congrArg Prod.fst hresolve
  obtain rfl : (st.resolve P).2 = st₁ := congrArg Prod.snd hresolve
  have hplace := interpret_samePlace hrun
  have hglobals : st₂.globals = st.globals := hplace.globals
  have hknown (name : String) : st₂.store.contains st₂.globals name =
      (decide (name ∈ Stmt.declared P) || st.store.contains st.globals name) := by
    have henv : (st.resolve P).2.env.head? = some st.globals := congrArg List.head? hst.env
    have hscope : st.globals < (st.resolve P).2.store.scopes.size := hrooted
    have hall := contains_executeAll hscope henv hP (executeAll_of_interpret hrun) name
    rw [hglobals, Bool.eq_iff_iff, hall, Bool.or_eq_true, decide_eq_true_eq]
    rfl
  have halike := Stmt.resolveAll_alike Q (Stmt.resolveAll_leaves hP hclean hknown)
  rw [← Stmt.resolveAll_append] at halike
  have hdistances : st₂.distances =
      (Stmt.resolveAll P
        (.start (fun name => st.store.contains st.globals name) st.distances)).distances :=
    hplace.distances
  rw [← hdistances] at halike
  exact ⟨halike.errors.symm, halike.distances.symm⟩

namespace Session

variable {s : Session} {p q : List UInt8} {P Q : List Stmt} {n n' m m' : NodeId}

/-- Moving the ids of a new tree to one beyond it moves only ids that were not given out. -/
theorem beyond_moveTo {ids : List NodeId} (hids : ∀ id ∈ ids, n ≤ id) (hle : n ≤ m) :
    Beyond n (Interpreter.moveTo ids m) := by
  refine ⟨fun id hid => if_neg fun hmem => Nat.not_le.mpr hid (hids id hmem), fun id hid => ?_⟩
  by_cases hmem : id ∈ ids
  · rw [Interpreter.moveTo, if_pos hmem]
    exact hle
  · rw [Interpreter.moveTo, if_neg hmem]
    exact hid

/-- **The first piece does the same if the distances of the second are there already.** -/
theorem Numbered.executeAll_withDistances (h : Numbered s) (hP : Between n m (Stmt.idsAll P))
    (hQ : Between n' m' (Stmt.idsAll Q)) (hn' : s.nextId ≤ n')
    (hdisjoint : ∀ id ∈ Stmt.idsAll P, id ∉ Stmt.idsAll Q) {st : Interpreter}
    (hrun : (s.interpreter.resolve P).2.executeAll budget P = some (.ok (), st)) :
    (s.interpreter.resolve (P ++ Q)).2.executeAll budget P =
      some (.ok (), { st with distances := (s.interpreter.resolve (P ++ Q)).2.distances }) := by
  -- An id that is in neither tree and was not given out.
  obtain ⟨free, hfree, hfreeP, hfreeQ⟩ : ∃ free, s.nextId ≤ free ∧ free ∉ Stmt.idsAll P ∧
      free ∉ Stmt.idsAll Q := by
    refine ⟨max s.nextId (max m m'), Nat.le_max_left _ _, fun hmem => ?_, fun hmem => ?_⟩
    · have := hP.bounds _ hmem
      omega
    · have := hQ.bounds _ hmem
      omega
  have hfirst (id : NodeId) (hid : id ∉ Stmt.idsAll P) :
      (s.interpreter.resolve P).2.distances[id]? = s.interpreter.distances[id]? :=
    (Stmt.touches_resolveAll P _).distances id hid
  have hsecond (id : NodeId) (hid : id ∉ Stmt.idsAll Q) :
      (s.interpreter.resolve (P ++ Q)).2.distances[id]? =
      (s.interpreter.resolve P).2.distances[id]? := by
    simp only [Interpreter.resolve, Interpreter.resolution, Resolution.ofProgram,
      Stmt.resolveAll_append]
    exact (Stmt.touches_resolveAll Q _).distances id hid
  have hnone : (s.interpreter.resolve P).2.distances[free]? = none := by
    rw [hfirst free hfreeP, h.unrecorded free hfree]
  have hstore :
      (s.interpreter.resolve P).2.store.renumber (Interpreter.moveTo (Stmt.idsAll Q) free) =
        (s.interpreter.resolve P).2.store :=
    h.store _ (beyond_moveTo (fun id hid => Nat.le_trans hn' (hQ.bounds id hid).1) hfree)
  refine Interpreter.executeAll_withDistances hstore hdisjoint (fun id hid => ?_) hnone ?_ hsecond
    hrun
  · rw [hfirst id fun hmem => hdisjoint id hmem hid]
    exact h.unrecorded id (Nat.le_trans hn' (hQ.bounds id hid).1)
  · rw [hsecond free hfreeQ, hnone]

/-- **A program that is run in pieces does what it does as a whole.** In a session that sources have
led to, take two lists of statements that were read without an error, the second with new ids that
the first does not have, such that the first breaks no rule and runs without a fault. Looking at the
second then finds the same errors as looking at both in one pass. If there are none, running the
second now and running both from the start come to the same end: the same result in the same state,
with all that was written and all global variables. One ends if and only if the other does. -/
theorem pieces_run_as_whole {natives : List Native} {output : Output} {maxCallDepth : Nat}
    {clock : Nat → Float} (hs : Reached (.new (.new natives output maxCallDepth clock)) s)
    (hp : Parse.ofTokens (Scan.ofSource p).tokens n = ⟨P, [], m, false⟩)
    (hq : Parse.ofTokens (Scan.ofSource q).tokens n' = ⟨Q, [], m', false⟩) (hn' : s.nextId ≤ n')
    (hdisjoint : ∀ id ∈ Stmt.idsAll P, id ∉ Stmt.idsAll Q) {budget : Nat} {st₁ st₂ : Interpreter}
    (hresolve : s.interpreter.resolve P = ([], st₁))
    (hrun : st₁.interpret budget P = some (.ok (), st₂)) :
    (st₂.resolve Q).1 = (s.interpreter.resolve (P ++ Q)).1 ∧
    ((st₂.resolve Q).1 = [] → ∀ result st',
      (∃ budget, (st₂.resolve Q).2.interpret budget Q = some (result, st')) ↔
        ∃ budget, (s.interpreter.resolve (P ++ Q)).2.interpret budget (P ++ Q) =
          some (result, st')) := by
  have hnumbered := hs.numbered (numbered_new natives output maxCallDepth clock)
  have hrest := hs.atRest (Interpreter.new_atRest natives output maxCallDepth clock)
  have hrooted := hs.rooted (Interpreter.rooted_new natives output maxCallDepth clock)
  have hformed : Stmt.FormedAll P := by
    have hformed := Parse.formed_of_source p n
    rw [hp] at hformed
    exact hformed
  have hP : Between n m (Stmt.idsAll P) := by
    have hids := (Parse.ids_between (Scan.ofSource p).tokens n).2
    rw [hp] at hids
    exact hids
  have hQ : Between n' m' (Stmt.idsAll Q) := by
    have hids := (Parse.ids_between (Scan.ofSource q).tokens n').2
    rw [hq] at hids
    exact hids
  obtain ⟨herrors, hdistances⟩ := Interpreter.resolve_after hrest hrooted hformed hresolve hrun Q
  obtain rfl : (s.interpreter.resolve P).2 = st₁ := congrArg Prod.snd hresolve
  -- As a whole, the first piece leads to the state in which the second starts.
  have hfirst :=
    hnumbered.executeAll_withDistances hP hQ hn' hdisjoint
      (Interpreter.executeAll_of_interpret hrun)
  rw [← hdistances] at hfirst
  refine ⟨herrors, fun _ result st' => ⟨?_, ?_⟩⟩
  · rintro ⟨b, hb⟩
    refine ⟨max budget b, ?_⟩
    rw [Interpreter.interpret_append
      (Interpreter.executeAll_mono (Nat.le_max_left budget b) hfirst)]
    exact Interpreter.interpret_mono (Nat.le_max_right budget b) hb
  · rintro ⟨b, hb⟩
    refine ⟨max budget b, ?_⟩
    have hwhole := Interpreter.interpret_mono (Nat.le_max_right budget b) hb
    rw [Interpreter.interpret_append
      (Interpreter.executeAll_mono (Nat.le_max_left budget b) hfirst)] at hwhole
    exact hwhole

/-- The source `var f = f(); print f;`, which is a program only where `f` is known. -/
def redefinition : List UInt8 :=
  "var f = f(); print f;".toUTF8.toList

/-- A function, and then its name given to what it returns: the second piece alone breaks a rule,
but not after the first. -/
theorem greeting_then_redefinition :
    ∃ P Q m m' st₁ st₂ st', Parse.ofTokens (Scan.ofSource greeting).tokens 0 = ⟨P, [], m, false⟩ ∧
      Parse.ofTokens (Scan.ofSource redefinition).tokens 7 = ⟨Q, [], m', false⟩ ∧
      ((Interpreter.new [] .unlimited 9 fun _ => 0).resolve Q).1 ≠ [] ∧
      (Interpreter.new [] .unlimited 9 fun _ => 0).resolve P = ([], st₁) ∧
      st₁.interpret 9 P = some (.ok (), st₂) ∧
      ((Interpreter.new [] .unlimited 9 fun _ => 0).resolve (P ++ Q)).1 = [] ∧
      (∃ budget,
        ((Interpreter.new [] .unlimited 9 fun _ => 0).resolve (P ++ Q)).2.interpret budget
          (P ++ Q) = some (.ok (), st')) ∧ st'.output.text = "hi\n" := by
  obtain ⟨P, m, hp⟩ : ∃ P m, Parse.ofTokens (Scan.ofSource greeting).tokens 0 = ⟨P, [], m, false⟩ :=
    Parse.exists_eq_of_hadError (by decide +kernel)
  obtain ⟨Q, m', hq⟩ : ∃ Q m, Parse.ofTokens (Scan.ofSource redefinition).tokens 7 =
      ⟨Q, [], m, false⟩ :=
    Parse.exists_eq_of_hadError (by decide +kernel)
  have hids : ∀ id ∈ Stmt.idsAll (Parse.ofTokens (Scan.ofSource greeting).tokens 0).program,
      id ∉ Stmt.idsAll (Parse.ofTokens (Scan.ofSource redefinition).tokens 7).program := by
    decide +kernel
  have halone : ((Interpreter.new [] .unlimited 9 fun _ => 0).resolve
      (Parse.ofTokens (Scan.ofSource redefinition).tokens 7).program).1 ≠ [] := by decide +kernel
  have hfirst : ((Interpreter.new [] .unlimited 9 fun _ => 0).resolve
      (Parse.ofTokens (Scan.ofSource greeting).tokens 0).program).1 = [] := by decide +kernel
  have hruns : (((Interpreter.new [] .unlimited 9 fun _ => 0).resolve
        (Parse.ofTokens (Scan.ofSource greeting).tokens 0).program).2.interpret 9
        (Parse.ofTokens (Scan.ofSource greeting).tokens 0).program).bind (fun r =>
      ((r.2.resolve (Parse.ofTokens (Scan.ofSource redefinition).tokens 7).program).2.interpret 30
        (Parse.ofTokens (Scan.ofSource redefinition).tokens 7).program).map fun r' =>
          (r.1.toOption,
            (r.2.resolve (Parse.ofTokens (Scan.ofSource redefinition).tokens 7).program).1.length,
            r'.1.toOption, r'.2.output.text)) = some (some (), 0, some (), "hi\n") := by
    rw [show greeting = _ from Utf8.encode_eq _, show redefinition = _ from Utf8.encode_eq _]
    cbv
  rw [hp, hq] at hids hruns
  rw [hp] at hfirst
  rw [hq] at halone
  obtain ⟨⟨result, st₂⟩, hrun, hruns⟩ := Option.bind_eq_some_iff.mp hruns
  obtain ⟨⟨result', st'⟩, hrun', hruns⟩ := Option.map_eq_some_iff.mp hruns
  simp only [Prod.mk.injEq] at hruns
  obtain ⟨hok, hnone, hok', htext⟩ := hruns
  obtain rfl : result = .ok () := by
    cases result <;> first | rfl | cases hok
  obtain rfl : result' = .ok () := by
    cases result' <;> first | rfl | cases hok'
  have hresolve : (Interpreter.new [] .unlimited 9 fun _ => 0).resolve P = ([], _) :=
    Prod.ext hfirst rfl
  obtain ⟨herrors, hend⟩ := pieces_run_as_whole .start hp hq (Nat.zero_le 7) hids hresolve hrun
  have hclean := List.length_eq_zero_iff.mp hnone
  exact ⟨P, Q, m, m', _, st₂, st', hp, hq, halone, hresolve, hrun, herrors ▸ hclean,
    (hend hclean _ _).mp ⟨30, hrun'⟩, htext⟩

end Session

end Lox
