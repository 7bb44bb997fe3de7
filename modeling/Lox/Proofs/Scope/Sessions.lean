import Lox.Proofs.Scope.Step

/-!
# Moments of a session

A session runs sources one after the other. What an earlier one declared lives on, and a function of
it may be called at any later time, so what is known of a moment is about the visits of all programs
that have run so far (`Session.Ran`, `Session.Moment`). Programs do not share ids, so the distances
of an earlier one stay what they are.

Between two runs a session fits the visits so far (`Session.Fits`), and within a run every machine
does (`Session.Moment.sound`).
-/

namespace Lox

open Interpreter (AtRest SamePlace)

variable {r : Except Fault Unit × Interpreter} {program : List Stmt}

/-- A visit of one of several programs. -/
def Visited (roots : List Visit) (v : Visit) : Prop :=
  ∃ root ∈ roots, root.Within v

/-- The machines that running a program goes through, statement after statement. -/
inductive Interpreter.Passes : Interpreter → List Stmt → Machine → Prop where
  | here {st : Interpreter} {s : Stmt} {rest : List Stmt} (steps : Nat) :
      Passes st (s :: rest) (Machine.run steps ⟨.exec s, [], st⟩)
  | later {st st' : Interpreter} {s : Stmt} {rest : List Stmt} {budget : Nat} {f : Flow}
      {m : Machine} (h : st.execute budget s = some (.ok f, st')) (hm : Passes st' rest m) :
      Passes st (s :: rest) m

namespace Session

/-- The visit of the program that is read from a source. -/
def visit (s : Session) (source : List UInt8) : Visit :=
  ⟨.stmts (s.parse source).program,
    .start (fun name => s.interpreter.store.contains s.interpreter.globals name)
    s.interpreter.distances⟩

/-- The sessions that running sources can lead to, with the visits of the programs that were
accepted. -/
inductive Ran (start : Session) : List Visit → Session → Prop where
  | start : Ran start [] start
  | run {roots : List Visit} {s : Session} {budget : Nat} {source : List UInt8} {r : Run}
      (h : Ran start roots s) (hr : s.run budget source = some r) :
      Ran start (if s.accepts source then s.visit source :: roots else roots) r.session

/-- The machines at work while a session runs an accepted source, with the visits of it and of those
before. -/
inductive Moment (start : Session) : List Visit → Machine → Prop where
  | during {roots : List Visit} {s : Session} {source : List UInt8} {m : Machine}
      (h : Ran start roots s) (haccepts : s.accepts source = true)
      (hm : (s.interpreter.resolve (s.parse source).program).2.Passes (s.parse source).program m) :
      Moment start (s.visit source :: roots) m

end Session

/-! ## Running a program -/

namespace Interpreter

variable {V : Visit → Prop} {g : ScopeId} {D : Distances} {st : Interpreter} {budget : Nat}
  {s : Stmt}

/-- At rest a state fits the top level. -/
theorem AtRest.fits (h : AtRest st) (hs : st.store.Sound V st.globals) :
    st.Fits V st.globals st.distances [] [] [] := by
  refine ⟨rfl, rfl, hs, ?_, ?_⟩
  · rw [h.env]
    exact ⟨.global, fun _ _ hΓ => (nomatch hΓ), hs.globals_lt⟩
  · rw [h.env]
    exact .nil

/-- At the top level a statement leaves no scopes behind. -/
theorem sound_exec {r : Resolver} (hv : V ⟨.stmt s, r⟩) (hr : r.scopes = [])
    (h : st.Fits V g D [] [] []) : Machine.Sound V g D ⟨.exec s, [], st⟩ := by
  refine .exec hv ?_
  have hafter : s.scopesAfter r.scopes = [] := by
    rw [hr, Stmt.scopesAfter]
    split <;> rfl
  rw [hafter, hr]
  exact h

theorem execute_fits (hV : Visit.Family D V) {r : Resolver} (hv : V ⟨.stmt s, r⟩)
    (hr : r.scopes = []) (h : st.Fits V g D [] [] []) (hrest : AtRest st) {e : Ending × Interpreter}
    (he : st.execute budget s = some e) : e.2.Fits V g D [] [] [] := by
  have hplace := execute_samePlace he
  have hstore : e.2.store.Sound V g := by
    have hsound := (sound_exec hv hr h).run hV budget
    rw [← (Machine.state_of_ending? he).2]
    exact hsound.store
  -- The run ends where it began, so of what can have changed only the store matters.
  have hfits :=
    (hrest.of_samePlace hplace).fits (V := V) (by rw [hplace.globals, h.globals]; exact hstore)
  rwa [hplace.globals, h.globals, hplace.distances, h.distances] at hfits

/-- The statements of a program at the top level: the first one, and the others. -/
theorem seen_cons (hV : Visit.Family D V) {rest : List Stmt}
    (h : (Node.stmts (s :: rest)).Seen V []) :
    (∃ r, V ⟨.stmt s, r⟩ ∧ r.scopes = []) ∧ (Node.stmts rest).Seen V [] := by
  obtain ⟨r, hv, hr⟩ := h
  refine ⟨⟨r, hV.first hv rfl, hr⟩, _, hV.second hv rfl, ?_⟩
  show (s.resolve r).scopes = []
  rw [Stmt.scopes_resolve (hV.accepted hv).formed.1, hr, Stmt.scopesAfter]
  split <;> rfl

theorem executeAll_store (hV : Visit.Family D V) (hprogram : (Node.stmts program).Seen V [])
    (h : st.Fits V g D [] [] []) (hrest : AtRest st) (hr : st.executeAll budget program = some r) :
    r.2.store.Sound V g := by
  induction program generalizing st with
  | nil => cases hr; exact h.store
  | cons s rest ih =>
    obtain ⟨⟨rs, hv, hrs⟩, hprogram⟩ := seen_cons hV hprogram
    rw [executeAll] at hr
    split at hr
    · next hs =>
      exact ih hprogram (execute_fits hV hv hrs h hrest hs)
        (hrest.of_samePlace (execute_samePlace hs)) hr
    · next hs =>
      cases hr
      exact (execute_fits hV hv hrs h hrest hs).store
    · cases hr

theorem interpret_store (hV : Visit.Family D V) (hprogram : (Node.stmts program).Seen V [])
    (h : st.Fits V g D [] [] []) (hrest : AtRest st) (hr : st.interpret budget program = some r) :
    r.2.store.Sound V g := by
  rw [interpret] at hr
  split at hr
  · next hs =>
    have hstore := executeAll_store hV hprogram h hrest hs
    cases hr
    exact hstore
  · exact executeAll_store hV hprogram h hrest hr

/-- While a program runs, every machine is at a place of a program. -/
theorem Passes.sound (hV : Visit.Family D V) (hprogram : (Node.stmts program).Seen V [])
    (h : st.Fits V g D [] [] []) (hrest : AtRest st) {m : Machine} (hm : st.Passes program m) :
    Machine.Sound V g D m := by
  induction hm with
  | here steps =>
    obtain ⟨⟨r, hv, hr⟩, -⟩ := seen_cons hV hprogram
    exact (sound_exec hv hr h).run hV steps
  | later hs _ ih =>
    obtain ⟨⟨r, hv, hr⟩, hprogram⟩ := seen_cons hV hprogram
    exact ih hprogram (execute_fits hV hv hr h hrest hs) (hrest.of_samePlace (execute_samePlace hs))

/-- A table of native functions holds nothing else. -/
theorem native_of_find? {natives : List Native} {table : NameTable Value} {name : String}
    {v : Value} (htable : ∀ name v, table.find? name = some v → ∃ n, v = .native n)
    (h : (natives.foldl (fun t n => t.insert n.name (.native n)) table).find? name = some v) :
    ∃ n, v = .native n := by
  induction natives generalizing table with
  | nil => exact htable name v h
  | cons n rest ih =>
    refine ih (fun other w hw => ?_) h
    rw [NameTable.find?_insert] at hw
    split at hw
    · cases hw
      exact ⟨n, rfl⟩
    · exact htable other w hw

section

variable {natives : List Native} {output : Output} {maxCallDepth : Nat} {clock : Nat → Float}

/-- Before anything has run, all variables are native functions. -/
theorem native_of_find?_new {scope : ScopeId} {name : String} {v : Value}
    (h : (new natives output maxCallDepth clock).store.find? scope name = some v) :
    ∃ n, v = .native n := by
  have hfind := (Store.find?_addScope .empty _ scope name).symm.trans h
  split at hfind
  · refine native_of_find? ?_ hfind
    intro name v hv
    cases hv
  · simp [Store.find?, Store.empty] at hfind

theorem field?_new (id : ObjectId) (name : String) :
    (new natives output maxCallDepth clock).store.field? id name = none := by
  simp [new, Store.field?, Store.empty, Store.addScope]

end

end Interpreter

/-! ## From run to run -/

namespace Visit

theorem Accepted.congr {D D' : Distances} {v : Visit} (h : Accepted D v)
    (hD : ∀ id ∈ v.node.ids, D'[id]? = D[id]?) : Accepted D' v :=
  ⟨h.formed, h.clean, h.nodup, h.fresh, fun id hid => (hD id hid).trans (h.kept id hid)⟩

theorem Placed.within {v w : Visit} {D : Distances} (h : v.Placed) (ha : v.Accepted D)
    (hw : v.Within w) : w.Placed := by
  induction hw with
  | refl => exact h
  | part hv hw ih => exact ih.part (ha.within hv).formed _ hw

end Visit

namespace Session

/-- A session between two runs, after the programs of some visits. -/
structure Fits (roots : List Visit) (s : Session) : Prop where
  accepted : ∀ root ∈ roots, root.Accepted s.interpreter.distances
  placed : ∀ root ∈ roots, root.Placed
  nodup : (Visit.idsAll roots).Nodup
  ids_lt : ∀ id ∈ Visit.idsAll roots, id < s.nextId
  unrecorded : ∀ id, s.nextId ≤ id → s.interpreter.distances[id]? = none
  store : s.interpreter.store.Sound (Visited roots) s.interpreter.globals
  rest : AtRest s.interpreter

/-- The program of an accepted source is seen at the top level. -/
theorem seen_program (s : Session) (source : List UInt8) (roots : List Visit) :
    (Node.stmts (s.parse source).program).Seen (Visited (s.visit source :: roots)) [] :=
  ⟨_, ⟨s.visit source, List.mem_cons_self, .refl⟩, rfl⟩

namespace Fits

variable {roots : List Visit} {s : Session} {source : List UInt8} {budget : Nat}

theorem family (h : Fits roots s) : Visit.Family s.interpreter.distances (Visited roots) where
  accepted := fun ⟨root, hroot, hw⟩ => (h.accepted root hroot).within hw
  placed := fun ⟨root, hroot, hw⟩ => (h.placed root hroot).within (h.accepted root hroot) hw
  part := fun ⟨root, hroot, hw⟩ hpart => ⟨root, hroot, hw.part hpart⟩

/-- Looking at a program records distances for new ids only. -/
theorem resolve (h : Fits roots s) (source : List UInt8) :
    Fits roots ⟨(s.interpreter.resolve (s.parse source).program).2, (s.parse source).nextId⟩ := by
  obtain ⟨hle, hids⟩ := Parse.ids_between (Scan.ofSource source).tokens s.nextId
  have htouches := (s.visit source).node.touches_resolve (s.visit source).resolver
  have hrest : AtRest (s.interpreter.resolve (s.parse source).program).2 :=
    ⟨h.rest.env, h.rest.callDepth⟩
  refine ⟨fun root hroot => ?_, h.placed, h.nodup, fun id hid => ?_, fun id hid => ?_, h.store,
    hrest⟩
  · refine (h.accepted root hroot).congr fun id hid => htouches.distances id fun hnew => ?_
    have hlt := h.ids_lt id (List.mem_flatMap.mpr ⟨root, hroot, hid⟩)
    exact Nat.not_le.mpr hlt (hids.bounds id hnew).1
  · exact Nat.lt_of_lt_of_le (h.ids_lt id hid) hle
  · refine (htouches.distances id fun hnew => ?_).trans (h.unrecorded id (Nat.le_trans hle hid))
    exact Nat.not_le.mpr (hids.bounds id hnew).2 hid

/-- An accepted program adds its visit. -/
theorem accept (h : Fits roots s) (hsource : s.accepts source = true) :
    Fits (s.visit source :: roots)
      ⟨(s.interpreter.resolve (s.parse source).program).2, (s.parse source).nextId⟩ := by
  obtain ⟨-, -, hclean⟩ := accepts_iff.mp hsource
  obtain ⟨hle, hids⟩ := Parse.ids_between (Scan.ofSource source).tokens s.nextId
  have hresolve := h.resolve source
  have haccepted :
      (s.visit source).Accepted (s.interpreter.resolve (s.parse source).program).2.distances := by
    refine ⟨Parse.formed_of_source source s.nextId, hclean, hids.nodup, fun id hid => ?_,
      fun _ _ => rfl⟩
    exact h.unrecorded id (hids.bounds id hid).1
  have hplaced : (s.visit source).Placed := ⟨.nil, fun _ hmem => by cases hmem⟩
  refine ⟨?_, ?_, ?_, ?_, hresolve.unrecorded, ?_, hresolve.rest⟩
  · exact List.forall_mem_cons.mpr ⟨haccepted, hresolve.accepted⟩
  · exact List.forall_mem_cons.mpr ⟨hplaced, hresolve.placed⟩
  · -- The new ids come after all those used before.
    refine List.nodup_append.mpr ⟨hids.nodup, h.nodup, fun id hid other hother heq => ?_⟩
    have hlt := h.ids_lt other hother
    exact Nat.not_le.mpr (heq ▸ hlt) (hids.bounds id hid).1
  · intro id hid
    rcases List.mem_append.mp hid with hnew | hold
    · exact (hids.bounds id hnew).2
    · exact hresolve.ids_lt id hold
  · refine hresolve.store.mono fun v hv => ?_
    obtain ⟨root, hroot, hw⟩ := hv
    exact ⟨root, List.mem_cons_of_mem _ hroot, hw⟩

/-- Running a program leaves sound values only, however it ends. -/
theorem interpret {st : Interpreter} {n : NodeId} (h : Fits roots ⟨st, n⟩)
    (hprogram : (Node.stmts program).Seen (Visited roots) [])
    (hr : st.interpret budget program = some r) : Fits roots ⟨r.2, n⟩ := by
  have hplace := Interpreter.interpret_samePlace hr
  have hstore := Interpreter.interpret_store h.family hprogram (h.rest.fits h.store) h.rest hr
  refine ⟨?_, h.placed, h.nodup, h.ids_lt, ?_, ?_, h.rest.of_samePlace hplace⟩
  · rw [hplace.distances]
    exact h.accepted
  · rw [hplace.distances]
    exact h.unrecorded
  · rw [hplace.globals]
    exact hstore

/-- Ids may be left out. -/
theorem skip (h : Fits roots s) {n : NodeId} (hle : s.nextId ≤ n) : Fits roots ⟨s.interpreter, n⟩ :=
  ⟨h.accepted, h.placed, h.nodup, fun id hid => Nat.lt_of_lt_of_le (h.ids_lt id hid) hle,
    fun id hid => h.unrecorded id (Nat.le_trans hle hid), h.store, h.rest⟩

/-- Running a source. -/
theorem run {r : Run} (h : Fits roots s) (hr : s.run budget source = some r) :
    Fits (if s.accepts source then s.visit source :: roots else roots) r.session := by
  cases ends_of_run hr with
  | unread hne =>
    have hrefused : ¬ s.accepts source = true := fun haccepts => by
      obtain ⟨hscan, hparse, -⟩ := accepts_iff.mp haccepts
      exact hne (syntaxReports_eq_nil.mpr ⟨hscan, hparse⟩)
    rw [if_neg hrefused]
    exact h.skip (Parse.ids_between (Scan.ofSource source).tokens s.nextId).1
  | refused _ hresolve hne =>
    have hrefused : ¬ s.accepts source = true := fun haccepts => by
      have hnil := (accepts_iff.mp haccepts).2.2
      rw [hresolve] at hnil
      exact hne hnil
    have hfits := h.resolve source
    rw [hresolve] at hfits
    rw [if_neg hrefused]
    exact hfits
  | ran hread hresolve hi | failed hread hresolve hi =>
    have haccepts := accepts_of_resolve hread hresolve
    have hfits := h.accept haccepts
    rw [hresolve] at hfits
    rw [if_pos haccepts]
    exact hfits.interpret (seen_program s source roots) hi

/-- A session in which nothing has run. -/
theorem new (natives : List Native) (output : Output) (maxCallDepth : Nat) (clock : Nat → Float) :
    Fits [] (Session.new (Interpreter.new natives output maxCallDepth clock)) := by
  refine ⟨fun _ h => (nomatch h), fun _ h => (nomatch h), List.nodup_nil, fun _ h => (nomatch h),
    fun id _ => ?_, ?_, Interpreter.new_atRest natives output maxCallDepth clock⟩
  · exact Std.HashMap.getElem?_empty
  · refine ⟨Nat.zero_lt_one, fun scope name v hv => ?_, fun id name v hv => ?_⟩
    · obtain ⟨n, rfl⟩ := Interpreter.native_of_find?_new hv
      trivial
    · cases (Interpreter.field?_new id name).symm.trans hv

end Fits

/-- What is known between two runs. -/
theorem Ran.fits {start : Session} (hstart : Fits [] start) {roots : List Visit} {s : Session}
    (h : Ran start roots s) :
    Fits roots s := by
  induction h with
  | start => exact hstart
  | run _ hr ih => exact ih.run hr

/-- At every moment of a session the machine is at a place of a program that was accepted. -/
theorem Moment.sound {start : Session} (hstart : Fits [] start) {roots : List Visit} {m : Machine}
    (h : Moment start roots m) :
    ∃ s : Session, Fits roots s ∧
      Machine.Sound (Visited roots) s.interpreter.globals s.interpreter.distances m := by
  cases h with
  | @during roots s source m h haccepts hm =>
    have hfits := (h.fits hstart).accept haccepts
    exact ⟨_, hfits,
      hm.sound hfits.family (seen_program s source roots) (hfits.rest.fits hfits.store) hfits.rest⟩

end Session

end Lox
