import Lox.Proofs.Lexical.Step
import Lox.Proofs.Scope.Sessions

/-!
# The history of a session

What a scope holds was decided when it was made, perhaps in an earlier run of the session. So a
moment is looked at together with its past, which is the list of all machines that have taken a step
in the session so far (`Session.MomentAfter`).

Between two runs the store of a session follows a plan whose scopes were all made in the past
(`Session.Recalls`), and at each moment the machine does (`Session.MomentAfter.lexical`).
-/

namespace Lox

open Interpreter (AtRest)

variable {program : List Stmt} {m : Machine} {start s : Session} {roots : List Visit}

/-- A visit of one of several programs, inside some enclosures. -/
def Located (roots : List Visit) (E : List Enclosure) (v : Visit) : Prop :=
  ∃ root ∈ roots, root.Inside E v

/-! ## Histories -/

namespace Interpreter

/-- The machines that take a step while a program runs, in order. -/
def taken (budget : Nat) (st : Interpreter) : List Stmt → List Machine
  | [] => []
  | s :: rest => Machine.taken budget ⟨.exec s, [], st⟩ ++
    match st.execute budget s with
    | some (.ok _, st) => st.taken budget rest
    | _ => []

/-- The machines that running a program goes through, with those that took a step before them. -/
inductive PassesAfter : Interpreter → List Stmt → List Machine → Machine → Prop where
  | here {st : Interpreter} {s : Stmt} {rest : List Stmt} (steps : Nat) :
      PassesAfter st (s :: rest) (Machine.taken steps ⟨.exec s, [], st⟩)
      (Machine.run steps ⟨.exec s, [], st⟩)
  | later {st st' : Interpreter} {s : Stmt} {rest : List Stmt} {budget : Nat} {f : Flow}
      {past : List Machine} {m : Machine} (h : st.execute budget s = some (.ok f, st'))
      (hm : PassesAfter st' rest past m) :
      PassesAfter st (s :: rest) (Machine.taken budget ⟨.exec s, [], st⟩ ++ past) m

theorem Passes.after {st : Interpreter} (h : st.Passes program m) :
    ∃ past, st.PassesAfter program past m := by
  induction h with
  | here steps => exact ⟨_, .here steps⟩
  | later h _ ih =>
    obtain ⟨past, hm⟩ := ih
    exact ⟨_, .later h hm⟩

end Interpreter

namespace Session

/-- The machines that take a step while a source is run. -/
def taken (budget : Nat) (s : Session) (source : List UInt8) : List Machine :=
  if s.accepts source then (s.interpreter.resolve (s.parse source).program).2.taken budget
    (s.parse source).program
  else []

/-- The sessions that running sources can lead to, with the visits of the programs that were
accepted and with all machines that have taken a step. -/
inductive RanAfter (start : Session) : List Visit → List Machine → Session → Prop where
  | start : RanAfter start [] [] start
  | run {roots : List Visit} {past : List Machine} {s : Session} {budget : Nat}
      {source : List UInt8} {r : Run} (h : RanAfter start roots past s)
      (hr : s.run budget source = some r) :
      RanAfter start (if s.accepts source then s.visit source :: roots else roots)
      (past ++ s.taken budget source)
        r.session

/-- The machines at work while a session runs an accepted source, with the visits of it and of those
before, and with all machines that have taken a step before. -/
inductive MomentAfter (start : Session) : List Visit → List Machine → Machine → Prop where
  | during {roots : List Visit} {past new : List Machine} {s : Session} {source : List UInt8}
      {m : Machine} (h : RanAfter start roots past s) (haccepts : s.accepts source = true)
      (hm : (s.interpreter.resolve (s.parse source).program).2.PassesAfter (s.parse source).program
        new m) :
      MomentAfter start (s.visit source :: roots) (past ++ new) m

theorem Ran.after (h : Ran start roots s) : ∃ past, RanAfter start roots past s := by
  induction h with
  | start => exact ⟨[], .start⟩
  | run _ hr ih =>
    obtain ⟨past, h⟩ := ih
    exact ⟨_, h.run hr⟩

/-- Each moment has a past. -/
theorem Moment.after (h : Moment start roots m) : ∃ past, MomentAfter start roots past m := by
  cases h with
  | during h haccepts hm =>
    obtain ⟨past, h⟩ := h.after
    obtain ⟨new, hm⟩ := hm.after
    exact ⟨_, .during h haccepts hm⟩

end Session

/-! ## Running a program -/

/-- All planned scopes were made by machines of the past. -/
def Plan.MadeBy (past : List Machine) (plan : Plan) : Prop :=
  ∀ scope site, plan scope = some site → site.maker ∈ past

namespace Interpreter

variable {r : Except Fault Unit × Interpreter}

/-- A state between two statements of a program, after a past in which its scopes were made. -/
structure Recalls (L : List Enclosure → Visit → Prop) (past : List Machine) (st : Interpreter) :
    Prop where
  rest : AtRest st
  follows : ∃ plan : Plan, plan.MadeBy past ∧ st.store.Follows L plan st.globals

variable {L L' : List Enclosure → Visit → Prop} {past : List Machine} {st : Interpreter}
  {budget : Nat}

/-- A statement that starts at the top level. -/
theorem Recalls.exec (h : st.Recalls L past) {s : Stmt} (hn : (Node.stmt s).Placed L []) :
    ∃ plan : Plan, plan.MadeBy past ∧
      Machine.Lexical L plan st.globals st.distances ⟨.exec s, [], st⟩ := by
  obtain ⟨plan, hmade, hstore⟩ := h.follows
  exact ⟨plan, hmade, .exec hn rfl ⟨rfl, rfl, hstore, h.rest.env, .nil⟩⟩

/-- While a statement runs at the top level, all scopes were made before or on the way. -/
theorem Recalls.run (hL : Visit.Lexicon st.distances L) (h : st.Recalls L past) {s : Stmt}
    (hn : (Node.stmt s).Placed L []) (steps : Nat) :
    ∃ plan : Plan, plan.MadeBy (past ++ Machine.taken steps ⟨.exec s, [], st⟩) ∧
      Machine.Lexical L plan st.globals st.distances (Machine.run steps ⟨.exec s, [], st⟩) := by
  obtain ⟨plan, hmade, hexec⟩ := h.exec hn
  obtain ⟨plan', -, hnew, hrun⟩ := hexec.run hL steps
  refine ⟨plan', fun scope site hsite => ?_, hrun⟩
  rcases hnew scope site hsite with hold | hnow
  · exact List.mem_append_left _ (hmade scope site hold)
  · exact List.mem_append_right _ hnow

theorem Recalls.execute (hL : Visit.Lexicon st.distances L) (h : st.Recalls L past) {s : Stmt}
    (hn : (Node.stmt s).Placed L []) {e : Ending × Interpreter}
    (he : st.execute budget s = some e) :
    e.2.Recalls L (past ++ Machine.taken budget ⟨.exec s, [], st⟩) := by
  have hplace := execute_samePlace he
  obtain ⟨plan, hmade, hrun⟩ := h.run hL hn budget
  have hstore := hrun.store
  rw [(Machine.state_of_ending? he).2] at hstore
  refine ⟨h.rest.of_samePlace hplace, plan, hmade, ?_⟩
  rw [hplace.globals]
  exact hstore

/-- The statements of a program at the top level: the first one, and the others. -/
theorem placed_cons {D : Distances} (hL : Visit.Lexicon D L) {s : Stmt} {rest : List Stmt}
    (h : (Node.stmts (s :: rest)).Placed L []) :
    (Node.stmt s).Placed L [] ∧ (Node.stmts rest).Placed L [] := by
  obtain ⟨r, hv⟩ := h
  exact ⟨⟨_, hL.first hv rfl⟩, _, hL.second hv rfl⟩

theorem Recalls.executeAll (hL : Visit.Lexicon st.distances L) (h : st.Recalls L past)
    (hn : (Node.stmts program).Placed L []) (hr : st.executeAll budget program = some r) :
    r.2.Recalls L (past ++ st.taken budget program) := by
  induction program generalizing st past with
  | nil =>
    cases hr
    rw [taken, List.append_nil]
    exact h
  | cons s rest ih =>
    obtain ⟨hs, hrest⟩ := placed_cons hL hn
    rw [Interpreter.executeAll] at hr
    rw [taken, ← List.append_assoc]
    split at hr
    · next he =>
      rw [he]
      have hplace := execute_samePlace he
      exact ih (hplace.distances ▸ hL) (h.execute hL hs he) hrest hr
    · next he =>
      rw [he]
      cases hr
      rw [List.append_nil]
      exact h.execute hL hs he
    · cases hr

theorem Recalls.interpret (hL : Visit.Lexicon st.distances L) (h : st.Recalls L past)
    (hn : (Node.stmts program).Placed L []) (hr : st.interpret budget program = some r) :
    r.2.Recalls L (past ++ st.taken budget program) := by
  rw [Interpreter.interpret] at hr
  split at hr
  · next he =>
    have hrecalls := h.executeAll hL hn he
    cases hr
    exact hrecalls
  · exact h.executeAll hL hn hr

/-- While a program runs, every machine is at a place of the text, and all scopes were made
before. -/
theorem PassesAfter.lexical (hL : Visit.Lexicon st.distances L) (h : st.Recalls L past)
    (hn : (Node.stmts program).Placed L []) {new : List Machine}
    (hm : st.PassesAfter program new m) :
    ∃ plan : Plan, plan.MadeBy (past ++ new) ∧ m.Lexical L plan st.globals st.distances := by
  induction hm generalizing past with
  | here steps => exact h.run hL (placed_cons hL hn).1 steps
  | later he _ ih =>
    obtain ⟨hs, hrest⟩ := placed_cons hL hn
    have hplace := execute_samePlace he
    obtain ⟨plan, hmade, hlexical⟩ := ih (hplace.distances ▸ hL) (h.execute hL hs he) hrest
    rw [hplace.globals, hplace.distances] at hlexical
    rw [List.append_assoc] at hmade
    exact ⟨plan, hmade, hlexical⟩

theorem Recalls.mono (h : st.Recalls L past) (hL : ∀ E v, L E v → L' E v) : st.Recalls L' past := by
  obtain ⟨plan, hmade, hstore⟩ := h.follows
  exact ⟨h.rest, plan, hmade, hstore.mono hL⟩

end Interpreter

/-! ## From run to run -/

namespace Session

variable {source : List UInt8} {E : List Enclosure} {past : List Machine}

/-- A session between two runs, after the programs of some visits and a past in which its scopes
were made. -/
structure Recalls (roots : List Visit) (past : List Machine) (s : Session) : Prop where
  fits : Fits roots s
  known : ∀ root ∈ roots, root.At []
  recalls : s.interpreter.Recalls (Located roots) past

/-- The program of a source stands at the top level. -/
theorem visit_known (s : Session) (source : List UInt8) : (s.visit source).At [] :=
  ⟨Parse.legal source s.nextId, ⟨rfl, fun _ _ _ _ => trivial⟩, .nil, rfl, fun _ => rfl⟩

theorem placed_program (s : Session) (source : List UInt8) (roots : List Visit) :
    (Node.stmts (s.parse source).program).Placed (Located (s.visit source :: roots)) [] :=
  ⟨_, s.visit source, List.mem_cons_self, .refl⟩

theorem located_cons (root : Visit) {v : Visit} (h : Located roots E v) :
    Located (root :: roots) E v := by
  obtain ⟨root', hroot', hinside⟩ := h
  exact ⟨root', List.mem_cons_of_mem _ hroot', hinside⟩

/-- A source that is not accepted changes no variable. -/
theorem store_of_refused (h : s.accepts source = false) {budget : Nat} {r : Run}
    (hr : s.run budget source = some r) :
    r.session.interpreter.store = s.interpreter.store ∧
      r.session.interpreter.globals = s.interpreter.globals := by
  cases ends_of_run hr with
  | unread => exact ⟨rfl, rfl⟩
  | refused _ hresolve =>
    obtain rfl := congrArg Prod.snd hresolve
    exact ⟨rfl, rfl⟩
  | ran hread hresolve | failed hread hresolve =>
    rw [accepts_of_resolve hread hresolve] at h
    cases h

namespace Recalls

variable {roots : List Visit} {past : List Machine} {s : Session}

/-- The places of all programs that have run. -/
theorem lexicon (h : Recalls roots past s) :
    Visit.Lexicon s.interpreter.distances (Located roots) where
  accepted := by
    rintro E v ⟨root, hroot, hinside⟩
    exact (h.fits.accepted root hroot).within hinside.within
  known := by
    rintro E v ⟨root, hroot, hinside⟩
    induction hinside with
    | refl => exact h.known root hroot
    | part hv hw ih => exact ih.part ((h.fits.accepted root hroot).within hv.within).formed hw
  part := by
    rintro E v w ⟨root, hroot, hinside⟩ hw
    exact ⟨root, hroot, hinside.part hw⟩

/-- An accepted program adds its places. -/
theorem accept (h : Recalls roots past s) (hsource : s.accepts source = true) :
    Recalls (s.visit source :: roots) past
      ⟨(s.interpreter.resolve (s.parse source).program).2, (s.parse source).nextId⟩ := by
  have hfits := h.fits.accept hsource
  refine ⟨hfits, List.forall_mem_cons.mpr ⟨visit_known _ _, h.known⟩, hfits.rest, ?_⟩
  exact (h.recalls.mono fun _ _ hv => located_cons (s.visit source) hv).follows

/-- Running a source. -/
theorem run (h : Recalls roots past s) {budget : Nat} {r : Run}
    (hr : s.run budget source = some r) :
    Recalls (if s.accepts source then s.visit source :: roots else roots)
      (past ++ s.taken budget source)
      r.session := by
  have hfits := h.fits.run hr
  cases haccepts : s.accepts source with
  | true =>
    have haccept := h.accept haccepts
    rw [haccepts] at hfits
    refine ⟨hfits, haccept.known, ?_⟩
    rw [Session.taken, if_pos haccepts]
    rw [run_of_accepts haccepts] at hr
    obtain ⟨x, hi, rfl⟩ := Option.map_eq_some_iff.mp hr
    rw [interpreter_ended]
    exact haccept.recalls.interpret haccept.lexicon (placed_program s source roots) hi
  | false =>
    obtain ⟨hstore, hglobals⟩ := store_of_refused haccepts hr
    rw [haccepts] at hfits
    obtain ⟨plan, hmade, hfollows⟩ := h.recalls.follows
    refine ⟨hfits, h.known, hfits.rest, plan, ?_, ?_⟩
    · rw [Session.taken, haccepts]
      simpa using hmade
    · rw [hstore, hglobals]
      exact hfollows

/-- A session in which nothing has run. -/
theorem new (natives : List Native) (output : Output) (maxCallDepth : Nat) (clock : Nat → Float) :
    Recalls [] [] (Session.new (Interpreter.new natives output maxCallDepth clock)) := by
  have hfits := Fits.new natives output maxCallDepth clock
  refine ⟨hfits, fun _ h => (by cases h), hfits.rest, fun _ => none, fun _ _ h => (by cases h), ?_⟩
  refine ⟨Nat.zero_lt_one, rfl, fun _ _ h => (by cases h), fun _ _ h => (by cases h),
    fun _ _ h => (by cases h), fun scope name v hv => ?_, fun id name v hv => ?_⟩
  · obtain ⟨n, rfl⟩ := Interpreter.native_of_find?_new hv
    trivial
  · cases (Interpreter.field?_new id name).symm.trans hv

end Recalls

/-- What is known between two runs. -/
theorem RanAfter.recalls (hstart : Recalls [] [] start) (h : RanAfter start roots past s) :
    Recalls roots past s := by
  induction h with
  | start => exact hstart
  | run _ hr ih => exact ih.run hr

/-- A node that holds an id stands inside the same enclosures at all its visits. -/
theorem Fits.unique_enclosures (h : Fits roots s) {node : Node} {r r' : Resolver}
    {E' : List Enclosure} (hv : Located roots E ⟨node, r⟩) (hv' : Located roots E' ⟨node, r'⟩)
    (hids : node.ids ≠ []) : E' = E := by
  obtain ⟨id, hid⟩ := List.exists_mem_of_ne_nil _ hids
  obtain ⟨root, hroot, hw⟩ := hv
  obtain ⟨root', hroot', hw'⟩ := hv'
  obtain rfl :=
    Visit.eq_of_mem_idsAll h.nodup hroot hroot' (hw.within.mem_ids id hid)
      (hw'.within.mem_ids id hid)
  exact hw.unique (h.accepted root hroot).nodup hw' hid rfl

/-- At every moment of a session the machine is at a place of the text, and all scopes were made in
the past. -/
theorem MomentAfter.lexical (hstart : Recalls [] [] start) (h : MomentAfter start roots past m) :
    ∃ (s : Session) (plan : Plan), Fits roots s ∧
      Visit.Lexicon s.interpreter.distances (Located roots) ∧
      plan.MadeBy past ∧
      m.Lexical (Located roots) plan s.interpreter.globals s.interpreter.distances := by
  cases h with
  | @during roots past new s source m h haccepts hm =>
    have haccept := (h.recalls hstart).accept haccepts
    obtain ⟨plan, hmade, hlexical⟩ :=
      hm.lexical haccept.lexicon haccept.recalls (placed_program s source roots)
    exact ⟨_, plan, haccept.fits, haccept.lexicon, hmade, hlexical⟩

end Session

end Lox
