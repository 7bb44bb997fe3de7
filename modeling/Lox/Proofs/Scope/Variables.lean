import Lox.Proofs.Scope.Sessions
import Lox.Proofs.Text.Utf8

/-!
# Variables of a running program

The scopes that the walk knew at a node and the environment in which the node is run are the same in
number, and a distance found by the first leads to the variable in the second
(`environments_match_scopes`). Reading a variable at a recorded distance thus never fails. Assigning
to one can: in `var a = a = nil;` inside a block, the name `a` is declared when the walk comes to
the assignment, so it gets a distance, but it is not bound until the initial value is there. This is
the only way (`assignment_at_distance`), since the walk refuses such a use of a name for reading but
not for writing.
-/

namespace Lox

variable {id : NodeId} {name : String} {d : Nat} {t : NameTable Bool}

/-- The node that a control asks to be run. -/
def Control.node? : Control → Option Node
  | .eval e => some (.expr e)
  | .exec s => some (.stmt s)
  | _ => none

/-! ## Visits -/

/-- A node that holds an id has one visit only. -/
theorem Session.Fits.unique {roots : List Visit} {s : Session} (h : Fits roots s) {node : Node}
    {r r' : Resolver} (hv : Visited roots ⟨node, r⟩) (hv' : Visited roots ⟨node, r'⟩)
    (hids : node.ids ≠ []) : r' = r := by
  obtain ⟨id, hid⟩ := List.exists_mem_of_ne_nil _ hids
  obtain ⟨root, hroot, hw⟩ := hv
  obtain ⟨root', hroot', hw'⟩ := hv'
  obtain rfl := Visit.eq_of_mem_idsAll h.nodup hroot hroot' (hw.mem_ids id hid) (hw'.mem_ids id hid)
  have heq := Visit.Within.unique (h.accepted root hroot).nodup hw hw' hid rfl
  injection heq with _ hr
  exact hr.symm

/-! ## Reading -/

/-- A name other than that of the class is found where it was before the class was declared. -/
theorem Expr.Sees.find? {e : Expr} {Γ' Γ : Scopes} (h : e.Sees Γ' Γ)
    (hname : e.reads? = some (id, name)) (hd : Γ'[d]? = some t) (ht : t.find? name = some true) :
    ∃ u, Γ[d]? = some u ∧ u.find? name = some true := by
  rcases h with rfl | ⟨id', token, cls, rfl, hne, rfl⟩
  · exact ⟨t, hd, ht⟩
  · cases hname
    cases Γ with
    | nil => cases hd
    | cons u outer =>
      cases d with
      | zero =>
        cases hd
        rw [NameTable.find?_insert, if_neg hne.symm] at ht
        exact ⟨u, rfl, ht⟩
      | succ d => exact ⟨t, hd, ht⟩

theorem Env.Agrees.getAt? {g : ScopeId} {s : Store} {env : Env} {Γ : Scopes}
    (h : Env.Agrees g s env Γ) (hd : Γ[d]? = some t) (ht : t.find? name = some true) :
    ∃ v, s.getAt? env d name = some v := by
  obtain ⟨scope, hscope, hbound⟩ := h.bound hd ht
  obtain ⟨v, hv⟩ := s.contains_iff.mp hbound
  refine ⟨v, ?_⟩
  rw [Store.getAt?, hscope]
  exact hv

section Reading

variable {V : Visit → Prop} {g : ScopeId} {D : Distances} {st : Interpreter} {Γ : Scopes} {e : Expr}
  {r : Resolver}

/-- A variable that is read is bound at its distance. -/
theorem getAt?_of_reads? (hV : Visit.Family D V) (hv : V ⟨.expr e, r⟩) (hsees : e.Sees r.scopes Γ)
    (henv : Env.Matches g st.store st.env Γ) (hname : e.reads? = some (id, name))
    (hd : D[id]? = some d) : ∃ v, st.store.getAt? st.env d name = some v := by
  have haccepted := hV.accepted hv
  have htidy := (hV.placed hv).1
  rw [haccepted.distance (Expr.names?_of_reads? hname)] at hd
  obtain ⟨t, ht, hdefined⟩ :=
    Resolver.defined_of_distance? htidy (haccepted.isUndefinedHere htidy hname) hd
  obtain ⟨u, hu, hdefined⟩ := hsees.find? hname ht hdefined
  exact henv.agrees.getAt? hu hdefined

/-- One scope inside that of `super` the name `this` is bound. -/
theorem getAt?_of_superRef (hV : Visit.Family D V) {word method : Token}
    (hv : V ⟨.expr (.superRef id word method), r⟩) (henv : Env.Matches g st.store st.env r.scopes)
    (hd : D[id]? = some d) : ∃ v, st.store.getAt? st.env (d - 1) "this" = some v := by
  have haccepted := hV.accepted hv
  have htidy := (hV.placed hv).1
  rw [haccepted.distance rfl] at hd
  obtain ⟨hlt, hcontains, -⟩ := List.findIdx?_eq_some_iff_getElem.mp hd
  have hget := List.getElem?_eq_getElem hlt
  cases d with
  | zero =>
    -- The innermost scope never holds `super`: that of `this` is always inside.
    rw [← List.head?_eq_getElem?] at hget
    rw [htidy.no_super _ hget] at hcontains
    cases hcontains
  | succ d =>
    obtain ⟨t, ht, hthis⟩ := htidy.paired d _ hget hcontains
    exact henv.agrees.getAt? ht hthis

theorem Interpreter.lookUp_eq_ok {name : Token} {v : Value} (hd : st.distances[id]? = some d)
    (hv : st.store.getAt? st.env d name.lexeme = some v) : st.lookUp id name = .ok v := by
  simp only [lookUp, hd, hv, found]

theorem Interpreter.superBinding_ne {word : Token} {c o : Value} (hd : st.distances[id]? = some d)
    (hc : st.store.getAt? st.env d "super" = some c)
    (ho : st.store.getAt? st.env (d - 1) "this" = some o) (line : Nat) (x : String) :
    st.superBinding id word ≠ .error (.runtime line (.undefinedVariable x)) := by
  simp only [superBinding, hd, hc, ho]
  split <;> simp_all

/-- Reading at a recorded distance never misses a variable. -/
theorem stepEval_reads_ne (hV : Visit.Family D V) (hv : V ⟨.expr e, r⟩) (hsees : e.Sees r.scopes Γ)
    (hdistances : st.distances = D) (henv : Env.Matches g st.store st.env Γ)
    (hname : e.reads? = some (id, name)) (hd : D[id]? = some d) (frames : List Frame) (line : Nat)
    (x : String) :
    (Machine.stepEval e frames st).control ≠ .fault (.runtime line (.undefinedVariable x)) := by
  obtain ⟨v, hfind⟩ := getAt?_of_reads? hV hv hsees henv hname hd
  have hd' : st.distances[id]? = some d := hdistances ▸ hd
  cases e with
  | «variable» _ token =>
    cases hname
    rw [Machine.stepEval, Interpreter.lookUp_eq_ok hd' hfind]
    exact fun h => by cases h
  | thisRef _ word =>
    cases hname
    have hword : word.lexeme = "this" := (hV.accepted hv).formed
    rw [← hword] at hfind
    rw [Machine.stepEval, Interpreter.lookUp_eq_ok hd' hfind]
    exact fun h => by cases h
  | superRef _ word method =>
    cases hname
    obtain rfl : r.scopes = Γ := by
      rcases hsees with h | ⟨_, _, _, h, -⟩
      · exact h
      · cases h
    obtain ⟨o, hthis⟩ := getAt?_of_superRef hV hv henv hd
    rw [Machine.stepEval, Interpreter.superMethod]
    split
    · next c o _ =>
      cases c.findMethod? method.lexeme with
      | some m => exact fun h => by cases h
      | none => exact fun h => by cases h
    · next f hbinding =>
      intro hfault
      cases hfault
      exact Interpreter.superBinding_ne hd' hfind hthis line x hbinding
  | _ => cases hname

end Reading

/-! ## Assigning -/

section Assigning

variable {V : Visit → Prop} {g : ScopeId} {D : Distances} {st : Interpreter} {id : NodeId}
  {name : Token} {value : Expr} {r : Resolver} {d : Nat}

/-- A target that is not in the middle of its own declaration is bound at its distance. -/
theorem contains_of_assign (hV : Visit.Family D V) (hv : V ⟨.expr (.assign id name value), r⟩)
    (henv : Env.Matches g st.store st.env r.scopes) (hd : D[id]? = some d)
    (hhere : r.isUndefinedHere name.lexeme = false) :
    ∃ scope, st.env[d]? = some scope ∧ st.store.contains scope name.lexeme = true := by
  rw [(hV.accepted hv).distance rfl] at hd
  obtain ⟨t, ht, hdefined⟩ := Resolver.defined_of_distance? (hV.placed hv).1 hhere hd
  exact henv.agrees.bound ht hdefined

/-- A target in the middle of its own declaration is looked for in the innermost scope, which does
not have it. -/
theorem not_contains_of_assign (hV : Visit.Family D V) (hv : V ⟨.expr (.assign id name value), r⟩)
    (henv : Env.Matches g st.store st.env r.scopes) (hd : D[id]? = some d)
    (hhere : r.isUndefinedHere name.lexeme = true) :
    d = 0 ∧ st.store.binderAt? st.env d name.lexeme = none := by
  obtain ⟨t, outer, hscopes, hfalse, hzero⟩ := Resolver.distance?_of_isUndefinedHere hhere
  rw [(hV.accepted hv).distance rfl, hzero] at hd
  cases hd
  refine ⟨rfl, ?_⟩
  unfold Store.binderAt?
  split
  · next scope hscope =>
    have htop : st.env.top = scope := by
      rw [← List.head?_eq_getElem?] at hscope
      rw [Env.top, List.headD_eq_head?_getD, hscope, Option.getD_some]
    split
    · next hbound =>
      -- A bound name is defined in the innermost scope, but this one is only declared.
      have htrue := henv.exact t outer hscopes name.lexeme (htop ▸ hbound)
      rw [hfalse] at htrue
      cases htrue
    · rfl
  · rfl

theorem Interpreter.target?_of_distance (hd : st.distances[id]? = some d) :
    st.target? id name.lexeme = st.store.binderAt? st.env d name.lexeme := by
  simp only [target?, hd]

end Assigning

/-! ## Moments -/

/-- The machine that is some steps into the first statement of a source. -/
def Session.into (s : Session) (source : List UInt8) (steps : Nat) : Machine :=
  Machine.run steps ⟨.exec ((s.parse source).program.headD (.block [])), [],
    (s.interpreter.resolve (s.parse source).program).2⟩

theorem Session.moment_into {s : Session} {source : List UInt8} (haccepts : s.accepts source = true)
    (hprogram : (s.parse source).program.isEmpty = false) (steps : Nat) :
    Moment s [s.visit source] (s.into source steps) := by
  refine .during .start haccepts ?_
  unfold into
  generalize (s.interpreter.resolve (s.parse source).program).2 = st
  cases hp : (s.parse source).program with
  | nil => rw [hp] at hprogram; cases hprogram
  | cons stmt rest => exact .here steps

section Moments

variable (natives : List Native) (output : Output) (maxCallDepth : Nat) (clock : Nat → Float)

/-- **The scopes known at a node and the environment in which it is run agree.** At every moment of
a session at which a node is about to be run, the walk has come to that node, and just once if the
node holds an id; the environment has as many scopes before the global one as were known there. If
the node reads a variable that has a recorded distance, then the scope that far out has the
variable, and the step does not miss one. -/
theorem environments_match_scopes {roots : List Visit} {m : Machine}
    (h : Session.Moment (.new (.new natives output maxCallDepth clock)) roots m) {node : Node}
    (hnode : m.control.node? = some node) :
    ∃ r, Visited roots ⟨node, r⟩ ∧
      (node.ids ≠ [] → ∀ r', Visited roots ⟨node, r'⟩ → r' = r) ∧
      m.state.env.length = r.scopes.length + 1 ∧
      m.state.env.getLast? = some m.state.globals ∧
      ∀ e id name d, node = .expr e → e.reads? = some (id, name) → m.state.distances[id]? = some d →
        (∃ v, m.state.store.getAt? m.state.env d name = some v) ∧
        ∀ line x, m.step.control ≠ .fault (.runtime line (.undefinedVariable x)) := by
  obtain ⟨s, hfits, hsound⟩ := h.sound (.new natives output maxCallDepth clock)
  have hunique {r : Resolver} (hv : Visited roots ⟨node, r⟩) (hids : node.ids ≠ []) (r' : Resolver)
      (hv' : Visited roots ⟨node, r'⟩) : r' = r := hfits.unique hv hv' hids
  cases hsound with
  | @eval e r Γ frames st hv hsees hst =>
    cases hnode
    -- Marking the name of a class as known does not change how many scopes there are.
    have hlength : r.scopes.length = Γ.length := by
      rcases hsees with h | ⟨_, _, cls, _, _, h⟩
      · rw [h]
      · rw [h, Scopes.length_mark]
    refine ⟨r, hv, hunique hv, ?_, ?_, ?_⟩
    · rw [hlength]
      exact hst.env.agrees.length
    · rw [hst.globals]
      exact hst.env.agrees.getLast?
    · rintro _ id name d ⟨⟩ hname hd
      rw [hst.distances] at hd
      exact ⟨getAt?_of_reads? hfits.family hv hsees hst.env hname hd,
        stepEval_reads_ne hfits.family hv hsees hst.distances hst.env hname hd frames⟩
  | @exec stmt r frames st hv hst =>
    cases hnode
    refine ⟨r, hv, hunique hv, hst.env.agrees.length, ?_, fun _ _ _ _ hexpr => nomatch hexpr⟩
    rw [hst.globals]
    exact hst.env.agrees.getLast?
  | value => cases hnode
  | flow => cases hnode
  | fault => cases hnode

/-- The source `{ class A { m() {} } class B < A { m() { super.m; } } B().m(); }`. -/
def inheriting : List UInt8 :=
  ("\x7b class A \x7b m() \x7b\x7d \x7d " ++
    "class B < A \x7b m() \x7b super.m; \x7d \x7d B().m(); \x7d").toUTF8.toList

/-- The machine that runs it when it comes to `super.m`. -/
def inheritingRun : Machine :=
  Session.into (.new (.new [] .unlimited 9 fun _ => 0)) inheriting 19

/-- While `m` of `B` runs, `super` is bound two scopes out. -/
theorem inheriting_environment_matches_scopes :
    ∃ roots e, Session.Moment (.new (.new [] .unlimited 9 fun _ => 0)) roots inheritingRun ∧
      inheritingRun.control.node? = some (.expr e) ∧ e.reads? = some (1, "super") ∧
      inheritingRun.state.distances[1]? = some 2 ∧
      (∃ r, Visited roots ⟨.expr e, r⟩ ∧ inheritingRun.state.env.length = r.scopes.length + 1) ∧
      ∃ v, inheritingRun.state.store.getAt? inheritingRun.state.env 2 "super" = some v := by
  have hmoment : Session.Moment _ _ inheritingRun :=
    Session.moment_into (by decide +kernel) (by decide +kernel) 19
  have hrun : (inheritingRun.control.node?, inheritingRun.state.distances[1]?) =
      (some (.expr (.superRef 1 ⟨.keyword .superWord, "super", 1⟩ ⟨.identifier, "m", 1⟩)),
        some 2) := by
    rw [inheritingRun, show inheriting = _ from Utf8.encode_eq _]
    cbv
  obtain ⟨hnode, hd⟩ := Prod.mk.inj hrun
  obtain ⟨r, hv, -, hlength, -, hbound⟩ :=
    environments_match_scopes [] .unlimited 9 (fun _ => 0) hmoment hnode
  exact ⟨_, _, hmoment, hnode, rfl, hd, ⟨r, hv, hlength⟩, (hbound _ 1 "super" 2 rfl rfl hd).1⟩

/-- **Assigning at a recorded distance fails just in the initial value of the variable itself.** At
every moment of a session at which a value is to be assigned to a variable that has a recorded
distance, the walk has come to that assignment once. Unless the name was then declared in the
innermost scope and not yet defined, the scope that far out has the variable and gets the value.
Otherwise the distance is 0 and the assignment fails. -/
theorem assignment_at_distance {roots : List Visit} {m : Machine}
    (h : Session.Moment (.new (.new natives output maxCallDepth clock)) roots m) {v : Value}
    {id : NodeId} {name : Token} {frames : List Frame} {d : Nat} (hvalue : m.control = .value v)
    (hframes : m.frames = .assign id name :: frames) (hd : m.state.distances[id]? = some d) :
    ∃ value r, Visited roots ⟨.expr (.assign id name value), r⟩ ∧
      (∀ r', Visited roots ⟨.expr (.assign id name value), r'⟩ → r' = r) ∧
      (r.isUndefinedHere name.lexeme = false →
        ∃ scope, m.state.env[d]? = some scope ∧ m.state.store.contains scope name.lexeme = true ∧
          m.step = ⟨.value v, frames, m.state.put scope name.lexeme v⟩) ∧
      (r.isUndefinedHere name.lexeme = true →
        d = 0 ∧ m.step =
          ⟨.fault (.runtime name.line (.undefinedVariable name.lexeme)), frames, m.state⟩) := by
  obtain ⟨s, hfits, hsound⟩ := h.sound (.new natives output maxCallDepth clock)
  obtain ⟨control, fs, st⟩ := m
  cases hvalue
  cases hframes
  cases hsound with
  | @value _ Γ _ _ hv hst =>
    rcases hst.frames.cons_cases with ⟨Δ, hawaits, -⟩ | ⟨_, hseq, -⟩ | ⟨_, _, hleave, -⟩
    · cases hawaits with
      | @assign _ _ value hseen =>
        obtain ⟨r, hseen, rfl⟩ := hseen
        have hd' : s.interpreter.distances[id]? = some d := hst.distances ▸ hd
        have hids : (Node.expr (.assign id name value)).ids ≠ [] := by simp [Node.ids, Expr.ids]
        refine ⟨value, r, hseen, fun r' hr' => hfits.unique hseen hr' hids, fun hhere => ?_,
          fun hhere => ?_⟩
        · obtain ⟨scope, hscope, hbound⟩ := contains_of_assign hfits.family hseen hst.env hd' hhere
          refine ⟨scope, hscope, hbound, ?_⟩
          have hbinder : st.store.binderAt? st.env d name.lexeme = some scope := by
            simp only [Store.binderAt?, hscope, hbound, if_true]
          rw [Machine.step, Machine.stepValue, Interpreter.assign,
            Interpreter.target?_of_distance hd, hbinder]
          rfl
        · obtain ⟨hzero, hbinder⟩ := not_contains_of_assign hfits.family hseen hst.env hd' hhere
          refine ⟨hzero, ?_⟩
          rw [Machine.step, Machine.stepValue, Interpreter.assign,
            Interpreter.target?_of_distance hd, hbinder]
          rfl
    · cases hseq
    · cases hleave

/-- The source `{ var a = a = nil; }`. -/
def selfAssigning : List UInt8 :=
  "\x7b var a = a = nil; \x7d".toUTF8.toList

/-- The machine that runs it when the value `nil` is there. -/
def selfAssigningRun : Machine :=
  Session.into (.new (.new [] .unlimited 9 fun _ => 0)) selfAssigning 5

/-- The walk comes to the assignment while `a` is declared and not yet defined, and so the
assignment fails. -/
theorem selfAssigning_fails :
    ∃ roots frames, Session.Moment (.new (.new [] .unlimited 9 fun _ => 0)) roots selfAssigningRun ∧
      selfAssigningRun.control = .value .nil ∧
      selfAssigningRun.frames = .assign 1 ⟨.identifier, "a", 1⟩ :: frames ∧
      selfAssigningRun.state.distances[1]? = some 0 ∧
      (∃ value r, Visited roots ⟨.expr (.assign 1 ⟨.identifier, "a", 1⟩ value), r⟩ ∧
        r.isUndefinedHere "a" = true) ∧
      selfAssigningRun.step.control = .fault (.runtime 1 (.undefinedVariable "a")) := by
  have hmoment : Session.Moment _ _ selfAssigningRun :=
    Session.moment_into (by decide +kernel) (by decide +kernel) 5
  have hrun : (selfAssigningRun.control, selfAssigningRun.frames,
      selfAssigningRun.state.distances[1]?, selfAssigningRun.step.control) = (.value .nil,
        [.assign 1 ⟨.identifier, "a", 1⟩, .declare ⟨.identifier, "a", 1⟩, .sequence [], .leave [0]],
        some 0, .fault (.runtime 1 (.undefinedVariable "a"))) := by
    rw [selfAssigningRun, show selfAssigning = _ from Utf8.encode_eq _]
    cbv
  simp only [Prod.mk.injEq] at hrun
  obtain ⟨hvalue, hframes, hd, hstep⟩ := hrun
  obtain ⟨value, r, hv, -, hbound, -⟩ :=
    assignment_at_distance [] .unlimited 9 (fun _ => 0) hmoment hvalue hframes hd
  refine ⟨_, _, hmoment, hvalue, hframes, hd, ⟨value, r, hv, ?_⟩, hstep⟩
  cases hhere : r.isUndefinedHere "a" with
  | true => rfl
  | false =>
    obtain ⟨scope, -, -, heq⟩ := hbound hhere
    rw [heq] at hstep
    cases hstep

end Moments

end Lox
