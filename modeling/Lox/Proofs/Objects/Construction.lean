import Lox.Proofs.Machine.Endings
import Lox.Proofs.Objects.Records

/-!
# Making objects

A call of a class takes as many arguments as its initializer, or none if it has none. If it comes
back, it comes back with the object that it made, which has the number that no object had before,
and whatever the initializer did; and the initializer was started with its parameters standing for
the arguments. A method `init` that was bound to an object comes back with that object, whoever
calls it (`Session.construction_yields_fresh_object`).

That a bound initializer knows its object rests on the past: the scope for its `this` was made by
one machine, the one that bound it, since no two machines make the same scope (`Chronicle`).
-/

namespace Lox

variable {o : Object} {c method : Closure} {paren : Token} {arguments : List Value}
  {frames : List Frame} {v : Value}

/-! ## Calls that come back -/

namespace Machine

/-- A machine comes back to the frames below with a value, and has more frames until then. -/
inductive Completes (below : List Frame) (v : Value) (st : Interpreter) : Machine → Prop where
  | here : Completes below v st ⟨.value v, below, st⟩
  | step {m : Machine} (hlt : below.length < m.frames.length) (h : Completes below v st m.step) :
      Completes below v st m

variable {m : Machine} {v : Value} {st st' : Interpreter} {callee : Value} {paren : Token}
  {arguments : List Value} {frames : List Frame}

/-- What comes back to the frames below comes to the same value without them. -/
theorem Completes.alone {below : List Frame} (h : (m.onto below).Completes below v st) :
    Reaches m ⟨.value v, [], st⟩ := by
  generalize hm : m.onto below = m' at h
  induction h generalizing m with
  | here =>
    obtain ⟨control, own, s⟩ := m
    obtain ⟨rfl, hframes, rfl⟩ := Machine.mk.inj hm
    cases List.append_left_eq_self.mp hframes
    exact .refl
  | step hlt _ ih =>
    subst hm
    have hown : m.frames ≠ [] := by
      intro hnil
      rw [onto, hnil] at hlt
      exact Nat.lt_irrefl _ hlt
    have hbusy := isDone_of_frames_ne_nil hown
    exact .of_step hbusy (ih (Machine.step_onto hbusy below).symm)

/-- A call on top of the frames below it. -/
theorem Calls.step_onto (h : m.Calls callee paren arguments frames) :
    m.step = (call callee paren arguments [] m.state).onto frames := by
  rw [h.step, ← call_onto, List.nil_append]

/-- A call that comes back to the frames below it, taken alone. -/
theorem Calls.alone (h : m.Calls callee paren arguments frames)
    (hv : m.step.Completes frames v st) :
    Reaches (call callee paren arguments [] m.state) ⟨.value v, [], st⟩ := by
  rw [h.step_onto] at hv
  exact hv.alone

/-- A call that comes back has the right number of arguments, and was started. -/
theorem call_eq_startCall {n : Nat} (hn : arity? callee = some n)
    (h : Reaches (call callee paren arguments [] st) ⟨.value v, [], st'⟩) :
    arguments.length = n ∧ st.callDepth < st.maxCallDepth ∧
      call callee paren arguments [] st = startCall callee paren arguments [] st := by
  unfold call at h ⊢
  rw [hn] at h ⊢
  by_cases hlength : arguments.length = n
  · by_cases hdepth : st.maxCallDepth ≤ st.callDepth
    · simp only [ne_eq, hlength, not_true_eq_false, if_false, hdepth, if_true] at h
      exact absurd h not_reaches_of_fault
    · refine ⟨hlength, Nat.lt_of_not_le hdepth, ?_⟩
      simp only [ne_eq, hlength, not_true_eq_false, if_false, hdepth]
  · simp only [ne_eq, hlength, not_false_eq_true, if_true] at h
    exact absurd h not_reaches_of_fault

/-- Whatever is run above it, the frame of a construction gives the object. -/
theorem eq_object_of_construct (h : Reaches (m.onto [.construct o, .endCall]) ⟨.value v, [], st⟩) :
    v = .object o := by
  obtain ⟨k, hk⟩ := h
  have hdone : (run k (m.onto [.construct o, .endCall])).isDone = true := by
    rw [hk]
    rfl
  obtain ⟨r, hr⟩ := exists_result? (isDone_of_onto hdone)
  have hgive : Reaches (m.onto [.construct o, .endCall]) (give r [.construct o, .endCall]) :=
    .trans (exists_run_onto k m _) (reaches_give rfl hr)
  have hrest := hgive.through ⟨k, hk⟩ rfl
  obtain ⟨f | w, s⟩ := r
  · exact absurd hrest not_reaches_of_fault
  · have hend : Reaches ⟨.value w, [.construct o, .endCall], s⟩
        ⟨.value (.object o), [], { s with callDepth := s.callDepth - 1 }⟩ :=
      .of_step rfl (.of_step rfl .refl)
    cases hend.eq_of_isDone hrest rfl rfl
    rfl

/-- Whatever is run above it, the frame of an initializer gives what `this` stands for at the
end. -/
theorem exists_flow_of_initializer
    (h : Reaches (m.onto [.initializer c, .endCall]) ⟨.value v, [], st⟩) :
    ∃ f s, Reaches (m.onto [.initializer c, .endCall]) ⟨.flow f, [.initializer c, .endCall], s⟩ ∧
      s.store.getAt? c.env 0 "this" = some v := by
  obtain ⟨k, hk⟩ := h
  have hdone : (run k (m.onto [.initializer c, .endCall])).isDone = true := by
    rw [hk]
    rfl
  obtain ⟨r, hr⟩ := exists_ending? (isDone_of_onto hdone)
  have hresume : Reaches (m.onto [.initializer c, .endCall])
      (resume r [.initializer c, .endCall]) :=
    .trans (exists_run_onto k m _) (reaches_resume rfl hr)
  have hrest := hresume.through ⟨k, hk⟩ rfl
  obtain ⟨f | f, s⟩ := r
  · exact absurd hrest not_reaches_of_fault
  · refine ⟨f, s, hresume, ?_⟩
    have hthis : Reaches ⟨.flow f, [.initializer c, .endCall], s⟩
        (give (Interpreter.found "this" c.decl.name.line (s.store.getAt? c.env 0 "this"), s)
          [.endCall]) :=
      .of_step rfl .refl
    have hrest := hthis.through hrest rfl
    cases hfind : s.store.getAt? c.env 0 "this" with
    | none =>
      rw [hfind] at hrest
      exact absurd hrest not_reaches_of_fault
    | some w =>
      rw [hfind] at hrest
      have hend : Reaches ⟨.value w, [.endCall], s⟩ ⟨.value w, [],
          { s with callDepth := s.callDepth - 1 }⟩ :=
        .of_step rfl .refl
      cases hend.eq_of_isDone hrest rfl rfl
      rfl

/-- **A call of a class that comes back gives the object that it made.** -/
theorem eq_object_of_call {c : Class}
    (h : Reaches (call (.cls c) paren arguments [] st) ⟨.value v, [], st'⟩) :
    arguments.length = c.arity ∧ st.callDepth < st.maxCallDepth ∧
      v = .object ⟨st.store.nextObject, c⟩ := by
  obtain ⟨hlength, hdepth, hstart⟩ := call_eq_startCall rfl h
  refine ⟨hlength, hdepth, ?_⟩
  rw [hstart] at h
  simp only [startCall, instantiate] at h
  cases hmethod : c.findMethod? "init" with
  | none =>
    rw [hmethod] at h
    have hend := Reaches.through (.of_step rfl .refl) h rfl
    cases hend.eq_of_isDone .refl rfl rfl
    rfl
  | some method =>
    rw [hmethod] at h
    dsimp only at h
    rw [← List.nil_append [Frame.construct _, _], enterClosure_onto] at h
    exact eq_object_of_construct h

/-- A call of an initializer that comes back gives what `this` stands for when its body has
ended. -/
theorem Calls.exists_flow_of_initializer (h : m.Calls (.closure c) paren arguments frames)
    (hinit : c.isInitializer = true) (hv : m.step.Completes frames v st) :
    ∃ f s, Reaches m ⟨.flow f, .initializer c :: .endCall :: frames, s⟩ ∧
      s.store.getAt? c.env 0 "this" = some v := by
  have halone := h.alone hv
  obtain ⟨-, -, hstart⟩ := call_eq_startCall rfl halone
  obtain ⟨body, hbody⟩ : ∃ body : Machine, call (.closure c) paren arguments [] m.state =
      body.onto [.initializer c, .endCall] := by
    rw [hstart]
    simp only [startCall, enterClosure, hinit, if_true]
    exact ⟨⟨.flow .normal, [.sequence c.decl.body, .leave m.state.env], _⟩, rfl⟩
  rw [hbody] at halone
  obtain ⟨f, s, ⟨k, hk⟩, hthis⟩ := Machine.exists_flow_of_initializer halone
  obtain ⟨j, hj⟩ := exists_run_onto k (body.onto [.initializer c, .endCall]) frames
  refine ⟨f, s, .of_step h.isDone ⟨j, ?_⟩, hthis⟩
  rw [h.step_onto, hbody, hj, hk]
  rfl

end Machine

/-! ## Parameters -/

namespace Machine

theorem find?_zip_bindings {params : List Token} (hparams : (params.map Token.lexeme).Nodup)
    (arguments : List Value) {t : NameTable Value} (ht : ∀ p ∈ params, t.find? p.lexeme = none)
    (name : String) (v : Value) :
    ((params.zip arguments).foldl (fun t (p, v) => t.insert p.lexeme v) t).find? name = some v ↔
      (∃ (i : Nat) (p : Token), params[i]? = some p ∧ p.lexeme = name ∧ arguments[i]? = some v) ∨
      t.find? name = some v := by
  induction params generalizing arguments t with
  | nil => simp
  | cons p rest ih =>
    cases arguments with
    | nil => simp
    | cons a arguments =>
      rw [List.map_cons, List.nodup_cons] at hparams
      obtain ⟨hp, hrest⟩ := List.forall_mem_cons.mp ht
      have hinsert (q : Token) (hq : q ∈ rest) : (t.insert p.lexeme a).find? q.lexeme = none := by
        have hne : q.lexeme ≠ p.lexeme := fun heq => hparams.1 (List.mem_map.mpr ⟨q, hq, heq⟩)
        rw [NameTable.find?_insert, if_neg hne]
        exact hrest q hq
      have hplaces : (∃ (i : Nat) (q : Token), (p :: rest)[i]? = some q ∧ q.lexeme = name ∧
          (a :: arguments)[i]? = some v) ↔ p.lexeme = name ∧ a = v ∨
          ∃ (i : Nat) (q : Token), rest[i]? = some q ∧ q.lexeme = name ∧
          arguments[i]? = some v := by
        rw [← Nat.or_exists_add_one]
        simp
      rw [List.zip_cons_cons, List.foldl_cons, ih hparams.2 arguments hinsert,
        NameTable.find?_insert, hplaces]
      by_cases hname : p.lexeme = name
      · subst hname
        simp [hp, or_comm]
      · simp [hname, Ne.symm hname]

/-- Parameters with different names stand for the arguments in their places, and nothing else has a
value. -/
theorem find?_callVariables {params : List Token} (hparams : (params.map Token.lexeme).Nodup)
    (arguments : List Value) (name : String) (v : Value) :
    (callVariables params arguments).find? name = some v ↔
      ∃ (i : Nat) (p : Token), params[i]? = some p ∧ p.lexeme = name ∧ arguments[i]? = some v := by
  have hempty (p : Token) (_ : p ∈ params) : (∅ : NameTable Value).find? p.lexeme = none := rfl
  refine (find?_zip_bindings hparams arguments hempty name v).trans (or_iff_left ?_)
  rintro ⟨⟩

end Machine

namespace Resolver

/-- Names that are introduced without an error are different from each other and new in their
scope. -/
theorem nodup_of_introduce {r : Resolver} {t : NameTable Bool} {Γ : Scopes} (hr : r.scopes = t :: Γ)
    {names : List Token} (hclean : (r.introduce names).errors = []) :
    (names.map Token.lexeme).Nodup ∧ ∀ name ∈ names, t.contains name.lexeme = false := by
  induction names generalizing r t with
  | nil => exact ⟨List.nodup_nil, List.forall_mem_nil _⟩
  | cons name rest ih =>
    have hrest : (((r.declare name).define name).introduce rest).errors = [] := hclean
    have hfirst := (touches_define _ name).clean ((touches_introduce _ rest).clean hrest)
    have hnew : r.isDeclaredHere name.lexeme = false := reportIf_clean hfirst
    have hname : t.contains name.lexeme = false := by
      rw [isDeclaredHere, hr] at hnew
      exact hnew
    have hscopes : ((r.declare name).define name).scopes = t.insert name.lexeme true :: Γ := by
      rw [scopes_define_declare, hr]
      rfl
    obtain ⟨hnodup, hapart⟩ := ih hscopes hrest
    have hother (n : Token) (hn : n ∈ rest) : n.lexeme ≠ name.lexeme ∧
        t.contains n.lexeme = false := by
      have hcontains := hapart n hn
      rw [NameTable.contains, NameTable.find?_insert] at hcontains
      split at hcontains
      · cases hcontains
      · next hne => exact ⟨hne, hcontains⟩
    refine ⟨?_, ?_⟩
    · rw [List.map_cons, List.nodup_cons]
      refine ⟨?_, hnodup⟩
      intro hmem
      obtain ⟨n, hn, heq⟩ := List.mem_map.mp hmem
      exact (hother n hn).1 heq
    · exact List.forall_mem_cons.mpr ⟨hname, fun n hn => (hother n hn).2⟩

end Resolver

/-- A function that breaks no rule has different parameters. -/
theorem Visit.Accepted.nodup_params {D : Distances} {r : Resolver} {kind : FunctionKind}
    {d : FunctionDecl} (h : Accepted D ⟨.function kind d, r⟩) :
    (d.params.map Token.lexeme).Nodup := by
  obtain ⟨name, params, body⟩ := d
  have hbody := (Resolver.touches_leaveFunction _ _).clean h.clean
  have henter := (Stmt.touches_resolveAll body _).clean hbody
  have hpush : (({ r with functionKind := kind }).push ∅).scopes = ∅ :: r.scopes := rfl
  exact (Resolver.nodup_of_introduce hpush henter).1

/-! ## Makers of scopes -/

theorem Interpreter.nextScope_bind (st : Interpreter) (method : Closure) (o : Object) :
    (st.bind method o).2.store.nextScope = st.store.nextScope + 1 :=
  Store.size_addScope _ _

namespace Machine

variable {m : Machine} {method : Closure} {o : Object}

/-- A machine whose step makes a scope. -/
def MakesScope (m : Machine) : Prop :=
  m.state.store.nextScope < m.step.state.store.nextScope

section

variable (st : Interpreter) (method : Closure) (o : Object) (arguments : List Value)
  (frames : List Frame)

/-- The body of a method that was just bound is run in two new scopes: the one of its parameters and
that of `this`. -/
theorem env_enterClosure_bind :
    (enterClosure (st.bind method o).1 arguments frames (st.bind method o).2).state.env =
      (st.store.nextScope + 1) :: st.store.nextScope :: method.env := by
  rw [← st.nextScope_bind method o]
  rfl

theorem find?_params_enterClosure_bind (name : String) :
    (enterClosure (st.bind method o).1 arguments frames (st.bind method o).2).state.store.find?
      (st.store.nextScope + 1) name = (callVariables method.decl.params arguments).find? name := by
  rw [← st.nextScope_bind method o]
  exact (Store.find?_addScope _ _ _ _).trans (if_pos rfl)

theorem find?_this_enterClosure_bind :
    (enterClosure (st.bind method o).1 arguments frames (st.bind method o).2).state.store.find?
      st.store.nextScope "this" = some (.object o) := by
  have hne : st.store.nextScope ≠ (st.bind method o).2.store.nextScope := by
    rw [st.nextScope_bind]
    exact Nat.ne_of_lt (Nat.lt_succ_self _)
  refine (Store.find?_addScope _ _ _ _).trans ((if_neg hne).trans ?_)
  exact (Store.find?_addScope _ _ _ _).trans (if_pos rfl)

end

/-- Binding a method makes a scope in which `this` stands for the object. -/
theorem Binds.this (h : m.Binds method o) :
    m.step.state.store.find? m.state.store.nextScope "this" = some (.object o) := by
  cases h with
  | access frames h =>
    rw [h]
    exact (Store.find?_addScope _ _ _ _).trans (if_pos rfl)
  | creation arguments frames st hid hst h =>
    subst hst
    rw [h]
    exact find?_this_enterClosure_bind _ method o arguments _

theorem Binds.makesScope (h : m.Binds method o) : m.MakesScope :=
  Store.lt_of_find? h.this

end Machine

/-- What is known of the past about scopes: a machine comes after the scopes that those before it
made, so no two machines made the same scope. -/
structure Chronicle (past : List Machine) (m : Machine) : Prop where
  earlier : ∀ w ∈ past, w.step.state.store.nextScope ≤ m.state.store.nextScope
  once : ∀ w ∈ past, ∀ w' ∈ past, w.MakesScope → w'.MakesScope →
    w.state.store.nextScope = w'.state.store.nextScope → w = w'

namespace Chronicle

variable {past : List Machine} {m : Machine}

theorem step (h : Chronicle past m) : Chronicle (past ++ [m]) m.step := by
  -- The scope that a machine of the past made has a smaller number than the one that the step may
  -- make.
  have hapart {w : Machine} (hw : w ∈ past) (hscope : w.MakesScope) :
      w.state.store.nextScope ≠ m.state.store.nextScope :=
    Nat.ne_of_lt (Nat.lt_of_lt_of_le hscope (h.earlier w hw))
  refine ⟨?_, ?_⟩
  · intro w hw
    rcases List.mem_append.mp hw with hw | hw
    · exact (h.earlier w hw).trans m.nextScope_step
    · cases List.mem_singleton.mp hw
      exact Nat.le_refl _
  · intro w hw w' hw' hscope hscope' heq
    rcases List.mem_append.mp hw with hw | hw <;> rcases List.mem_append.mp hw' with hw' | hw'
    · exact h.once w hw w' hw' hscope hscope' heq
    · cases List.mem_singleton.mp hw'
      exact absurd heq (hapart hw hscope)
    · cases List.mem_singleton.mp hw
      exact absurd heq.symm (hapart hw' hscope')
    · exact (List.mem_singleton.mp hw).trans (List.mem_singleton.mp hw').symm

theorem lasting : Machine.Lasting Chronicle := by
  refine ⟨fun past m h _ => h.step, ?_⟩
  intro past m c st h _ hst
  refine ⟨?_, h.once⟩
  intro w hw
  show w.step.state.store.nextScope ≤ st.store.nextScope
  rw [hst]
  exact h.earlier w hw

theorem start (m : Machine) : Chronicle [] m :=
  ⟨List.forall_mem_nil _, List.forall_mem_nil _⟩

/-- Machines that bound a method in the same scope bound it to the same object. -/
theorem receiver_eq (h : Chronicle past m) {w w' : Machine} {method' : Closure} {o' : Object}
    (hw : w ∈ past) (hw' : w' ∈ past) (hbinds : w.Binds method o) (hbinds' : w'.Binds method' o')
    (hscope : w.state.store.nextScope = w'.state.store.nextScope) : o = o' := by
  cases h.once w hw w' hw' hbinds.makesScope hbinds'.makesScope hscope
  cases hbinds.this.symm.trans hbinds'.this
  rfl

end Chronicle

/-! ## Methods that were bound by name -/

namespace Machine

/-- A machine whose next step finds a method under a name and binds it to an object: as a property,
or through `super`. -/
inductive Obtains (m : Machine) (name : String) (method : Closure) (o : Object) : Prop where
  | property {token : Token} {frames : List Frame} (hcontrol : m.control = .value (.object o))
      (hframes : m.frames = .get token :: frames) (hname : token.lexeme = name)
      (hfield : m.state.store.field? o.id name = none)
      (hmethod : o.cls.findMethod? name = some method)
  | inherited {id : NodeId} {word token : Token} {k : Class}
      (hcontrol : m.control = .eval (.superRef id word token)) (hname : token.lexeme = name)
      (hbinding : m.state.superBinding id word = .ok (k, o))
      (hmethod : k.findMethod? name = some method)

variable {m : Machine} {name : String} {method : Closure} {o : Object}

theorem Obtains.binds (h : m.Obtains name method o) : m.Binds method o := by
  cases h with
  | @property token frames hcontrol hframes hname hfield hmethod =>
    refine .access frames ?_
    rw [step_get hcontrol hframes, Interpreter.property, hname, hfield, hmethod]
    rfl
  | @inherited id word token k hcontrol hname hbinding hmethod =>
    obtain ⟨control, frames, st⟩ := m
    cases hcontrol
    refine .access frames ?_
    show give (st.superMethod id word token) frames = _
    rw [Interpreter.superMethod, hbinding]
    dsimp only
    rw [hname, hmethod]
    rfl

/-- The method is one of a class at hand. -/
theorem Obtains.exists_class (h : m.Obtains name method o) :
    ∃ c, m.HoldsClass c ∧ c.findMethod? name = some method := by
  cases h with
  | property hcontrol hframes hname hfield hmethod =>
    refine ⟨o.cls, ⟨.object o, .control ?_, rfl⟩, hmethod⟩
    rw [hcontrol]
    exact List.mem_cons_self
  | @inherited id word token k hcontrol hname hbinding hmethod =>
    obtain ⟨⟨scope, hk⟩, -⟩ := Interpreter.exists_find?_of_superBinding hbinding
    exact ⟨k, ⟨.cls k, .variable hk, rfl⟩, hmethod⟩

end Machine

/-! ## Moments of a session -/

section

variable {L : List Enclosure → Visit → Prop} {plan : Plan} {g : ScopeId} {D : Distances}
  {past : List Machine} {m : Machine}

/-- What is called follows its text. -/
theorem Machine.Calls.follows {callee : Value} (h : m.Calls callee paren arguments frames)
    (hm : m.Lexical L plan g D) : callee.Follows L plan g := by
  obtain ⟨control, fs, st⟩ := m
  cases h with
  | plain hcontrol hframes =>
    cases hcontrol
    cases hm with
    | value hv _ => exact hv
  | applied hcontrol hframes =>
    cases hcontrol
    cases hframes
    cases hm with
    | value _ hst =>
      rcases hst.frames.cons_cases with ⟨hwaits, -⟩ | ⟨_, _, hleave, -⟩
      · exact hwaits.1
      · cases hleave

/-- When the body of an initializer has ended, `this` still stands for the object that it was bound
to. -/
theorem Chronicle.this_eq {f : Flow} {st : Interpreter} {w : Machine}
    (h : Chronicle past ⟨.flow f, .initializer c :: frames, st⟩)
    (hlexical : Machine.Lexical L plan g D ⟨.flow f, .initializer c :: frames, st⟩)
    (hmade : plan.MadeBy past) (hw : w ∈ past) (hbinds : w.Binds method o)
    (hc : c.env = w.state.store.nextScope :: method.env) :
    st.store.getAt? c.env 0 "this" = some (.object o) := by
  cases hlexical with
  | flow _ _ hst =>
    rcases hst.frames.cons_cases with
      ⟨⟨d, scope, env, site, method', o', henv, hsite, hrole, -⟩, -⟩ | ⟨_, _, hleave, -⟩
    · obtain ⟨hbinds', hscope⟩ := hst.store.made scope site hsite method' o' hrole
      have hthis : st.store.find? scope "this" = some (.object o') := by
        refine (hst.store.holds scope site hsite).fixed "this" _ ?_
        rw [hrole]
        rfl
      obtain ⟨rfl, -⟩ := List.cons.inj (hc.symm.trans henv)
      cases h.receiver_eq hw (hmade _ site hsite) hbinds hbinds' hscope.symm
      rw [hc]
      exact hthis
    · cases hleave

end

/-! ## Calls of classes -/

/-- The number of arguments that making an object takes, for the initializer that was found, if
there is one. -/
def initArity (init : Option (FunctionDecl × Env)) : Nat :=
  (init.map fun found => found.1.params.length).getD 0

theorem Class.Finds.arity_eq {past : List Machine} {c : Class} {init : Option (FunctionDecl × Env)}
    (h : c.Finds past "init" init) : c.arity = initArity init := by
  obtain ⟨rfl, -⟩ := h.findMethod?
  rw [initArity, Option.map_map]
  rfl

/-- A machine that starts the body of an initializer for an object: in a scope that is new, whose
variables are the parameters, each with the argument in its place, and inside a scope that is new,
too, in which `this` stands for the object. -/
structure Machine.StartsInit (m : Machine) (o : Object) (d : FunctionDecl) (env : Env)
    (arguments : List Value) : Prop where
  control : m.step.control = .flow .normal
  body : m.step.frames.head? = some (.sequence d.body)
  env : m.step.state.env = (m.state.store.nextScope + 1) :: m.state.store.nextScope :: env
  parameters : ∀ name v, m.step.state.store.find? (m.state.store.nextScope + 1) name = some v ↔
    ∃ (i : Nat) (p : Token), d.params[i]? = some p ∧ p.lexeme = name ∧ arguments[i]? = some v
  this : m.step.state.store.find? m.state.store.nextScope "this" = some (.object o)

/-- What a call of a class does, given the initializer that was found for the class. -/
structure Machine.Constructs (past : List Machine) (m : Machine) (c : Class) (paren : Token)
    (arguments : List Value) (frames : List Frame) (init : Option (FunctionDecl × Env)) : Prop where
  /-- The call is refused at once if and only if the number of arguments is wrong. -/
  refused : m.step = ⟨.fault (.runtime paren.line (.wrongArity (initArity init) arguments.length)),
    frames, m.state⟩ ↔ arguments.length ≠ initArity init
  message : (RuntimeFault.wrongArity (initArity init) arguments.length).message =
    "Expected " ++ Nat.repr (initArity init) ++ " arguments but got " ++
    Nat.repr arguments.length ++ "."
  /-- If the call comes back, it gives an object of the class, and it has started the
  initializer. -/
  completed : ∀ v st, m.step.Completes frames v st →
    arguments.length = initArity init ∧ v = .object ⟨m.state.store.nextObject, c⟩ ∧
    ∀ d env, init = some (d, env) → m.StartsInit ⟨m.state.store.nextObject, c⟩ d env arguments
  /-- No object there was before has the number of that one. -/
  fresh : ∀ o, m.Holds (.object o) ∨ Created past o → o.id ≠ m.state.store.nextObject

section

variable {m : Machine} {c : Class} {paren : Token} {arguments : List Value} {frames : List Frame}

/-- The number of arguments is checked before anything else. -/
theorem Machine.Calls.refused_iff (h : m.Calls (.cls c) paren arguments frames) :
    m.step = ⟨.fault (.runtime paren.line (.wrongArity c.arity arguments.length)), frames,
      m.state⟩ ↔
      arguments.length ≠ c.arity := by
  rw [h.step, call, arity?]
  constructor
  · intro hstep hlength
    simp only [hlength, ne_eq, not_true_eq_false, if_false] at hstep
    split at hstep
    · cases hstep
    · simp only [startCall, instantiate] at hstep
      split at hstep <;> cases hstep
  · intro hlength
    exact if_pos hlength

/-- Making an object starts its initializer. -/
theorem Machine.Calls.startsInit (h : m.Calls (.cls c) paren arguments frames)
    (hlength : arguments.length = c.arity) (hdepth : m.state.callDepth < m.state.maxCallDepth)
    (hmethod : c.findMethod? "init" = some method)
    (hparams : (method.decl.params.map Token.lexeme).Nodup) :
    m.StartsInit ⟨m.state.store.nextObject, c⟩ method.decl method.env arguments := by
  have hstep := h.step_of_length hlength hdepth
  rw [instantiate, hmethod] at hstep
  have hbinds : m.Binds method ⟨m.state.store.nextObject, c⟩ :=
    .creation arguments _ _ rfl rfl hstep
  refine ⟨by rw [hstep]; rfl, by rw [hstep]; rfl, ?_, ?_, hbinds.this⟩
  · rw [hstep]
    exact env_enterClosure_bind _ method _ arguments _
  · intro name v
    rw [hstep, ← find?_callVariables hparams]
    exact iff_of_eq
      (congrArg (· = some v) (find?_params_enterClosure_bind _ method _ arguments _ name))

end

/-- **Making an object gives a new object, and initializers give theirs.** At every moment of a
session at which a class is called, the search for `init` along the class statements of the past
comes to an end, and decides how many arguments the call takes. With another number it is refused at
once; and if it comes back, it gives a new object of that very class, and has started the
initializer with its parameters standing for the arguments. A method that was found under the name
`init` at some time in the past and bound to an object gives that object whenever a call of it comes
back. -/
theorem Session.construction_yields_fresh_object (natives : List Native) (output : Output)
    (maxCallDepth : Nat) (clock : Nat → Float) {roots : List Visit} {past : List Machine}
    {m : Machine} (h : MomentAfter (.new (.new natives output maxCallDepth clock)) roots past m) :
    (∀ c paren arguments frames, m.Calls (.cls c) paren arguments frames →
      (∃ init, c.Finds past "init" init) ∧
      ∀ init, c.Finds past "init" init → m.Constructs past c paren arguments frames init) ∧
    ∀ w ∈ past, ∀ method o, w.Obtains "init" method o → ∀ paren arguments frames,
      m.Calls (.closure (w.state.bind method o).1) paren arguments frames →
      ∀ v st, m.step.Completes frames v st → v = .object o := by
  have hrecords := h.keeps Records.lasting (.start natives output maxCallDepth clock)
  obtain ⟨_, _, -, hlexicon, -, hlexical⟩ := h.lexical (.new natives output maxCallDepth clock)
  refine ⟨?_, ?_⟩
  · intro c paren arguments frames hcalls
    refine ⟨(hrecords.classes c ⟨_, hcalls.holds.1, rfl⟩).finds "init", ?_⟩
    intro init hfinds
    refine ⟨?_, rfl, ?_, ?_⟩
    · rw [← hfinds.arity_eq]
      exact hcalls.refused_iff
    · intro v st hv
      obtain ⟨hlength, hdepth, hobject⟩ := Machine.eq_object_of_call (hcalls.alone hv)
      refine ⟨hlength.trans hfinds.arity_eq, hobject, ?_⟩
      rintro d env rfl
      obtain ⟨method, hmethod, horigin⟩ := Option.map_eq_some_iff.mp hfinds.findMethod?.1
      cases horigin
      obtain ⟨⟨kind, _, _, ⟨r, hplaced⟩, -⟩, -⟩ :=
        Class.Follows.findMethod? (hcalls.follows hlexical) hmethod
      exact hcalls.startsInit hlength hdepth hmethod (hlexicon.accepted hplaced).nodup_params
    · intro o ho
      have hcreated : Created past o := ho.elim (hrecords.objects o) id
      exact Nat.ne_of_lt (hrecords.numbered o hcreated)
  · intro w hw method o hobtains paren arguments frames hcalls v st hv
    obtain ⟨c, hc, hmethod⟩ := hobtains.exists_class
    obtain ⟨init, hfinds⟩ := (hrecords.pastClasses w hw c hc).finds "init"
    have hinit : method.isInitializer = true := hfinds.findMethod?.2 method hmethod
    obtain ⟨f, s, ⟨k, hk⟩, hthis⟩ := hcalls.exists_flow_of_initializer hinit hv
    -- The body of the initializer ends at a later moment of the session.
    have hend := h.onwards k
    rw [hk] at hend
    obtain ⟨_, _, -, -, hmade, hlexical⟩ := hend.lexical (.new natives output maxCallDepth clock)
    have hchronicle := hend.keeps Chronicle.lasting (.start _)
    have hobject := hchronicle.this_eq hlexical hmade (List.mem_append_left _ hw) hobtains.binds rfl
    exact Option.some.inj (hthis.symm.trans hobject)

/-- The source
`{ class A { init(x) { this.x = x; return; } } class B < A {} B(true).init(nil); }`. -/
def reinitializing : List UInt8 :=
  ("\x7b class A \x7b init(x) \x7b this.x = x; return; \x7d \x7d class B < A \x7b\x7d " ++
    "B(true).init(nil); \x7d").toUTF8.toList

/-- The machine some steps into this source. -/
def reinitializingRun (steps : Nat) : Machine :=
  Session.into (.new (.new [] .unlimited 9 fun _ => 0)) reinitializing steps

namespace Machine

variable {m : Machine}

/-- The class that the next step calls after its last argument, with the arguments and the frames
below. -/
def calledClass? : Machine → Option (Class × Token × List Value × List Frame)
  | ⟨.value v, .argument (.cls c) paren done [] :: frames, _⟩ =>
    some (c, paren, (v :: done).reverse, frames)
  | _ => none

theorem calls_of_calledClass? {c : Class}
    (h : m.calledClass? = some (c, paren, arguments, frames)) :
    m.Calls (.cls c) paren arguments frames := by
  unfold calledClass? at h
  split at h
  · cases h
    exact .applied rfl rfl
  · cases h

/-- The value at hand. -/
def value? : Machine → Option Value
  | ⟨.value v, _, _⟩ => some v
  | _ => none

theorem control_of_value? (h : m.value? = some v) : m.control = .value v := by
  unfold value? at h
  split at h
  · cases h
    rfl
  · cases h

/-- Whether a machine has more than some number of frames for some steps. -/
def staysAbove (n : Nat) : Nat → Machine → Bool
  | 0, _ => true
  | k + 1, m => decide (n < m.frames.length) && staysAbove n k m.step

theorem completes_of_staysAbove {below : List Frame} {k : Nat}
    (h : staysAbove below.length k m = true) (hvalue : (run k m).value? = some v)
    (hframes : (run k m).frames = below) : m.Completes below v (run k m).state := by
  induction k generalizing m with
  | zero =>
    obtain ⟨control, frames, st⟩ := m
    cases hframes
    cases control <;> cases hvalue
    exact .here
  | succ k ih =>
    rw [staysAbove, Bool.and_eq_true, decide_eq_true_eq] at h
    have hbusy : m.isDone = false :=
      isDone_of_frames_ne_nil (List.ne_nil_of_length_pos (Nat.zero_lt_of_lt h.1))
    have hstep : run (k + 1) m = run k m.step := by
      rw [run, hbusy]
      rfl
    rw [hstep] at hvalue hframes ⊢
    exact .step h.1 (ih h.2 hvalue hframes)

end Machine

theorem reinitializingRun_add (j k : Nat) :
    reinitializingRun (j + k) = Machine.run k (reinitializingRun j) :=
  Machine.run_add j k _

/-- A call of this source that comes back. -/
theorem completes_reinitializing {j k : Nat} {callee : Value}
    (hcalls : (reinitializingRun j).Calls callee paren arguments frames)
    (h : (reinitializingRun j).step.staysAbove frames.length k = true)
    (hvalue : (reinitializingRun (j + (k + 1))).value? = some v)
    (hframes : (reinitializingRun (j + (k + 1))).frames = frames) :
    (reinitializingRun j).step.Completes frames v (reinitializingRun (j + (k + 1))).state := by
  have hrun : reinitializingRun (j + (k + 1)) = Machine.run k (reinitializingRun j).step := by
    rw [reinitializingRun_add, Machine.run, hcalls.isDone]
    rfl
  rw [hrun] at hvalue hframes ⊢
  exact Machine.completes_of_staysAbove h hvalue hframes

/-- After 15 steps the source calls `B`, which inherits the initializer of `A`, and after 34 steps
it calls that initializer as a method of the object that `B` gave. It gives the same object again,
in spite of its bare `return`. -/
theorem reinitializing_yields_receiver :
    ∃ roots past past' c o init method w paren frames frames' st st',
      Session.MomentAfter (.new (.new [] .unlimited 9 fun _ => 0)) roots past
        (reinitializingRun 15) ∧
    (reinitializingRun 15).Calls (.cls c) paren [.bool true] frames ∧ c.Finds past "init" init ∧
    (reinitializingRun 15).Constructs past c paren [.bool true] frames init ∧
    (reinitializingRun 15).step.Completes frames (.object o) st ∧ o.cls = c ∧
    Session.MomentAfter (.new (.new [] .unlimited 9 fun _ => 0)) roots past'
        (reinitializingRun 34) ∧
    w ∈ past' ∧ w.Obtains "init" method o ∧
    (reinitializingRun 34).Calls (.closure (w.state.bind method o).1) paren [.nil] frames' ∧
    (reinitializingRun 34).step.Completes frames' (.object o) st' := by
  have hmoment (steps : Nat) : Session.MomentAfter _ _ _ (reinitializingRun steps) :=
    Session.momentAfter_into (by decide +kernel) (by decide +kernel) steps
  have hrun : ((reinitializingRun 15).calledClass?.map Prod.snd,
      (reinitializingRun 15).state.store.nextObject, (reinitializingRun 15).step.staysAbove 5 15,
      (reinitializingRun 31).value?.isSome, (reinitializingRun 31).frames,
      (reinitializingRun 31).state.store.field? 0 "init", (reinitializingRun 34).step.staysAbove 3
      14, (reinitializingRun 49).value?.isSome, (reinitializingRun 49).frames) =
      (some (⟨.symbol .rightParen, ")", 1⟩, [.bool true], [.get ⟨.identifier, "init", 1⟩,
          .callee ⟨.symbol .rightParen, ")", 1⟩ [.literal .nil], .discard, .sequence [],
          .leave [0]]), 0, true, true,
        [.get ⟨.identifier, "init", 1⟩, .callee ⟨.symbol .rightParen, ")", 1⟩ [.literal .nil],
          .discard, .sequence [], .leave [0]], none, true, true,
          [.discard, .sequence [], .leave [0]]) := by
    simp only [reinitializingRun, show reinitializing = _ from Utf8.encode_eq _]
    cbv
  simp only [Prod.mk.injEq] at hrun
  obtain ⟨hcalled, hnumber, habove, hvalue, hframes, hfield, habove', hvalue', hframes'⟩ := hrun
  obtain ⟨⟨c, called⟩, hc, rfl⟩ := Option.map_eq_some_iff.mp hcalled
  obtain ⟨v, hv⟩ := Option.isSome_iff_exists.mp hvalue
  obtain ⟨v', hv'⟩ := Option.isSome_iff_exists.mp hvalue'
  have hcalls := Machine.calls_of_calledClass? hc
  obtain ⟨hclass, -⟩ :=
    Session.construction_yields_fresh_object [] .unlimited 9 (fun _ => 0) (hmoment 15)
  obtain ⟨⟨init, hinit⟩, hconstructs⟩ := hclass _ _ _ _ hcalls
  have hcompletes := completes_reinitializing hcalls habove hv hframes
  obtain ⟨hlength, rfl, -⟩ := (hconstructs init hinit).completed _ _ hcompletes
  -- The class has an initializer, since it takes an argument.
  have hmethod : ∃ method, c.findMethod? "init" = some method := by
    cases hmethod : c.findMethod? "init" with
    | some method => exact ⟨method, rfl⟩
    | none =>
      rw [← hinit.arity_eq, Class.arity, hmethod] at hlength
      cases hlength
  obtain ⟨method, hmethod⟩ := hmethod
  rw [hnumber] at hv hcompletes
  have hcontrol := Machine.control_of_value? hv
  have hobtains : (reinitializingRun 31).Obtains "init" method ⟨0, c⟩ :=
    .property hcontrol hframes rfl hfield hmethod
  have hbusy : (reinitializingRun 31).isDone = false :=
    Machine.isDone_of_frames_ne_nil (by simp [hframes])
  have hcalls' : (reinitializingRun 34).Calls
      (.closure ((reinitializingRun 31).state.bind method ⟨0, c⟩).1) ⟨.symbol .rightParen, ")", 1⟩
      [.nil] [.discard, .sequence [], .leave [0]] := by
    rw [reinitializingRun_add 31 3, Machine.run, hbusy, Machine.step_get hcontrol hframes,
      Interpreter.property, hfield, hmethod]
    show Machine.Calls _ _ _ [Value.nil].reverse _
    exact .applied rfl rfl
  have hmem : reinitializingRun 31 ∈ Machine.taken 34 (reinitializingRun 0) := by
    rw [Machine.taken_add 31 3]
    refine List.mem_append_right _ ?_
    show reinitializingRun 31 ∈ Machine.taken 3 (reinitializingRun 31)
    rw [Machine.taken, hbusy]
    exact List.mem_cons_self
  have hcompletes' := completes_reinitializing hcalls' habove' hv' hframes'
  obtain ⟨-, hbound⟩ :=
    Session.construction_yields_fresh_object [] .unlimited 9 (fun _ => 0) (hmoment 34)
  cases hbound _ hmem method _ hobtains _ _ _ hcalls' _ _ hcompletes'
  exact ⟨_, _, _, c, _, init, method, _, _, _, _, _, _, hmoment 15, hcalls, hinit,
    hconstructs init hinit, hcompletes,
    rfl, hmoment 34, hmem, hobtains, hcalls', hcompletes'⟩

end Lox
