import Lox.Proofs.Lexical.Plans

/-!
# Machines inside enclosures

While a program runs, the node at hand was visited inside some enclosures, and the environment
follows these. The frames that wait go on inside the same enclosures, up to one that goes back to
another environment (`Frame.ResumeIn`).

A `return` passes by the frames of the statements around it, up to the end of the body that it
stands in. So it is known what a statement may end with: nothing but the end at the top level, and
no value in an initializer (`Flow.Allowed`).

`Machine.Lexical` puts this together with what a fault can be: the rules that a program was checked
for before it ran leave out the faults that are internal (`RuntimeFault.isInternal`).
-/

namespace Lox

variable {frame : Frame}

/-- Visits inside enclosures of programs that break no rule, with all their parts. -/
structure Visit.Lexicon (D : Distances) (L : List Enclosure → Visit → Prop) : Prop where
  accepted : ∀ {E v}, L E v → v.Accepted D
  known : ∀ {E v}, L E v → v.At E
  part : ∀ {E v w}, L E v → w ∈ v.parts → L (v.node.opens w.node ++ E) w

section

variable {D : Distances} {L : List Enclosure → Visit → Prop} {E : List Enclosure} {v w w' : Visit}
  {ws : List Visit}

theorem Visit.Lexicon.first (h : Lexicon D L) (hv : L E v) (hw : v.parts = w :: ws) :
    L (v.node.opens w.node ++ E) w :=
  h.part hv (hw ▸ List.mem_cons_self)

theorem Visit.Lexicon.second (h : Lexicon D L) (hv : L E v) (hw : v.parts = w' :: w :: ws) :
    L (v.node.opens w.node ++ E) w :=
  h.part hv (hw ▸ List.mem_cons_of_mem _ List.mem_cons_self)

end

/-- The faults that the checks before a run are there to leave out: a `this` or `super` that has no
binding, and an operator that is none. -/
def RuntimeFault.isInternal : RuntimeFault → Bool
  | .undefinedVariable name => name == "this" || name == "super"
  | .invalidUnary _ => true
  | .invalidBinary _ => true
  | .superOutsideClass => true
  | .invalidSuper => true
  | _ => false

/-- Whether a run ends with a fault that is internal. -/
def Fault.isInternal : Fault → Bool
  | .runtime _ fault => fault.isInternal
  | .output _ => false

/-- The ways in which a statement may end in a function of some kind. -/
def Flow.Allowed (kind : FunctionKind) : Flow → Prop
  | .normal => True
  | .returned v => kind ≠ .none ∧ (kind = .initializer → v = .nil)

/-! ## Frames -/

namespace Frame

variable {frames : List Frame} {E : List Enclosure}

/-- Whether the body of a function has ended where these frames are left, and if so, whether it is
an initializer. -/
def bodyEnd? : List Frame → Option Bool
  | .initializer _ :: _ => some true
  | .endCall :: _ => some false
  | .construct _ :: _ => some false
  | _ => none

theorem initializer_of_bodyEnd? (h : bodyEnd? frames = some true) :
    ∃ c rest, frames = .initializer c :: rest := by
  unfold bodyEnd? at h
  split at h
  · next c rest => exact ⟨c, rest, rfl⟩
  · cases h
  · cases h
  · cases h

/-- Whether a frame is that of a statement. -/
def ofStatement : Frame → Bool
  | .discard | .print | .declare _ | .branch _ _ | .loopTest _ _ | .returning | .superclass _ _ _ =>
    true
  | .sequence _ | .loopBody _ _ => true
  | _ => false

/-- A frame that can go on inside some enclosures. -/
def WaitsIn (L : List Enclosure → Visit → Prop) (plan : Plan) (g : ScopeId) (E : List Enclosure) :
    Frame → Prop
  | .unary operator => operator.IsUnary
  | .binaryLeft operator right => operator.IsBinary ∧ (Node.expr right).Placed L E
  | .binaryRight _ operator => operator.IsBinary
  | .logical _ right => (Node.expr right).Placed L E
  | .assign _ name => name.IsFree
  | .callee _ arguments => (Node.exprs arguments).Placed L E
  | .argument called _ done todo =>
    called.Follows L plan g ∧ (∀ v ∈ done, v.Follows L plan g) ∧ (Node.exprs todo).Placed L E
  | .get _ => True
  | .setObject _ value => (Node.expr value).Placed L E
  | .setValue _ _ => True
  | .discard => True
  | .print => True
  | .declare name => name.IsFree ∧ Enclosure.Declares E name.lexeme
  | .branch thenBranch elseBranch =>
    (Node.stmt thenBranch).Placed L E ∧ ∀ b, elseBranch = some b → (Node.stmt b).Placed L E
  | .loopTest condition body => (Node.expr condition).Placed L E ∧ (Node.stmt body).Placed L E
  | .loopBody condition body => (Node.expr condition).Placed L E ∧ (Node.stmt body).Placed L E
  | .returning => Enclosure.functionKind E ≠ .none ∧ Enclosure.functionKind E ≠ .initializer
  | .superclass name _ methods => ∃ e, (Node.stmt (.classDef name (some e) methods)).Placed L E
  | .endCall => True
  | .construct o => o.cls.Follows L plan g
  | .sequence rest => (Node.stmts rest).Placed L E
  | .initializer c => ∃ d, plan.Runs c.env d
  | .leave _ => False

/-- Frames that can go on inside some enclosures. Going back from a body to its caller ends the
body. Going back from a block leads to statements of the same function. -/
inductive ResumeIn (L : List Enclosure → Visit → Prop) (plan : Plan) (g : ScopeId) :
    List Enclosure → List Frame → Prop where
  | nil : ResumeIn L plan g [] []
  | frame {E : List Enclosure} {frame : Frame} {frames : List Frame} (h : frame.WaitsIn L plan g E)
      (hend : frame.ofStatement = true → bodyEnd? frames = none)
      (hrest : ResumeIn L plan g E frames) : ResumeIn L plan g E (frame :: frames)
  | leave {E outside : List Enclosure} {env : Env} {frames : List Frame}
      (h : Env.Follows plan g outside env)
      (hblock : bodyEnd? frames = none → Enclosure.functionKind outside = Enclosure.functionKind E)
      (hbody : bodyEnd? frames = some true → Enclosure.functionKind E = .initializer)
      (hrest : ResumeIn L plan g outside frames) : ResumeIn L plan g E (.leave env :: frames)

variable {L : List Enclosure → Visit → Prop} {plan plan' : Plan} {g : ScopeId}

theorem WaitsIn.grow (h : frame.WaitsIn L plan g E) (hp : plan.Sub plan') :
    frame.WaitsIn L plan' g E := by
  cases frame with
  | argument called paren done todo => exact ⟨h.1.grow hp, fun v hv => (h.2.1 v hv).grow hp, h.2.2⟩
  | construct o => exact Class.Follows.grow h hp
  | initializer c =>
    obtain ⟨d, hruns⟩ := h
    exact ⟨d, hruns.mono hp⟩
  | _ => exact h

theorem ResumeIn.grow (h : ResumeIn L plan g E frames) (hp : plan.Sub plan') :
    ResumeIn L plan' g E frames := by
  induction h with
  | nil => exact .nil
  | frame h hend _ ih => exact .frame (h.grow hp) hend ih
  | leave h hblock hbody _ ih => exact .leave (h.mono hp) hblock hbody ih

/-- The two ways in which frames go on. -/
theorem ResumeIn.cons_cases (h : ResumeIn L plan g E (frame :: frames)) :
    (frame.WaitsIn L plan g E ∧ (frame.ofStatement = true → bodyEnd? frames = none) ∧
      ResumeIn L plan g E frames) ∨
    ∃ env outside, frame = .leave env ∧ Env.Follows plan g outside env ∧
      (bodyEnd? frames = none → Enclosure.functionKind outside = Enclosure.functionKind E) ∧
      ResumeIn L plan g outside frames := by
  cases h with
  | frame h hend hrest => exact .inl ⟨h, hend, hrest⟩
  | leave h hblock _ hrest => exact .inr ⟨_, _, rfl, h, hblock, hrest⟩

end Frame

/-! ## Machines -/

/-- A state inside enclosures, with frames that can go on there. -/
structure Interpreter.Stands (L : List Enclosure → Visit → Prop) (plan : Plan) (g : ScopeId)
    (D : Distances) (st : Interpreter) (E : List Enclosure) (frames : List Frame) : Prop where
  globals : st.globals = g
  distances : st.distances = D
  store : st.store.Follows L plan g
  env : Env.Follows plan g E st.env
  frames : Frame.ResumeIn L plan g E frames

/-- A machine whose control was visited inside the enclosures that its environment follows. -/
inductive Machine.Lexical (L : List Enclosure → Visit → Prop) (plan : Plan) (g : ScopeId)
    (D : Distances) : Machine → Prop where
  | eval {e : Expr} {E : List Enclosure} {frames : List Frame} {st : Interpreter}
      (hn : (Node.expr e).Placed L E) (h : st.Stands L plan g D E frames) :
      Lexical L plan g D ⟨.eval e, frames, st⟩
  | exec {s : Stmt} {E : List Enclosure} {frames : List Frame} {st : Interpreter}
      (hn : (Node.stmt s).Placed L E) (hend : Frame.bodyEnd? frames = none)
      (h : st.Stands L plan g D E frames) : Lexical L plan g D ⟨.exec s, frames, st⟩
  | value {v : Value} {E : List Enclosure} {frames : List Frame} {st : Interpreter}
      (hv : v.Follows L plan g) (h : st.Stands L plan g D E frames) :
      Lexical L plan g D ⟨.value v, frames, st⟩
  | flow {f : Flow} {E : List Enclosure} {frames : List Frame} {st : Interpreter}
      (hv : f.result.Follows L plan g)
      (hflow : Frame.bodyEnd? frames = none → f.Allowed (Enclosure.functionKind E))
      (h : st.Stands L plan g D E frames) : Lexical L plan g D ⟨.flow f, frames, st⟩
  | fault {f : Fault} {frames : List Frame} {st : Interpreter} (hf : f.isInternal = false)
      (h : st.store.Follows L plan g) : Lexical L plan g D ⟨.fault f, frames, st⟩

/-- A plan that is larger by scopes that a machine made. -/
structure Plan.GrowsBy (maker : Machine) (plan plan' : Plan) : Prop where
  sub : plan.Sub plan'
  new : ∀ scope site, plan' scope = some site → plan scope = some site ∨ site.maker = maker

/-- A machine after a step of another one, which may have made scopes. -/
def Machine.FollowsFrom (L : List Enclosure → Visit → Prop) (plan : Plan) (g : ScopeId)
    (D : Distances) (maker m : Machine) : Prop :=
  ∃ plan', plan.GrowsBy maker plan' ∧ m.Lexical L plan' g D

section

variable {L : List Enclosure → Visit → Prop} {plan plan' plan₁ plan₂ : Plan} {g : ScopeId}
  {D : Distances} {maker : Machine} {st : Interpreter} {E : List Enclosure} {frames : List Frame}

namespace Plan.GrowsBy

theorem refl : GrowsBy maker plan plan :=
  ⟨.refl, fun _ _ h => .inl h⟩

theorem trans (h : GrowsBy maker plan plan₁) (h' : GrowsBy maker plan₁ plan₂) :
    GrowsBy maker plan plan₂ := by
  refine ⟨h.sub.trans h'.sub, fun scope site hsite => ?_⟩
  rcases h'.new scope site hsite with hold | hnew
  · exact h.new scope site hold
  · exact .inr hnew

theorem add {scope : ScopeId} (h : plan scope = none) (role : Role) :
    GrowsBy maker plan (plan.add scope ⟨role, maker⟩) := by
  refine ⟨sub_add h _, fun other site hsite => ?_⟩
  by_cases heq : other = scope
  · rw [heq, add_self] at hsite
    cases hsite
    exact .inr rfl
  · rw [Plan.add, if_neg heq] at hsite
    exact .inl hsite

end Plan.GrowsBy

namespace Interpreter.Stands

variable (h : st.Stands L plan g D E frames) {bindings : NameTable Value}

include h

/-- Going on with other frames. -/
theorem resume {fs : List Frame} (hf : Frame.ResumeIn L plan g E fs) : st.Stands L plan g D E fs :=
  ⟨h.globals, h.distances, h.store, h.env, hf⟩

/-- A frame more. -/
theorem push (hf : frame.WaitsIn L plan g E)
    (hend : frame.ofStatement = true → Frame.bodyEnd? frames = none) :
    st.Stands L plan g D E (frame :: frames) :=
  h.resume (.frame hf hend h.frames)

/-- A frame of an expression more. -/
theorem pushOperand (hf : frame.WaitsIn L plan g E) (hexpr : frame.ofStatement = false) :
    st.Stands L plan g D E (frame :: frames) := by
  refine h.push hf fun hs => ?_
  rw [hexpr] at hs
  cases hs

/-- Another store. -/
theorem withStore {s : Store} (hs : s.Follows L plan g) :
    { st with store := s }.Stands L plan g D E frames :=
  ⟨h.globals, h.distances, hs, h.env, h.frames⟩

/-- The number of calls does not matter. -/
theorem callDepth (n : Nat) : { st with callDepth := n }.Stands L plan g D E frames :=
  ⟨h.globals, h.distances, h.store, h.env, h.frames⟩

/-- A new scope that is as its role says. -/
theorem addScope {role : Role} (hmade : Site.Made st.store.nextScope ⟨role, maker⟩)
    (hnames : ∀ name v, bindings.find? name = some v → name ∈ role.names ∧ v.Follows L plan g)
    (hfixed : ∀ name v, role.fixed? = some (name, v) → bindings.find? name = some v) :
    (st.addScope bindings).Stands L (plan.add st.store.nextScope ⟨role, maker⟩) g D E frames := by
  have hp := Plan.sub_add h.store.fresh ⟨role, maker⟩
  exact ⟨h.globals, h.distances, h.store.addScope hmade hnames hfixed, h.env.mono hp,
    h.frames.grow hp⟩

/-- Entering a new scope for the variables of a block or a call, to run statements in it, with a way
back. -/
theorem enter {e : Enclosure} {inside : List Enclosure} {env : Env} (he : e.isClass = false)
    (henv : Env.Follows plan g inside env)
    (hruns : Enclosure.holdStatements inside = false → plan.RunsIn env e)
    (hnames : ∀ name v, bindings.find? name = some v → name ∈ e.locals ∧ v.Follows L plan g)
    {body : List Stmt} (hbody : (Node.stmts body).Placed L (e :: inside))
    (hblock : Frame.bodyEnd? frames = none →
      Enclosure.functionKind E = Enclosure.functionKind (e :: inside))
    (hinit : Frame.bodyEnd? frames = some true →
      Enclosure.functionKind (e :: inside) = .initializer) :
    (st.enter env bindings).Stands L (plan.add st.store.nextScope ⟨.locals e.locals, maker⟩) g D
      (e :: inside)
      (.sequence body :: .leave st.env :: frames) := by
  have hadd : (st.addScope bindings).Stands L (plan.add st.store.nextScope
      ⟨.locals e.locals, maker⟩) g D E frames :=
    h.addScope (fun _ _ hrole => by cases hrole) hnames fun _ _ hfixed => by cases hfixed
  have hp := Plan.sub_add h.store.fresh ⟨.locals e.locals, maker⟩
  have hrest := Frame.ResumeIn.leave hadd.env hblock hinit hadd.frames
  refine ⟨h.globals, h.distances, hadd.store, ?_, .frame hbody (fun _ => rfl) hrest⟩
  have hfollows : ∃ scope env' site, st.store.nextScope :: env = scope :: env' ∧
      plan.add st.store.nextScope ⟨.locals e.locals, maker⟩ scope = some site ∧
      site.role = .locals e.locals ∧ (Enclosure.holdStatements inside = false →
        (plan.add st.store.nextScope ⟨.locals e.locals, maker⟩).RunsIn env' e) ∧
      Env.Follows (plan.add st.store.nextScope ⟨.locals e.locals, maker⟩) g inside env' :=
    ⟨_, env, _, rfl, plan.add_self _ _, rfl, fun hi => (hruns hi).mono hp, henv.mono hp⟩
  cases e with
  | cls => cases he
  | block => exact hfollows
  | function => exact hfollows

end Interpreter.Stands

namespace Machine

variable {m : Machine}

theorem Lexical.store (h : Lexical L plan g D m) : m.state.store.Follows L plan g := by
  cases h with
  | eval _ h => exact h.store
  | exec _ _ h => exact h.store
  | value _ h => exact h.store
  | flow _ _ h => exact h.store
  | fault _ h => exact h

theorem Lexical.followsFrom (h : Lexical L plan g D m) : FollowsFrom L plan g D maker m :=
  ⟨plan, .refl, h⟩

theorem FollowsFrom.trans (hp : plan.GrowsBy maker plan') (h : FollowsFrom L plan' g D maker m) :
    FollowsFrom L plan g D maker m := by
  obtain ⟨plan₁, hp₁, hm⟩ := h
  exact ⟨plan₁, hp.trans hp₁, hm⟩

/-- A statement that ends as statements mostly do. -/
theorem Lexical.normal (h : st.Stands L plan g D E frames) :
    Lexical L plan g D ⟨.flow .normal, frames, st⟩ :=
  .flow trivial (fun _ => trivial) h

/-- An operation whose value is handed on. -/
theorem Lexical.give {r : Except Fault Value × Interpreter} (h : r.2.Stands L plan g D E frames)
    (hv : ∀ v, r.1 = .ok v → v.Follows L plan g) (hf : ∀ f, r.1 = .error f → f.isInternal = false) :
    Lexical L plan g D (give r frames) := by
  obtain ⟨result, st⟩ := r
  cases result with
  | ok v => exact .value (hv v rfl) h
  | error f => exact .fault (hf f rfl) h.store

end Machine

end

end Lox
