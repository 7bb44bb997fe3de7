import Lox.Proofs.Machine.Restoration
import Lox.Proofs.Scope.Agreement

/-!
# Machines at a place of a program

While a program runs, the node at hand was visited by the walk, and the environment matches the
scopes known at that visit. The frames that wait say where the program goes on: `Frame.Awaits` is
about one frame, which may declare a name on the way, and `Frame.Resume` about all of them. A frame
that goes back to an environment holds one that matches the scopes of the place it goes back to, and
whose innermost scope is older than the current one. So a declaration, which binds a name in the
innermost scope, leaves the environments that wait as they are.

`Machine.Sound` puts all this together.
-/

namespace Lox

variable {frame : Frame} {env : Env} {Γ' : Scopes}

/-- Visits without error, with all their parts. -/
structure Visit.Family (D : Distances) (V : Visit → Prop) : Prop where
  accepted : ∀ {v}, V v → v.Accepted D
  placed : ∀ {v}, V v → v.Placed
  part : ∀ {v w}, V v → w ∈ v.parts → V w

theorem Visit.Family.first {D : Distances} {V : Visit → Prop} (h : Family D V) {v w : Visit}
    {ws : List Visit} (hv : V v) (hw : v.parts = w :: ws) : V w :=
  h.part hv (hw ▸ List.mem_cons_self)

theorem Visit.Family.second {D : Distances} {V : Visit → Prop} (h : Family D V) {v w w' : Visit}
    {ws : List Visit} (hv : V v) (hw : v.parts = w' :: w :: ws) : V w :=
  h.part hv (hw ▸ List.mem_cons_of_mem _ List.mem_cons_self)

/-- A piece of a tree that was visited where some scopes were known. -/
def Node.Seen (V : Visit → Prop) (n : Node) (Γ : Scopes) : Prop :=
  ∃ r, V ⟨n, r⟩ ∧ r.scopes = Γ

/-- A statement that was visited and declares nothing. -/
def Stmt.SeenBranch (V : Visit → Prop) (s : Stmt) (Γ : Scopes) : Prop :=
  (Node.stmt s).Seen V Γ ∧ s.declares? = none

/-! ## Frames -/

namespace Frame

variable {Γ : Scopes} {frames : List Frame}

/-- A frame that can go on where some scopes are known, and the scopes known after it. -/
inductive Awaits (V : Visit → Prop) (g : ScopeId) (s : Store) (Γ : Scopes) :
    Frame → Scopes → Prop where
  | unary {operator : Token} : Awaits V g s Γ (.unary operator) Γ
  | binaryLeft {operator : Token} {right : Expr} (hright : (Node.expr right).Seen V Γ) :
      Awaits V g s Γ (.binaryLeft operator right) Γ
  | binaryRight {left : Value} {operator : Token} : Awaits V g s Γ (.binaryRight left operator) Γ
  | logical {operator : Token} {right : Expr} (hright : (Node.expr right).Seen V Γ) :
      Awaits V g s Γ (.logical operator right) Γ
  | assign {id : NodeId} {name : Token} {value : Expr}
      (h : (Node.expr (.assign id name value)).Seen V Γ) : Awaits V g s Γ (.assign id name) Γ
  | callee {paren : Token} {arguments : List Expr} (h : (Node.exprs arguments).Seen V Γ) :
      Awaits V g s Γ (.callee paren arguments) Γ
  | argument {callee : Value} {paren : Token} {done : List Value} {todo : List Expr}
      (hcallee : callee.Sound V g s) (hdone : ∀ v ∈ done, v.Sound V g s)
      (htodo : (Node.exprs todo).Seen V Γ) : Awaits V g s Γ (.argument callee paren done todo) Γ
  | get {name : Token} : Awaits V g s Γ (.get name) Γ
  | setObject {name : Token} {value : Expr} (h : (Node.expr value).Seen V Γ) :
      Awaits V g s Γ (.setObject name value) Γ
  | setValue {object : Object} {name : Token} : Awaits V g s Γ (.setValue object name) Γ
  | discard : Awaits V g s Γ .discard Γ
  | print : Awaits V g s Γ .print Γ
  | declare {name : Token} : Awaits V g s Γ (.declare name) (Γ.mark name.lexeme true)
  | branch {thenBranch : Stmt} {elseBranch : Option Stmt} (hthen : thenBranch.SeenBranch V Γ)
      (helse : ∀ b, elseBranch = some b → b.SeenBranch V Γ) :
      Awaits V g s Γ (.branch thenBranch elseBranch) Γ
  | loopTest {condition : Expr} {body : Stmt} (hcondition : (Node.expr condition).Seen V Γ)
      (hbody : body.SeenBranch V Γ) : Awaits V g s Γ (.loopTest condition body) Γ
  | loopBody {condition : Expr} {body : Stmt} (hcondition : (Node.expr condition).Seen V Γ)
      (hbody : body.SeenBranch V Γ) : Awaits V g s Γ (.loopBody condition body) Γ
  | returning : Awaits V g s Γ .returning Γ
  | superclass {name : Token} {line : Nat} {methods : List FunctionDecl}
      (h : (Node.methods methods).Seen V (Resolver.classScopes true ++ Γ.mark name.lexeme true)) :
      Awaits V g s Γ (.superclass name line methods) (Γ.mark name.lexeme true)
  | endCall : Awaits V g s Γ .endCall Γ
  | construct {object : Object} (h : object.cls.Sound V g s) : Awaits V g s Γ (.construct object) Γ
  | initializer {c : Closure} : Awaits V g s Γ (.initializer c) Γ

/-- Frames that can go on in an environment where some scopes are known. After statements comes a
frame that goes back to another environment; for that one it does not matter what the statements
declare. -/
inductive Resume (V : Visit → Prop) (g : ScopeId) (s : Store) :
    Env → Scopes → List Frame → Prop where
  | nil : Resume V g s [g] [] []
  | frame {env : Env} {Γ Δ : Scopes} {frame : Frame} {frames : List Frame}
      (h : Awaits V g s Γ frame Δ) (hrest : Resume V g s env Δ frames) :
      Resume V g s env Γ (frame :: frames)
  | sequence {env outer : Env} {Γ : Scopes} {rest : List Stmt} {frames : List Frame}
      (h : (Node.stmts rest).Seen V Γ) (hrest : Resume V g s env Γ (.leave outer :: frames)) :
      Resume V g s env Γ (.sequence rest :: .leave outer :: frames)
  | leave {env outer : Env} {Γ Δ : Scopes} {frames : List Frame} (h : Env.Matches g s outer Δ)
      (htop : outer.top < env.top) (hrest : Resume V g s outer Δ frames) :
      Resume V g s env Γ (.leave outer :: frames)

variable {V : Visit → Prop} {g : ScopeId} {s s' : Store}

theorem Awaits.grows {Δ : Scopes} (h : Awaits V g s Γ frame Δ) {below : ScopeId}
    (hs : s.Grows below s') :
    Awaits V g s' Γ frame Δ := by
  cases h with
  | argument hcallee hdone htodo =>
    exact .argument (hcallee.grows hs) (fun v hv => (hdone v hv).grows hs) htodo
  | construct hcls => exact .construct (hcls.grows hs)
  | binaryLeft h => exact .binaryLeft h
  | logical h => exact .logical h
  | assign h => exact .assign h
  | callee h => exact .callee h
  | setObject h => exact .setObject h
  | branch h h' => exact .branch h h'
  | loopTest h h' => exact .loopTest h h'
  | loopBody h h' => exact .loopBody h h'
  | superclass h => exact .superclass h
  | _ => constructor

/-- Frames that wait are not touched by changes in the innermost scope. -/
theorem Resume.grows (h : Resume V g s env Γ frames) (hs : s.Grows env.top s') :
    Resume V g s' env Γ frames := by
  induction h with
  | nil => exact .nil
  | frame h _ ih => exact .frame (h.grows hs) (ih hs)
  | sequence h _ ih => exact .sequence h (ih hs)
  | leave h htop _ ih =>
    -- The environment to go back to is older than the changed scope, so its innermost scope is
    -- unchanged.
    exact .leave (h.grows hs htop) htop (ih (hs.weaken (Nat.le_of_lt htop)))

/-- A frame that goes back to an environment does not ask where it comes from. -/
theorem Resume.leave_from {outer : Env} (h : Resume V g s env Γ (.leave outer :: frames)) :
    Resume V g s env Γ' (.leave outer :: frames) := by
  cases h with
  | frame h => cases h
  | leave h htop hrest => exact .leave h htop hrest

/-- The three ways in which frames go on. -/
theorem Resume.cons_cases (h : Resume V g s env Γ (frame :: frames)) :
    (∃ Δ, Awaits V g s Γ frame Δ ∧ Resume V g s env Δ frames) ∨
    (∃ rest, frame = .sequence rest ∧ (Node.stmts rest).Seen V Γ ∧
      (∀ Γ', Resume V g s env Γ' frames) ∧
      ∃ outer fs, frames = .leave outer :: fs) ∨
    ∃ outer Δ, frame = .leave outer ∧ Env.Matches g s outer Δ ∧ Resume V g s outer Δ frames := by
  cases h with
  | frame h hrest => exact .inl ⟨_, h, hrest⟩
  | sequence h hrest => exact .inr (.inl ⟨_, rfl, h, fun _ => hrest.leave_from, _, _, rfl⟩)
  | leave h htop hrest => exact .inr (.inr ⟨_, _, rfl, h, hrest⟩)

end Frame

/-! ## Machines -/

namespace Interpreter

/-- A state in a program whose environment matches some scopes, with frames that go on where others
are known. -/
structure Fits (V : Visit → Prop) (g : ScopeId) (D : Distances) (st : Interpreter) (Γ Δ : Scopes)
    (frames : List Frame) : Prop where
  globals : st.globals = g
  distances : st.distances = D
  store : st.store.Sound V g
  env : Env.Matches g st.store st.env Γ
  frames : Frame.Resume V g st.store st.env Δ frames

/-- An operation that stays in place, binds no new name in the scopes there are, and writes sound
values only. -/
structure Keeps (V : Visit → Prop) (g : ScopeId) (st st' : Interpreter) : Prop where
  place : SamePlace st st'
  grows : st.store.Grows (st.env.top + 1) st'.store
  store : st'.store.Sound V g

variable {V : Visit → Prop} {g : ScopeId} {D : Distances} {st st' st'' : Interpreter} {Γ Δ : Scopes}
  {frames : List Frame}

theorem Keeps.refl (h : st.store.Sound V g) : Keeps V g st st :=
  ⟨.refl, .refl, h⟩

theorem Keeps.trans (h : Keeps V g st st') (h' : Keeps V g st' st'') : Keeps V g st st'' :=
  ⟨h.place.trans h'.place, h.grows.trans (h.place.env ▸ h'.grows), h'.store⟩

namespace Fits

section

variable (h : Fits V g D st Γ Δ frames)

include h

theorem keeps (hk : Keeps V g st st') : Fits V g D st' Γ Δ frames := by
  refine ⟨hk.place.globals.trans h.globals, hk.place.distances.trans h.distances, hk.store, ?_, ?_⟩
  · rw [hk.place.env]
    exact h.env.grows_succ hk.grows
  · rw [hk.place.env]
    exact h.frames.grows (hk.grows.weaken (Nat.le_succ _))

/-- A declaration. -/
theorem define (name : String) {v : Value} (hv : v.Sound V g (st.define name v).store) :
    Fits V g D (st.define name v) (Γ.mark name true) Δ frames := by
  refine ⟨h.globals, h.distances, h.store.define hv, h.env.define name v, h.frames.grows ?_⟩
  exact .define st.env name v

/-- The number of calls does not matter. -/
theorem callDepth (n : Nat) : Fits V g D { st with callDepth := n } Γ Δ frames :=
  ⟨h.globals, h.distances, h.store, h.env, h.frames⟩

/-- Going on with other frames in the same state. -/
theorem resume {fs : List Frame} (hf : Frame.Resume V g st.store st.env Γ' fs) :
    Fits V g D st Γ Γ' fs :=
  ⟨h.globals, h.distances, h.store, h.env, hf⟩

/-- A frame more. -/
theorem push (hf : frame.Awaits V g st.store Γ Δ) : Fits V g D st Γ Γ (frame :: frames) :=
  h.resume (.frame hf h.frames)

end

/-- Entering a new scope to run statements in it, with a way back. -/
theorem enter (h : Fits V g D st Γ Γ frames) (hagrees : Env.Agrees g st.store env Γ')
    {t : NameTable Bool} {bindings : NameTable Value}
    (ht : ∀ name, t.find? name = some true ↔ bindings.contains name = true)
    (hb : ∀ name v, bindings.find? name = some v → v.Sound V g st.store) {body : List Stmt}
    (hbody : (Node.stmts body).Seen V (t :: Γ')) :
    Fits V g D (st.enter env bindings) (t :: Γ') (t :: Γ') (.sequence body :: .leave st.env ::
      frames) := by
  have hgrows : st.store.Grows st.store.nextScope (st.store.addScope bindings) :=
    .addScope bindings (Nat.le_refl _)
  have htop : st.env.top < st.store.nextScope := h.env.top_lt
  have houter := h.env.grows hgrows htop
  have hrest := h.frames.grows (hgrows.weaken (Nat.le_of_lt htop))
  exact ⟨h.globals, h.distances, h.store.addScope hb, .enter hagrees ht,
    .sequence hbody (.leave houter htop hrest)⟩

end Fits

end Interpreter

/-- An expression that was visited where `Γ'` was known can be evaluated where `Γ` is: the scopes
are the same, or the expression is the superclass of a class whose name is known already but not
bound yet. -/
def Expr.Sees (e : Expr) (Γ' Γ : Scopes) : Prop :=
  Γ' = Γ ∨ ∃ id name cls, e = .variable id name ∧ cls ≠ name.lexeme ∧ Γ' = Γ.mark cls true

/-- A machine whose control is at a place of a program that its environment and its frames fit. -/
inductive Machine.Sound (V : Visit → Prop) (g : ScopeId) (D : Distances) : Machine → Prop where
  | eval {e : Expr} {r : Resolver} {Γ : Scopes} {frames : List Frame} {st : Interpreter}
      (hv : V ⟨.expr e, r⟩) (hsees : e.Sees r.scopes Γ) (h : st.Fits V g D Γ Γ frames) :
      Sound V g D ⟨.eval e, frames, st⟩
  | exec {s : Stmt} {r : Resolver} {frames : List Frame} {st : Interpreter} (hv : V ⟨.stmt s, r⟩)
      (h : st.Fits V g D r.scopes (s.scopesAfter r.scopes) frames) :
      Sound V g D ⟨.exec s, frames, st⟩
  | value {v : Value} {Γ : Scopes} {frames : List Frame} {st : Interpreter}
      (hv : v.Sound V g st.store) (h : st.Fits V g D Γ Γ frames) :
      Sound V g D ⟨.value v, frames, st⟩
  | flow {f : Flow} {Γ : Scopes} {frames : List Frame} {st : Interpreter}
      (hf : f.result.Sound V g st.store) (h : st.Fits V g D Γ Γ frames) :
      Sound V g D ⟨.flow f, frames, st⟩
  | fault {f : Fault} {frames : List Frame} {st : Interpreter} (h : st.store.Sound V g) :
      Sound V g D ⟨.fault f, frames, st⟩

namespace Machine

variable {V : Visit → Prop} {g : ScopeId} {D : Distances} {Γ : Scopes} {frames : List Frame}

theorem Sound.store {m : Machine} (h : Sound V g D m) : m.state.store.Sound V g := by
  cases h with
  | eval _ _ h => exact h.store
  | exec _ h => exact h.store
  | value _ h => exact h.store
  | flow _ h => exact h.store
  | fault h => exact h

theorem Sound.seen {e : Expr} {st : Interpreter} (hv : (Node.expr e).Seen V Γ)
    (h : st.Fits V g D Γ Γ frames) : Sound V g D ⟨.eval e, frames, st⟩ := by
  obtain ⟨r, hv, hr⟩ := hv
  exact .eval hv (.inl hr) h

theorem Sound.branch {s : Stmt} {st : Interpreter} (hv : s.SeenBranch V Γ)
    (h : st.Fits V g D Γ Γ frames) : Sound V g D ⟨.exec s, frames, st⟩ := by
  obtain ⟨⟨r, hv, rfl⟩, hdecl⟩ := hv
  refine .exec hv ?_
  rwa [Stmt.scopesAfter_of_none hdecl]

/-- An operation whose value is handed on. -/
theorem Sound.give {r : Except Fault Value × Interpreter} (h : r.2.Fits V g D Γ Γ frames)
    (hv : ∀ v, r.1 = .ok v → v.Sound V g r.2.store) : Sound V g D (give r frames) := by
  obtain ⟨result, st⟩ := r
  cases result with
  | ok v => exact .value (hv v rfl) h
  | error f => exact .fault h.store

/-- An operation after which a statement ends. -/
theorem Sound.finish {r : Except Fault Unit × Interpreter} (h : r.2.Fits V g D Γ Γ frames) :
    Sound V g D (finish r frames) := by
  obtain ⟨result, st⟩ := r
  cases result with
  | ok => exact .flow (f := .normal) trivial h
  | error f => exact .fault h.store

end Machine

end Lox
