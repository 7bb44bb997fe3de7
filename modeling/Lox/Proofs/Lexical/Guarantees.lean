import Lox.Proofs.Lexical.Sessions
import Lox.Proofs.Scope.Variables

/-!
# What the text decides

A `super` in a method finds the superclass that the class around it was declared with, and the
object that the method was bound to, wherever the method is called and whatever has become of the
names since (`super_by_declaration`).

A program that passed the checks before it ran does not come to a fault that is internal, returns
from no statement at the top level, and returns no value from an initializer
(`no_internal_failure`).
-/

namespace Lox

/-! ## Moments with a past -/

/-- The machine some steps into the first statement of a source, after those that took the steps. -/
theorem Session.momentAfter_into {s : Session} {source : List UInt8}
    (haccepts : s.accepts source = true) (hprogram : (s.parse source).program.isEmpty = false)
    (steps : Nat) :
    MomentAfter s [s.visit source] (Machine.taken steps (s.into source 0))
      (s.into source steps) := by
  show MomentAfter s _ ([] ++ _) _
  refine .during .start haccepts ?_
  unfold into
  generalize (s.interpreter.resolve (s.parse source).program).2 = st
  cases hp : (s.parse source).program with
  | nil => rw [hp] at hprogram; cases hprogram
  | cons stmt rest => exact .here steps

section Moments

variable (natives : List Native) (output : Output) (maxCallDepth : Nat) (clock : Nat → Float)
  {v : Value}

/-! ## Superclasses -/

/-- **`super` means the superclass of the class around it.** At every moment of a session at which
`super` is to be evaluated, it stands in one place of the text: inside `locals` in a method of the
class `c`. At an earlier moment, the superclass of `c` was evaluated to `value` and a class was
declared with a closure `method` for that method. At another one, `method` was bound to the object
`o`, in a scope that the environment now has just outside the scopes of `locals` and of the call.
The result is the method that is found in `value`, bound to `o`, or a fault if there is none. -/
theorem super_by_declaration {roots : List Visit} {past : List Machine} {m : Machine}
    (h : Session.MomentAfter (.new (.new natives output maxCallDepth clock)) roots past m)
    {id : NodeId} {word name : Token} (hcontrol : m.control = .eval (.superRef id word name)) :
    ∃ E c kind method locals outer value declared key made o bound inner,
      (∃ r, Located roots E ⟨.expr (.superRef id word name), r⟩) ∧
      (∀ E' r, Located roots E' ⟨.expr (.superRef id word name), r⟩ → E' = E) ∧
      E = locals ++ .function kind method.decl :: .cls c :: outer ∧
      (∀ e ∈ locals, e.isClass = false) ∧
      made ∈ past ∧ made.Declares c value declared ∧ declared.body.methods.find? key = some method ∧
      bound ∈ past ∧ bound.Binds method o ∧
      m.state.env = inner ++ bound.state.store.nextScope :: method.env ∧
      inner.length = locals.length + 1 ∧
      (∀ k, value.findMethod? name.lexeme = some k →
        m.step = ⟨.value (.closure (m.state.bind k o).1), m.frames, (m.state.bind k o).2⟩) ∧
      (value.findMethod? name.lexeme = none →
        m.step =
          ⟨.fault (.runtime name.line (.undefinedProperty name.lexeme)), m.frames, m.state⟩) := by
  obtain ⟨s, plan, hfits, hlexicon, hmade, hlexical⟩ :=
    h.lexical (.new natives output maxCallDepth clock)
  obtain ⟨control, frames, st⟩ := m
  cases hcontrol
  cases hlexical with
  | @eval _ E _ _ hn hst =>
    obtain ⟨p⟩ := hst.super_bound hlexicon hn
    obtain ⟨r, hlocated⟩ := hn
    -- The two scopes are planned, so the machines that made them are in the past.
    obtain ⟨hbinds, hscope⟩ :=
      hst.store.made p.this p.thisSite p.thisSite_eq p.method p.receiver p.thisSite_role
    obtain ⟨scope, hsuper⟩ := p.superSite_mem
    have hids : (Node.expr (.superRef id word name)).ids ≠ [] := by simp [Node.ids, Expr.ids]
    have hstep : Machine.step ⟨.eval (.superRef id word name), frames, st⟩ =
        Machine.give (st.bindFound p.receiver name (p.value.findMethod? name.lexeme)) frames := by
      rw [Machine.step, Machine.stepEval, Interpreter.superMethod, p.binding]
    refine ⟨E, p.cls, p.kind, p.method, p.locals, p.outer, p.value, p.declared, p.name,
      p.superSite.maker, p.receiver, p.thisSite.maker, p.inner, ⟨r, hlocated⟩, fun E' r' hv =>
      hfits.unique_enclosures hlocated hv hids, p.enclosed, p.locals_isClass, hmade scope _ hsuper,
        p.declares, p.declared_method, hmade p.this _ p.thisSite_eq, hbinds, ?_,
      p.inner_length, fun k hk => ?_, fun hnone => ?_⟩
    · rw [hscope]
      exact p.env
    · rw [hstep, hk]
      rfl
    · rw [hstep, hnone]
      rfl

/-- The source
`{ class A { m() {} } class B < A { m() { super.m; } } class C < B {} A = nil; C().m(); }`. -/
def reassigning : List UInt8 :=
  ("\x7b class A \x7b m() \x7b\x7d \x7d class B < A \x7b m() \x7b super.m; \x7d \x7d " ++
    "class C < B \x7b\x7d A = nil; C().m(); \x7d").toUTF8.toList

/-- The machine that runs it when it comes to `super.m`. -/
def reassigningRun : Machine :=
  Session.into (.new (.new [] .unlimited 9 fun _ => 0)) reassigning 29

/-- The name `A` no longer stands for a class, but `super.m` is still found in the superclass of
`B`. -/
theorem reassigning_super_by_declaration :
    ∃ roots past word name,
      Session.MomentAfter (.new (.new [] .unlimited 9 fun _ => 0)) roots past reassigningRun ∧
      reassigningRun.control = .eval (.superRef 1 word name) ∧
      reassigningRun.state.store.get? reassigningRun.state.env "A" = some .nil ∧
      ∃ c value declared made method o bound k, made ∈ past ∧ made.Declares c value declared ∧
        bound ∈ past ∧ bound.Binds method o ∧ value.findMethod? "m" = some k ∧
        reassigningRun.step.control = .value (.closure (reassigningRun.state.bind k o).1) := by
  have hmoment : Session.MomentAfter _ _ _ reassigningRun :=
    Session.momentAfter_into (by decide +kernel) (by decide +kernel) 29
  -- The step makes a scope for `this`, so it does not fail.
  have hrun : (reassigningRun.control, reassigningRun.state.store.get? reassigningRun.state.env "A",
      reassigningRun.step.state.store.nextScope == reassigningRun.state.store.nextScope) =
      (.eval (.superRef 1 ⟨.keyword .superWord, "super", 1⟩ ⟨.identifier, "m", 1⟩), some .nil,
        false) := by
    rw [reassigningRun, show reassigning = _ from Utf8.encode_eq _]
    cbv
  simp only [Prod.mk.injEq] at hrun
  obtain ⟨hcontrol, hA, hstep⟩ := hrun
  obtain ⟨E, c, kind, method, locals, outer, value, declared, key, made, o, bound, inner, -, -, -,
    -, hmade, hdeclares, -, hbound, hbinds, -, -, hsome, hnone⟩ :=
    super_by_declaration [] .unlimited 9 (fun _ => 0) hmoment hcontrol
  cases hfind : value.findMethod? "m" with
  | none =>
    rw [hnone hfind, beq_self_eq_true] at hstep
    cases hstep
  | some k =>
    refine ⟨_, _, _, _, hmoment, hcontrol, hA, c, value, declared, made, method, o, bound, k, hmade,
      hdeclares, hbound, hbinds, hfind, ?_⟩
    rw [hsome k hfind]

/-! ## Internal faults -/

/-- A value that a machine has at hand, in a variable or in a field. -/
def Machine.Has (m : Machine) (v : Value) : Prop :=
  m.control = .value v ∨ (∃ scope name, m.state.store.find? scope name = some v) ∨
    ∃ id name, m.state.store.field? id name = some v

section

variable {L : List Enclosure → Visit → Prop} {plan : Plan} {g : ScopeId} {D : Distances}
  {m : Machine}

namespace Machine.Lexical

theorem has (h : m.Lexical L plan g D) (hv : m.Has v) : v.Follows L plan g := by
  rcases hv with hv | ⟨scope, name, hv⟩ | ⟨id, name, hv⟩
  · cases h with
    | value hfollows _ =>
      cases hv
      exact hfollows
    | _ => cases hv
  · exact h.store.values scope name v hv
  · exact h.store.fields id name v hv

/-- With no frames left there is no enclosure either, so there is nothing to return from. -/
theorem normal_of_ending? (h : m.Lexical L plan g D) {f : Flow} {st : Interpreter}
    (hending : m.ending? = some (.ok f, st)) : f = .normal := by
  obtain ⟨control, frames, st'⟩ := m
  cases frames with
  | cons frame frames => cases control <;> cases hending
  | nil =>
    cases h with
    | value => cases hending; rfl
    | flow _ hflow hst =>
      cases hending
      have hframes := hst.frames
      cases hframes
      cases f with
      | normal => rfl
      | returned v => exact absurd rfl (hflow rfl).1
    | _ => cases hending

/-- Where the body of an initializer ends, its enclosures are those of the initializer. -/
theorem nil_of_returned (h : m.Lexical L plan g D) {outer : Env} {bound : Closure}
    {frames : List Frame} (hcontrol : m.control = .flow (.returned v))
    (hframes : m.frames = .leave outer :: .initializer bound :: frames) : v = .nil := by
  obtain ⟨control, fs, st⟩ := m
  cases hcontrol
  cases hframes
  cases h with
  | flow _ hflow hst =>
    have hresume := hst.frames
    cases hresume with
    | frame hwaits => exact hwaits.elim
    | leave _ _ hbody _ => exact (hflow rfl).2 (hbody rfl)

theorem isInternal_eq_false (h : m.Lexical L plan g D) {f : Fault}
    (hcontrol : m.control = .fault f) : f.isInternal = false := by
  cases h with
  | fault hf _ =>
    cases hcontrol
    exact hf
  | _ => cases hcontrol

end Machine.Lexical

end

/-- A class knows that its method `init` is an initializer. -/
theorem Value.Follows.isInitializer {L : List Enclosure → Visit → Prop} {plan : Plan} {g : ScopeId}
    (h : v.Follows L plan g) {c : Class} (hc : v.class? = some c) {method : Closure}
    (hmethod : c.findMethod? "init" = some method) : method.isInitializer = true := by
  cases v with
  | cls k =>
    cases hc
    exact (Class.Follows.findMethod? h hmethod).2 rfl
  | object o =>
    cases hc
    exact (Class.Follows.findMethod? (c := o.cls) h hmethod).2 rfl
  | _ => cases hc

/-- The body of an initializer runs above a frame of its own, which stands for its end, whenever it
is called after it was bound. -/
theorem Machine.frames_of_initializer {method : Closure} (h : method.isInitializer = true)
    (o : Object) (arguments : List Value) (frames : List Frame) (st st' : Interpreter) :
    (enterClosure (st.bind method o).1 arguments frames st').frames =
      .sequence method.decl.body :: .leave st'.env :: .initializer (st.bind method o).1 ::
      frames := by
  have hbound : (st.bind method o).1.isInitializer = true := h
  simp only [enterClosure, hbound, if_true]
  rfl

/-- **The checks before a run leave out the internal failures.** At every moment of a session: no
statement at the top level has ended by a `return`; the body of a method `init` of a class, bound to
whatever object in a state `st` and called in a state `st'`, runs above an `initializer` frame, and
where it has come to this frame by a `return`, the value is `nil`; and no fault is internal. -/
theorem no_internal_failure {roots : List Visit} {m : Machine}
    (h : Session.Moment (.new (.new natives output maxCallDepth clock)) roots m) :
    (∀ f st, m.ending? = some (.ok f, st) → f = .normal) ∧
    (∀ v c method, m.Has v → v.class? = some c → c.findMethod? "init" = some method →
      ∀ o arguments frames (st st' : Interpreter), ∃ outer bound,
        (Machine.enterClosure (st.bind method o).1 arguments frames st').frames =
          .sequence method.decl.body :: .leave outer :: .initializer bound :: frames) ∧
    (∀ v outer bound frames, m.control = .flow (.returned v) →
      m.frames = .leave outer :: .initializer bound :: frames →
      v = .nil) ∧
    ∀ line f, m.control = .fault (.runtime line f) → f.isInternal = false := by
  obtain ⟨past, hafter⟩ := h.after
  obtain ⟨s, plan, -, -, -, hlexical⟩ := hafter.lexical (.new natives output maxCallDepth clock)
  refine ⟨fun f st hending => ?_, fun v c method hv hc hmethod o arguments frames st st' => ?_,
    fun v outer bound frames hcontrol hframes => ?_, fun line f hcontrol => ?_⟩
  · exact hlexical.normal_of_ending? hending
  · have hinit := (hlexical.has hv).isInitializer hc hmethod
    exact ⟨_, _, Machine.frames_of_initializer hinit o arguments frames st st'⟩
  · exact hlexical.nil_of_returned hcontrol hframes
  · exact hlexical.isInternal_eq_false hcontrol

/-- The source `{ class A { init() { return; } } A(); }`. -/
def returning : List UInt8 :=
  "\x7b class A \x7b init() \x7b return; \x7d \x7d A(); \x7d".toUTF8.toList

/-- The machine that runs it when it leaves the body of `init`. -/
def returningRun : Machine :=
  Session.into (.new (.new [] .unlimited 9 fun _ => 0)) returning 11

/-- The `return` in `init` comes to the end of the initializer, and gives no value. -/
theorem returning_gives_nil :
    ∃ roots v outer bound frames,
      Session.Moment (.new (.new [] .unlimited 9 fun _ => 0)) roots returningRun ∧
      returningRun.control = .flow (.returned v) ∧
      returningRun.frames = .leave outer :: .initializer bound :: frames ∧ v = .nil := by
  have hmoment : Session.Moment _ _ returningRun :=
    Session.moment_into (by decide +kernel) (by decide +kernel) 11
  have hrun : (returningRun.control, returningRun.frames.head?, Frame.bodyEnd?
      returningRun.frames.tail) = (.flow (.returned .nil), some (.leave [1, 0]), some true) := by
    rw [returningRun, show returning = _ from Utf8.encode_eq _]
    cbv
  simp only [Prod.mk.injEq] at hrun
  obtain ⟨hcontrol, hhead, hend⟩ := hrun
  obtain ⟨bound, frames, htail⟩ := Frame.initializer_of_bodyEnd? hend
  have hframes : returningRun.frames = .leave [1, 0] :: .initializer bound :: frames := by
    rw [← htail]
    exact List.eq_cons_of_mem_head? hhead
  refine ⟨_, _, _, bound, frames, hmoment, hcontrol, hframes, ?_⟩
  exact (no_internal_failure [] .unlimited 9 (fun _ => 0) hmoment).2.2.1 _ _ bound frames hcontrol
    hframes

end Moments

end Lox
