import Lox.Proofs.Heap.History
import Lox.Proofs.Lexical.Calls

/-!
# Where objects and classes come from

A machine makes an object when it calls a class, and a class when it executes a class statement; all
other values of a step were there before, or are neither (`Machine.holds_step`). Fields are written
where a property is set, and nowhere else (`Machine.objects_step`).
-/

namespace Lox

variable {o : Object}

namespace Machine

/-! ## Machines that make and write -/

variable {m : Machine} {callee : Value} {paren : Token} {arguments : List Value}
  {frames : List Frame}

theorem Calls.step (h : m.Calls callee paren arguments frames) :
    m.step = call callee paren arguments frames m.state := by
  obtain ⟨control, fs, st⟩ := m
  cases h with
  | plain hcontrol hframes =>
    cases hcontrol
    cases hframes
    rfl
  | applied hcontrol hframes =>
    cases hcontrol
    cases hframes
    rfl

theorem Calls.holds (h : m.Calls callee paren arguments frames) :
    m.Holds callee ∧ ∀ v ∈ arguments, m.Holds v := by
  cases h with
  | plain hcontrol hframes =>
    refine ⟨.control ?_, ?_⟩
    · rw [hcontrol]
      exact List.mem_cons_self
    · intro v hv
      cases hv
  | @applied v done _ hcontrol hframes =>
    have hframe : Frame.argument callee paren done [] ∈ m.frames := by
      rw [hframes]
      exact List.mem_cons_self
    refine ⟨.frame hframe List.mem_cons_self, ?_⟩
    intro w hw
    rcases List.mem_cons.mp (List.mem_reverse.mp hw) with rfl | hw
    · refine .control ?_
      rw [hcontrol]
      exact List.mem_cons_self
    · exact .frame hframe (List.mem_cons_of_mem _ hw)

theorem Calls.isDone (h : m.Calls callee paren arguments frames) : m.isDone = false := by
  obtain ⟨control, fs, st⟩ := m
  cases h with
  | plain hcontrol hframes => cases hcontrol; cases hframes; rfl
  | applied hcontrol hframes => cases hcontrol; cases hframes; rfl

/-- Calling a class with the right number of arguments makes an object. -/
theorem Calls.step_of_length {c : Class} (h : m.Calls (.cls c) paren arguments frames)
    (hlength : arguments.length = c.arity) (hdepth : m.state.callDepth < m.state.maxCallDepth) :
    m.step =
      instantiate c arguments (.endCall :: frames)
      { m.state with callDepth := m.state.callDepth + 1 } := by
  rw [h.step, call, arity?]
  simp only [hlength, ne_eq, not_true_eq_false, if_false, if_neg (Nat.not_le.mpr hdepth)]
  rfl

theorem Creates.step (h : m.Creates o) : ∃ paren arguments frames,
    m.Calls (.cls o.cls) paren arguments frames ∧ arguments.length = o.cls.arity ∧
    m.step =
      instantiate o.cls arguments (.endCall :: frames)
      { m.state with callDepth := m.state.callDepth + 1 } := by
  obtain ⟨-, hdepth, paren, arguments, frames, hcalls, hlength⟩ := h
  exact ⟨paren, arguments, frames, hcalls, hlength, hcalls.step_of_length hlength hdepth⟩

/-- A step that writes a field. -/
theorem Writes.step {name : String} {v : Value} (h : m.Writes o name v) :
    ∃ frames, m.step = ⟨.value v, frames, m.state.setField o name v⟩ ∧
      (∀ frame ∈ frames, frame ∈ m.frames) ∧
      m.Holds (.object o) ∧ m.Holds v := by
  obtain ⟨control, fs, st⟩ := m
  obtain ⟨token, frames, hcontrol, hframes, rfl⟩ := h
  cases hcontrol
  cases hframes
  have hmem : Frame.setValue o token ∈ Frame.setValue o token :: frames := List.mem_cons_self
  exact ⟨frames, rfl, fun frame hf => List.mem_cons_of_mem _ hf, .frame hmem List.mem_cons_self,
    .control List.mem_cons_self⟩

end Machine

/-! ## Values and objects -/

theorem Value.class?_of_isPlain {v : Value} (h : v.isPlain = true) : v.class? = none := by
  cases v with
  | cls | object => cases h
  | _ => rfl

/-- All values satisfy `P`, as values that are neither objects nor classes do anyway. The objects
and the number of scopes satisfy `K`, which more scopes do not change. -/
def Carrying.ofValues (P : Value → Prop) (hplain : ∀ v : Value, v.class? = none → P v)
    (K : Array (NameTable Value) → Nat → Prop) (hK : ∀ a n, K a n → K a (n + 1)) : Carrying where
  toCode := .any
  Stage := Unit
  Before _ _ := True
  value _ := P
  env _ _ := True
  store _ _ s := K s.objects s.nextScope
  refl _ := trivial
  trans _ _ := trivial
  value_mono _ h := h
  env_mono _ h := h
  plain h := hplain _ (Value.class?_of_isPlain h)
  native := hplain _ rfl
  closure := ⟨fun _ => ⟨trivial, trivial⟩, fun _ => hplain _ rfl⟩
  method _ _ _ := hplain _ rfl
  put {_ _ s} h scope name v := by
    rw [Store.nextScope, s.size_put scope name v]
    exact h
  addScope {_ _ s _} h _ bindings := by
    refine ⟨(), trivial, ?_, trivial⟩
    rw [Store.nextScope, s.size_addScope bindings]
    exact hK _ _ h
  addIdentity h := ⟨(), trivial, h⟩

namespace Machine

variable {P : Value → Prop} {hplain : ∀ v : Value, v.class? = none → P v}
  {K : Array (NameTable Value) → Nat → Prop} {hK : ∀ a n, K a n → K a (n + 1)} {m : Machine}

theorem ofValues_of_holds (hall : ∀ v, m.Holds v → P v)
    (hs : K m.state.store.objects m.state.store.nextScope) :
    (Carrying.ofValues P hplain K hK).OfMachine () m where
  control := by
    have hcontrol : ∀ v ∈ m.control.values, P v := fun v hv => hall v (.control hv)
    generalize m.control = control at hcontrol
    cases control with
    | value v => exact hcontrol v List.mem_cons_self
    | flow f =>
      cases f with
      | normal => exact hplain _ rfl
      | returned v => exact hcontrol v List.mem_cons_self
    | fault f => cases f <;> trivial
    | _ => trivial
  frames frame hf := by
    have hframe : ∀ v ∈ frame.values, P v := fun v hv => hall v (.frame hf hv)
    cases frame with
    | binaryRight left operator => exact ⟨hframe left List.mem_cons_self, trivial⟩
    | argument target paren done todo => exact ⟨hframe, trivial, fun _ _ => trivial⟩
    | setValue | construct => exact hframe _ List.mem_cons_self
    | initializer c => exact hplain _ rfl
    | unary | logical | assign | get | leave => trivial
    | binaryLeft | setObject | loopTest | loopBody => exact ⟨trivial, trivial⟩
    | callee | branch => exact ⟨trivial, fun _ _ => trivial⟩
    | superclass => exact ⟨trivial, trivial, fun _ _ => trivial⟩
    | sequence rest => exact fun _ _ => trivial
    | _ => trivial
  state := ⟨hs, trivial, fun _ _ v hv => hall v (.variable hv), fun _ _ v hv => hall v (.field hv)⟩

/-- A step, with what it may write or make. -/
theorem ofValues_step (hall : ∀ v, m.Holds v → P v)
    (hs : K m.state.store.objects m.state.store.nextScope)
    (hclass : ∀ superclass methods c, m.DeclaresClass superclass methods c → P (.cls c))
    (hwrite : ∀ o name v, m.Writes o name v →
      K (m.state.store.setField o.id name v).objects m.state.store.nextScope)
    (hobject : ∀ o, m.Creates o →
      K m.state.store.addObject.objects m.state.store.nextScope ∧ P (.object o)) :
    (Carrying.ofValues P hplain K hK).OfMachine () m.step := by
  have hallows : (Carrying.ofValues P hplain K hK).Allows () m := by
    refine ⟨hwrite, fun o ho _ => hobject o ho, ?_⟩
    intro name superclass methods hc j _ hst _ _
    exact ⟨(), trivial, hst, hclass _ _ _ hc⟩
  obtain ⟨j, -, hm⟩ := Carrying.step (ofValues_of_holds hall hs) hallows
  exact hm

/-! ## What a step can do -/

/-- **All values after a step were there before, are neither objects nor classes, or are the object
or the class that the step makes.** -/
theorem holds_step (hplain : ∀ v : Value, v.class? = none → P v) (hall : ∀ v, m.Holds v → P v)
    (hclass : ∀ superclass methods c, m.DeclaresClass superclass methods c → P (.cls c))
    (hobject : ∀ o, m.Creates o → P (.object o)) (v : Value) (hv : m.step.Holds v) : P v := by
  have hstep : (Carrying.ofValues P hplain (fun _ _ => True) fun _ _ h => h).OfMachine () m.step :=
    ofValues_step hall trivial hclass (fun _ _ _ _ => trivial) fun o ho => ⟨trivial, hobject o ho⟩
  exact hstep.holds hv

/-- A step keeps what it neither writes nor makes. -/
theorem keeps_step (hK : ∀ a n, K a n → K a (n + 1))
    (hs : K m.state.store.objects m.state.store.nextScope)
    (hwrite : ∀ o name v, m.Writes o name v →
      K (m.state.store.setField o.id name v).objects m.state.store.nextScope)
    (hobject : ∀ o, m.Creates o → K m.state.store.addObject.objects m.state.store.nextScope) :
    K m.step.state.store.objects m.step.state.store.nextScope := by
  have hstep : (Carrying.ofValues (fun _ => True) (fun _ _ => trivial) K hK).OfMachine () m.step :=
    ofValues_step (fun _ _ => trivial) hs (fun _ _ _ _ => trivial) hwrite
      fun o ho => ⟨hobject o ho, trivial⟩
  exact hstep.state.store

/-- **A step writes the field that it is told to write, or makes an object, or leaves all objects as
they are.** -/
theorem objects_step (m : Machine) :
    (∃ o name v, m.Writes o name v ∧
      m.step.state.store.objects = (m.state.store.setField o.id name v).objects) ∨
    (∃ o, m.Creates o ∧ m.step.state.store.objects = m.state.store.addObject.objects) ∨
    (∀ o name v, ¬m.Writes o name v) ∧ (∀ o, ¬m.Creates o) ∧
      m.step.state.store.objects = m.state.store.objects := by
  by_cases hwrite : ∃ o name v, m.Writes o name v
  · obtain ⟨o, name, v, hwrite⟩ := hwrite
    obtain ⟨frames, hstep, -⟩ := hwrite.step
    refine .inl ⟨o, name, v, hwrite, ?_⟩
    rw [hstep]
    rfl
  by_cases hcreate : ∃ o, m.Creates o
  · obtain ⟨o, hcreate⟩ := hcreate
    obtain ⟨paren, arguments, frames, -, -, hstep⟩ := hcreate.step
    refine .inr (.inl ⟨o, hcreate, ?_⟩)
    rw [hstep]
    unfold instantiate
    dsimp only
    split <;> rfl
  · have hnone (o : Object) (name : String) (v : Value) (h : m.Writes o name v) : False :=
      hwrite ⟨o, name, v, h⟩
    have hmade (o : Object) (h : m.Creates o) : False := hcreate ⟨o, h⟩
    refine .inr (.inr ⟨hnone, hmade, ?_⟩)
    exact keeps_step (K := fun a _ => a = m.state.store.objects) (fun _ _ h => h) rfl
      (fun o name v h => (hnone o name v h).elim) fun o h => (hmade o h).elim

/-- **A step takes no scope away.** -/
theorem nextScope_step (m : Machine) : m.state.store.nextScope ≤ m.step.state.store.nextScope :=
  keeps_step (K := fun _ n => m.state.store.nextScope ≤ n) (fun _ _ h => Nat.le_succ_of_le h)
    (Nat.le_refl _) (fun _ _ _ _ => Nat.le_refl _) fun _ _ => Nat.le_refl _

end Machine

end Lox
