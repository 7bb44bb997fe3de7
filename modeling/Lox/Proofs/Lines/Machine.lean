import Lox.Proofs.Machine.Carrying

/-!
# Lines of faults

A machine gets the lines that it reports from tokens, and the tokens from the code that it runs:
from statements and expressions at hand, from frames that wait, and from functions and methods in
variables and fields. So if all of this code is on lines that satisfy `Q`, then it stays so with
each step, and faults are on such lines (`Machine.step_within`, `Interpreter.interpret_within`).
-/

namespace Lox

variable {Q : Nat → Prop} {P : Token → Prop} {f : Fault}

/-! ## Code on some lines -/

/-- The token is on a line that satisfies `Q`. -/
def Token.On (Q : Nat → Prop) (t : Token) : Prop :=
  Q t.line

theorem Expr.MadeOfAll.of_mem {es : List Expr} (h : MadeOfAll P es) : ∀ e ∈ es, e.MadeOf P := by
  induction es with
  | nil => exact List.forall_mem_nil _
  | cons e rest ih => exact List.forall_mem_cons.mpr ⟨h.1, ih h.2⟩

theorem Stmt.MadeOfAll.of_mem {body : List Stmt} (h : MadeOfAll P body) :
    ∀ s ∈ body, s.MadeOf P := by
  induction body with
  | nil => exact List.forall_mem_nil _
  | cons s rest ih => exact List.forall_mem_cons.mpr ⟨h.1, ih h.2⟩

theorem Stmt.MethodsMadeOf.of_mem {ds : List FunctionDecl} (h : MethodsMadeOf P ds) :
    ∀ d ∈ ds, FunctionMadeOf P d := by
  induction ds with
  | nil => exact List.forall_mem_nil _
  | cons d rest ih => exact List.forall_mem_cons.mpr ⟨h.1, ih h.2⟩

/-- Code whose tokens are on lines that satisfy `Q`. -/
def Code.on (Q : Nat → Prop) : Code where
  line := Q
  expr := Expr.MadeOf (Token.On Q)
  stmt := Stmt.MadeOf (Token.On Q)
  function := Stmt.FunctionMadeOf (Token.On Q)
  grouping h := h
  unary h := ⟨h.1.2, h.2⟩
  binary h := ⟨h.2.1, h.1.2, h.2.2⟩
  logical h := h.2
  name h := h.2
  assign h := ⟨h.1.2, h.2⟩
  application h := ⟨h.2.1, h.1.2, h.2.2.of_mem⟩
  get h := ⟨h.2, h.1.2⟩
  set h := ⟨h.2.1, h.1.2, h.2.2⟩
  thisRef h := h.2
  superRef h := ⟨h.1.2, h.2.2⟩
  expression h := h
  print h := h
  var h := h.2 _ rfl
  block h := Stmt.MadeOfAll.of_mem h
  ifThen h := ⟨h.1, h.2.2⟩
  ifThenElse h := ⟨h.1, h.2.1.2, h.2.2.2⟩
  whileLoop h := ⟨h.1, h.2.2⟩
  declaration h := h
  returnWith h := h.2 _ rfl
  classDef h := ⟨h.1.2, h.2.2.of_mem⟩
  inherits h := by
    obtain ⟨id, name, rfl, hname⟩ := h.2.1 _ rfl
    exact ⟨hname, hname.2⟩
  body {d} h := by
    obtain ⟨name, params, body⟩ := d
    exact ⟨h.1.2, h.2.2.of_mem⟩

/-! ## Machines -/

/-- The methods of a class are on lines that satisfy `Q`, its own and those it inherits. -/
def Class.Within (Q : Nat → Prop) (c : Class) : Prop :=
  ∀ b ∈ c.lineage, ∀ name method, b.methods.find? name = some method →
    Stmt.FunctionMadeOf (Token.On Q) method.decl

/-- So is the code that a value refers to. -/
def Value.Within (Q : Nat → Prop) : Value → Prop
  | .closure c => Stmt.FunctionMadeOf (Token.On Q) c.decl
  | .cls c => c.Within Q
  | .object o => o.cls.Within Q
  | _ => True

/-- All code is on lines that satisfy `Q`. -/
def Carrying.on (Q : Nat → Prop) : Carrying where
  toCode := .on Q
  Stage := Unit
  Before _ _ := True
  value _ := Value.Within Q
  env _ _ := True
  store _ _ _ := True
  refl _ := trivial
  trans _ _ := trivial
  value_mono _ h := h
  env_mono _ h := h
  plain {_ v} h := by
    cases v with
    | closure | cls | object => cases h
    | _ => trivial
  native := trivial
  closure := (and_iff_right trivial).symm
  method {_ v c n m} h hc hm := by
    obtain ⟨b, hb, hfind⟩ := List.exists_of_findSome?_eq_some hm
    cases v with
    | cls | object =>
      cases hc
      exact h b hb n m hfind
    | _ => cases hc
  put _ _ _ _ := trivial
  addScope _ _ _ := ⟨(), trivial, trivial, trivial⟩
  addIdentity _ := ⟨(), trivial, trivial⟩

/-- A class is on known lines if its methods and its superclass are. -/
theorem Class.extend_within {body : ClassBody} {superclass : Option Class}
    (h : ∀ name method, body.methods.find? name = some method →
      Stmt.FunctionMadeOf (Token.On Q) method.decl)
    (hs : ∀ c, superclass = some c → c.Within Q) : (Class.extend body superclass).Within Q := by
  cases superclass with
  | none => exact List.forall_mem_singleton.mpr h
  | some c => exact List.forall_mem_cons.mpr ⟨h, hs c rfl⟩

/-- All code of an interpreter is on lines that satisfy `Q`. -/
def Interpreter.Within (Q : Nat → Prop) (st : Interpreter) : Prop :=
  (Carrying.on Q).OfState () st

/-- So is all code of a machine. -/
def Machine.Within (Q : Nat → Prop) (m : Machine) : Prop :=
  (Carrying.on Q).OfMachine () m

/-- **A step brings in no new lines.** -/
theorem Machine.step_within {m : Machine} (h : m.Within Q) : m.step.Within Q := by
  have hallows : (Carrying.on Q).Allows () m := by
    refine ⟨fun _ _ _ _ => trivial, fun _ _ hc => ⟨trivial, hc⟩, ?_⟩
    intro name superclass methods _ j _ _ hs hmethods
    exact ⟨(), trivial, trivial, Class.extend_within hmethods hs⟩
  obtain ⟨j, -, hm⟩ := Carrying.step h hallows
  exact hm

/-- A machine stays on the lines that it started on. -/
theorem Machine.run_within (budget : Nat) {m : Machine} (h : m.Within Q) :
    (run budget m).Within Q := by
  induction budget generalizing m with
  | zero => exact h
  | succ budget ih =>
    rw [run]
    split
    · exact h
    · exact ih (step_within h)

/-! ## Programs -/

namespace Interpreter

variable {st st' : Interpreter} {budget : Nat}

theorem execute_within (hst : st.Within Q) {s : Stmt} (hs : s.MadeOf (Token.On Q)) {ending : Ending}
    (h : st.execute budget s = some (ending, st')) :
    (∀ f, ending = .error f → (Carrying.on Q).OfFault f) ∧ st'.Within Q := by
  have hrun : (Machine.run budget ⟨.exec s, [], st⟩).Within Q :=
    Machine.run_within budget ⟨hs, List.forall_mem_nil _, hst⟩
  unfold execute at h
  generalize Machine.run budget ⟨.exec s, [], st⟩ = m at h hrun
  unfold Machine.ending? at h
  split at h <;> cases h
  · exact ⟨fun f hf => (nomatch hf), hrun.state⟩
  · exact ⟨fun f hf => (nomatch hf), hrun.state⟩
  · refine ⟨?_, hrun.state⟩
    rintro f ⟨⟩
    exact hrun.control

theorem executeAll_within (hst : st.Within Q) {program : List Stmt}
    (hprogram : Stmt.MadeOfAll (Token.On Q) program)
    (h : st.executeAll budget program = some (.error f, st')) : (Carrying.on Q).OfFault f := by
  induction program generalizing st with
  | nil => cases h
  | cons s rest ih =>
    unfold executeAll at h
    split at h
    · next hs => exact ih (execute_within hst hprogram.1 hs).2 hprogram.2 h
    · next hs =>
      cases h
      exact (execute_within hst hprogram.1 hs).1 f rfl
    · cases h

/-- **A program fails on one of its lines**, or because of its output. -/
theorem interpret_within (hst : st.Within Q) {program : List Stmt}
    (hprogram : Stmt.MadeOfAll (Token.On Q) program)
    (h : st.interpret budget program = some (.error f, st')) : (Carrying.on Q).OfFault f := by
  unfold interpret at h
  split at h
  · have hflush : flush _ = .error f := congrArg Prod.fst (Option.some.inj h)
    unfold flush at hflush
    split at hflush <;> cases hflush
    trivial
  · exact executeAll_within hst hprogram h

/-- Before anything has run there is no code. -/
theorem new_within (natives : List Native) (output : Output) (maxCallDepth : Nat)
    (clock : Nat → Float) : (new natives output maxCallDepth clock).Within Q :=
  Carrying.ofState_new trivial trivial

end Interpreter

end Lox
