import Lox.Proofs.Lexical.Calls
import Lox.Proofs.Pieces.Walk

/-!
# The global variables that a program declares

Whatever a program calls, a name becomes a global variable only by a declaration that stands at the
top level of its own text. A function body and a block run in scopes of their own, and what they
declare stays there. So while a statement runs, the frames between here and the next change of the
environment say which names may still be declared in it (`Frame.Confined`).

Conversely a declaration that has ended without a fault has been made: until then a frame at the
bottom waits for the value (`Machine.Owes`). After a program has run to its end, its global
variables are therefore those before and those that it declares (`Interpreter.contains_executeAll`).
-/

namespace Lox

variable {name : String} {frame : Frame} {s : Stmt} {g : ScopeId} {st : Interpreter} {t : Token}
  {f : Flow}

/-! ## The names of one scope -/

/-- A change of the store that may add some names to a scope, and takes none away. -/
structure Store.Adds (g : ScopeId) (names : List String) (s s' : Store) : Prop where
  size : s.scopes.size ≤ s'.scopes.size
  kept : ∀ name, s.contains g name = true → s'.contains g name = true
  new : ∀ name, s'.contains g name = true → s.contains g name = true ∨ name ∈ names

namespace Store.Adds

variable {g : ScopeId} {names : List String} {s s₁ s₂ : Store}

theorem refl : Adds g names s s :=
  ⟨Nat.le_refl _, fun _ h => h, fun _ h => .inl h⟩

theorem trans (h : Adds g names s s₁) (h' : Adds g names s₁ s₂) : Adds g names s s₂ := by
  refine ⟨Nat.le_trans h.size h'.size, fun name hc => h'.kept name (h.kept name hc),
    fun name hc => ?_⟩
  rcases h'.new name hc with hc | hmem
  · exact h.new name hc
  · exact .inr hmem

/-- A change that leaves the names of the scope alone. -/
theorem of_grows (h : Grows (g + 1) s s₁) : Adds g names s s₁ := by
  refine ⟨h.size, h.kept g, fun name hc => .inl ?_⟩
  rw [← h.unchanged g (Nat.lt_succ_self g)]
  exact hc

/-- A declaration in another scope, or of one of the names. -/
theorem define {env : Env} (v : Value) (h : env.head? = some g → name ∈ names) :
    Adds g names s (s.define env name v) := by
  cases env with
  | nil => exact .refl
  | cons scope env =>
    refine ⟨Nat.le_of_eq (size_put ..).symm, (Grows.put name v (Nat.zero_le scope)).kept g,
      fun other hc => ?_⟩
    rw [Store.define, contains, find?_put] at hc
    split at hc
    · next heq =>
      obtain ⟨rfl, rfl, -⟩ := heq
      exact .inr (h rfl)
    · exact .inl hc

end Store.Adds

namespace Interpreter

/-- An operation that stays in its environment and may add some names to a scope. -/
structure Adds (g : ScopeId) (names : List String) (st st' : Interpreter) : Prop where
  env : st'.env = st.env
  store : Store.Adds g names st.store st'.store

variable {g : ScopeId} {names : List String} {st st₁ st₂ : Interpreter}

theorem Adds.refl : Adds g names st st :=
  ⟨rfl, .refl⟩

theorem Adds.trans (h : Adds g names st st₁) (h' : Adds g names st₁ st₂) : Adds g names st st₂ :=
  ⟨h'.env.trans h.env, h.store.trans h'.store⟩

/-- An assignment adds no names. -/
theorem assign_adds (id : NodeId) (name : Token) (v : Value) :
    Adds g names st (st.assign id name v).2 := by
  unfold assign
  split
  · next htarget => exact ⟨rfl, .of_grows (.overwrite v (contains_of_target? htarget))⟩
  · exact .refl

/-- A declaration adds its own name. -/
theorem define_adds (v : Value) (h : st.env.head? = some g → name ∈ names) :
    Adds g names st (st.define name v) :=
  ⟨rfl, .define v h⟩

variable (hg : g < st.store.scopes.size)

include hg

theorem addScope_adds (bindings : NameTable Value) : Adds g names st (st.addScope bindings) :=
  ⟨rfl, .of_grows (.addScope bindings hg)⟩

theorem bindFound_adds (o : Object) (name : Token) (method : Option Closure) :
    Adds g names st (st.bindFound o name method).2 := by
  cases method with
  | some c => exact (addScope_adds hg _).trans ⟨rfl, .of_grows (.of_scopes rfl)⟩
  | none => exact .refl

theorem property_adds (o : Object) (name : Token) : Adds g names st (st.property o name).2 := by
  unfold property
  split
  · exact .refl
  · exact bindFound_adds hg o name _

theorem superMethod_adds (id : NodeId) (word method : Token) :
    Adds g names st (st.superMethod id word method).2 := by
  unfold superMethod
  split
  · exact bindFound_adds hg _ method _
  · exact .refl

theorem makeMethods_adds {name : Token} (superclass : Option Class) (methods : List FunctionDecl)
    (h : st.env.head? = some g → name.lexeme ∈ names) :
    Adds g names st (st.makeMethods name superclass methods).2 := by
  have hdefine : Adds g names st (st.define name.lexeme .nil) := define_adds .nil h
  have henter : Adds g names (st.define name.lexeme .nil)
      ((st.define name.lexeme .nil).enterSuperclass superclass).2 := by
    cases superclass with
    | none => exact .refl
    | some c => exact addScope_adds (Nat.lt_of_lt_of_le hg hdefine.store.size) _
  refine (hdefine.trans henter).trans
    ⟨(closeMethods_samePlace _ _ methods ∅).env, .of_grows (.of_scopes ?_)⟩
  exact closeMethods_scopes _ methods ∅

/-- A class declaration adds its own name. -/
theorem defineClass_adds {name : Token} (superclass : Option Class) (methods : List FunctionDecl)
    (h : st.env.head? = some g → name.lexeme ∈ names) :
    Adds g names st (st.defineClass name superclass methods).2 := by
  have hmake := makeMethods_adds hg superclass methods h
  have hidentity : Adds g names (st.makeMethods name superclass methods).2
      (st.makeMethods name superclass methods).2.addIdentity := ⟨rfl, .of_grows (.of_scopes rfl)⟩
  have hadds := hmake.trans hidentity
  unfold defineClass
  simp only [makeMethods] at hadds ⊢
  split
  · next hbinder => exact hadds.trans ⟨rfl, .of_grows (.overwrite _ (contains_of_binder? hbinder))⟩
  · exact hadds

end Interpreter

/-! ## What may still be declared -/

/-- The names that a statement can declare in the scope it is executed in. -/
def Stmt.direct : Stmt → List String
  | .var name _ => [name.lexeme]
  | .function decl => [decl.name.lexeme]
  | .classDef name _ _ => [name.lexeme]
  | .ifThen _ thenBranch => thenBranch.direct
  | .ifThenElse _ thenBranch elseBranch => thenBranch.direct ++ elseBranch.direct
  | .whileLoop _ body => body.direct
  | _ => []

/-- In a formed statement only the declaration itself counts. -/
theorem Stmt.direct_eq : ∀ {s : Stmt}, s.Formed → s.direct = declared [s]
  | .var _ _, _ | .function _, _ | .classDef _ _ _, _ | .expression _, _ | .print _, _ | .block _, _
  | .returnWith _ _, _ => rfl
  | .ifThen _ s, ⟨_, hdecl, h⟩ | .whileLoop _ s, ⟨_, hdecl, h⟩ => by
    rw [direct, direct_eq h, declared_of_none hdecl]
    rfl
  | .ifThenElse _ s s', ⟨_, ⟨hdecl, h⟩, hdecl', h'⟩ => by
    rw [direct, direct_eq h, direct_eq h', declared_of_none hdecl, declared_of_none hdecl']
    rfl

namespace Frame

/-- The names that going on with a frame can declare in the current scope. -/
def direct : Frame → List String
  | .declare name => [name.lexeme]
  | .branch thenBranch none => thenBranch.direct
  | .branch thenBranch (some elseBranch) => thenBranch.direct ++ elseBranch.direct
  | .loopTest _ body => body.direct
  | .loopBody _ body => body.direct
  | .superclass name _ _ => [name.lexeme]
  | .sequence rest => rest.flatMap Stmt.direct
  | _ => []

/-- The environment after a frame has been taken away. -/
def outside (env : Env) : Frame → Env
  | .leave outer => outer
  | _ => env

/-- Frames that can declare only some names in a scope, if they go on in an environment. -/
inductive Confined (g : ScopeId) (names : List String) : Env → List Frame → Prop where
  | nil {env : Env} : Confined g names env []
  | cons {env : Env} {frame : Frame} {frames : List Frame}
      (hframe : env.head? = some g → frame.direct ⊆ names)
      (h : Confined g names (frame.outside env) frames) : Confined g names env (frame :: frames)

variable {g : ScopeId} {names : List String} {env : Env} {frame : Frame} {frames : List Frame}

/-- A frame that declares nothing. -/
theorem Confined.quiet (h : Confined g names (frame.outside env) frames)
    (hframe : frame.direct = []) : Confined g names env (frame :: frames) := by
  refine .cons (fun _ => ?_) h
  rw [hframe]
  exact List.nil_subset names

theorem Confined.head (h : Confined g names env (frame :: frames)) (henv : env.head? = some g) :
    frame.direct ⊆ names := by
  cases h with
  | cons hframe _ => exact hframe henv

theorem Confined.tail (h : Confined g names env (frame :: frames)) :
    Confined g names (frame.outside env) frames := by
  cases h with
  | cons _ h => exact h

end Frame

/-- The names that the control can declare in the current scope. -/
def Control.direct : Control → List String
  | .exec s => s.direct
  | _ => []

namespace Machine

variable {m : Machine}

/-- A machine that can add only some names to a scope. -/
structure Confined (g : ScopeId) (names : List String) (m : Machine) : Prop where
  bound : g < m.state.store.scopes.size
  control : m.state.env.head? = some g → m.control.direct ⊆ names
  frames : Frame.Confined g names m.state.env m.frames

/-- A machine that goes on from a state and some frames: it can add only some names to a scope, has
added no others, and has all the frames still. -/
structure AddsFrom (g : ScopeId) (names : List String) (st : Interpreter) (frames : List Frame)
    (m : Machine) : Prop where
  adds : Store.Adds g names st.store m.state.store
  control : m.state.env.head? = some g → m.control.direct ⊆ names
  confined : Frame.Confined g names m.state.env m.frames
  stays : frames <:+ m.frames

variable {g : ScopeId} {names : List String} {st st' : Interpreter} {frames fs : List Frame}

namespace AddsFrom

/-- Going on in the same environment with a control that declares nothing. -/
theorem quiet (h : st.Adds g names st') (hframes : Frame.Confined g names st.env frames)
    {c : Control} (hc : c.direct = []) : AddsFrom g names st frames ⟨c, frames, st'⟩ := by
  refine ⟨h.store, fun _ => ?_, ?_, List.suffix_refl frames⟩
  · show c.direct ⊆ names
    rw [hc]
    exact List.nil_subset names
  · show Frame.Confined g names st'.env frames
    rw [h.env]
    exact hframes

/-- Going on with a frame more. -/
theorem push (hframes : Frame.Confined g names st.env (frame :: frames)) {c : Control}
    (hc : c.direct = []) : AddsFrom g names st frames ⟨c, frame :: frames, st⟩ :=
  have h := quiet .refl hframes hc
  ⟨h.adds, h.control, h.confined, List.suffix_cons frame frames⟩

theorem exec (hs : st.env.head? = some g → s.direct ⊆ names)
    (hframes : Frame.Confined g names st.env fs) (hstays : frames <:+ fs) :
    AddsFrom g names st frames ⟨.exec s, fs, st⟩ :=
  ⟨.refl, hs, hframes, hstays⟩

theorem give {r : Except Fault Value × Interpreter} (h : st.Adds g names r.2)
    (hframes : Frame.Confined g names st.env frames) :
    AddsFrom g names st frames (give r frames) := by
  unfold Machine.give
  split <;> exact quiet h hframes rfl

theorem finish {r : Except Fault Unit × Interpreter} (h : st.Adds g names r.2)
    (hframes : Frame.Confined g names st.env frames) :
    AddsFrom g names st frames (finish r frames) := by
  unfold Machine.finish
  split <;> exact quiet h hframes rfl

theorem trans (h : st.Adds g names st') (hstays : frames <:+ fs) (h' : AddsFrom g names st' fs m) :
    AddsFrom g names st frames m :=
  ⟨h.store.trans h'.adds, h'.control, h'.confined, hstays.trans h'.stays⟩

end AddsFrom

/-! ## Calls -/

theorem callNative_adds (n : Native) (paren : Token) (arguments : List Value) :
    st.Adds g names (callNative n paren arguments st).2 := by
  obtain ⟨k, heq⟩ := exists_callNative_eq n paren arguments st
  rw [heq]
  exact ⟨rfl, .refl⟩

section

variable (hg : g < st.store.scopes.size) (hframes : Frame.Confined g names st.env frames)

include hg hframes

/-- Statements in a new scope declare nothing outside it. -/
theorem enter_addsFrom (env : Env) (bindings : NameTable Value) (body : List Stmt) :
    AddsFrom g names st frames
      ⟨.flow .normal, .sequence body :: .leave st.env :: frames, st.enter env bindings⟩ := by
  have hnew : (st.enter env bindings).env.head? ≠ some g := by
    show some st.store.nextScope ≠ some g
    intro h
    exact Nat.ne_of_gt hg (Option.some.inj h)
  exact ⟨.of_grows (.addScope bindings hg), fun h => absurd h hnew,
    .cons (fun h => absurd h hnew) (.quiet hframes rfl), ⟨[_, _], rfl⟩⟩

theorem enterClosure_addsFrom (c : Closure) (arguments : List Value) :
    AddsFrom g names st frames (enterClosure c arguments frames st) := by
  simp only [enterClosure]
  split
  · refine .trans .refl (List.suffix_cons (.initializer c) frames)
      (enter_addsFrom hg ?_ c.env _ c.decl.body)
    exact .quiet hframes rfl
  · exact enter_addsFrom hg hframes c.env _ c.decl.body

theorem instantiate_addsFrom (c : Class) (arguments : List Value) :
    AddsFrom g names st frames (instantiate c arguments frames st) := by
  have hobject : st.Adds g names { st with store := st.store.addObject } :=
    ⟨rfl, .of_grows (.of_scopes rfl)⟩
  simp only [instantiate]
  split
  · next method _ =>
    have hbind : st.Adds g names
        (({ st with store := st.store.addObject } : Interpreter).bind method
          ⟨st.store.nextObject, c⟩).2 :=
      (hobject.trans (Interpreter.addScope_adds (by exact hg) _)).trans
        ⟨rfl, .of_grows (.of_scopes rfl)⟩
    refine .trans hbind (List.suffix_cons _ frames)
      (enterClosure_addsFrom (Nat.lt_of_lt_of_le hg hbind.store.size) ?_ _ arguments)
    exact .quiet hframes rfl
  · exact .quiet hobject hframes rfl

theorem call_addsFrom (callee : Value) (paren : Token) (arguments : List Value) :
    AddsFrom g names st frames (call callee paren arguments frames st) := by
  unfold call
  split
  · exact .quiet .refl hframes rfl
  · split
    · exact .quiet .refl hframes rfl
    · split
      · exact .quiet .refl hframes rfl
      · have hcount : st.Adds g names { st with callDepth := st.callDepth + 1 } := ⟨rfl, .refl⟩
        have hframes : Frame.Confined g names st.env (.endCall :: frames) := .quiet hframes rfl
        refine .trans hcount (List.suffix_cons .endCall frames) ?_
        generalize hst : ({ st with callDepth := st.callDepth + 1 } : Interpreter) = st₁
        have hg₁ : g < st₁.store.scopes.size := by rw [← hst]; exact hg
        have hframes₁ :
            Frame.Confined g names st₁.env (.endCall :: frames) := by rw [← hst]; exact hframes
        simp only [startCall, hst]
        cases callee with
        | native n => exact .give (callNative_adds n paren arguments) hframes₁
        | closure c => exact enterClosure_addsFrom hg₁ hframes₁ c arguments
        | cls c => exact instantiate_addsFrom hg₁ hframes₁ c arguments
        | _ => exact .quiet .refl hframes₁ rfl

theorem stepArguments_addsFrom (callee : Value) (paren : Token) (done : List Value)
    (todo : List Expr) :
    AddsFrom g names st frames (stepArguments callee paren done todo frames st) := by
  cases todo with
  | cons e rest => exact .push (.quiet hframes rfl) rfl
  | nil => exact call_addsFrom hg hframes callee paren done.reverse

/-! ## One step -/

/-- Starting an expression adds no names. -/
theorem stepEval_addsFrom (e : Expr) : AddsFrom g names st frames (stepEval e frames st) := by
  cases e with
  | literal l => exact .quiet .refl hframes rfl
  | grouping inner => exact .quiet .refl hframes rfl
  | «variable» id name => exact .give .refl hframes
  | thisRef id word => exact .give .refl hframes
  | superRef id word method => exact .give (Interpreter.superMethod_adds hg id word method) hframes
  | _ => exact .push (.quiet hframes rfl) rfl

/-- Starting a statement adds only names that it declares. -/
theorem stepExec_addsFrom (s : Stmt) (hs : st.env.head? = some g → s.direct ⊆ names) :
    AddsFrom g names st frames (stepExec s frames st) := by
  cases s with
  | var name initializer =>
    cases initializer with
    | none =>
      exact .quiet (Interpreter.define_adds .nil fun h => hs h List.mem_cons_self) hframes rfl
    | some value => exact .push (.cons hs hframes) rfl
  | block body => exact enter_addsFrom hg hframes st.env ∅ body
  | ifThen condition thenBranch => exact .push (.cons hs hframes) rfl
  | ifThenElse condition thenBranch elseBranch => exact .push (.cons hs hframes) rfl
  | whileLoop condition body => exact .push (.cons hs hframes) rfl
  | function decl =>
    have hclose : st.Adds g names (st.close st.env false decl).2 :=
      ⟨rfl, .of_grows (.of_scopes rfl)⟩
    exact .quiet (hclose.trans (Interpreter.define_adds _ fun h => hs h List.mem_cons_self)) hframes
      rfl
  | returnWith word value =>
    cases value with
    | none => exact .quiet .refl hframes rfl
    | some value => exact .push (.quiet hframes rfl) rfl
  | classDef name superclass methods =>
    cases superclass with
    | none =>
      exact .finish (Interpreter.defineClass_adds hg none methods fun h => hs h List.mem_cons_self)
        hframes
    | some e => exact .push (.cons hs hframes) rfl
  | _ => exact .push (.quiet hframes rfl) rfl

end

theorem stepValue_addsFrom (hg : g < st.store.scopes.size) (v : Value)
    (h : Frame.Confined g names st.env (frame :: frames)) :
    AddsFrom g names st frames (stepValue v frame frames st) := by
  cases frame with
  | unary operator => exact .give .refl h.tail
  | binaryLeft operator right =>
    have hrest : Frame.Confined g names st.env frames := h.tail
    exact .push (.quiet hrest rfl) rfl
  | binaryRight left operator => exact .give .refl h.tail
  | logical operator right => simp only [stepValue]; split <;> exact .quiet .refl h.tail rfl
  | assign id name => exact .give (Interpreter.assign_adds id name v) h.tail
  | callee paren arguments => exact stepArguments_addsFrom hg h.tail v paren [] arguments
  | argument callee paren done todo =>
    exact stepArguments_addsFrom hg h.tail callee paren (v :: done) todo
  | get name =>
    cases v with
    | object o => exact .give (Interpreter.property_adds hg o name) h.tail
    | _ => exact .quiet .refl h.tail rfl
  | setObject name value =>
    cases v with
    | object o =>
      have hrest : Frame.Confined g names st.env frames := h.tail
      exact .push (.quiet hrest rfl) rfl
    | _ => exact .quiet .refl h.tail rfl
  | setValue o name =>
    have hfield : st.Adds g names (st.setField o name.lexeme v) := ⟨rfl, .of_grows (.of_scopes rfl)⟩
    exact .quiet hfield h.tail rfl
  | discard => exact .quiet .refl h.tail rfl
  | print => exact .finish ⟨rfl, .refl⟩ h.tail
  | declare name =>
    exact .quiet (Interpreter.define_adds v fun henv => h.head henv List.mem_cons_self) h.tail rfl
  | branch thenBranch elseBranch =>
    simp only [stepValue]
    split
    · refine .exec (fun henv => List.Subset.trans ?_ (h.head henv)) h.tail (List.suffix_refl frames)
      cases elseBranch with
      | none => exact List.Subset.refl _
      | some s => exact List.subset_append_left _ _
    · cases elseBranch with
      | none => exact .quiet .refl h.tail rfl
      | some s =>
        refine .exec (fun henv => ?_) h.tail (List.suffix_refl frames)
        exact List.Subset.trans (List.subset_append_right _ _) (h.head henv)
  | loopTest condition body =>
    simp only [stepValue]
    split
    · exact .exec h.head (.cons h.head h.tail) (List.suffix_cons _ frames)
    · exact .quiet .refl h.tail rfl
  | returning => exact .quiet .refl h.tail rfl
  | superclass name line methods =>
    cases v with
    | cls c =>
      exact .finish (Interpreter.defineClass_adds hg (some c) methods fun henv =>
        h.head henv List.mem_cons_self) h.tail
    | _ => exact .quiet .refl h.tail rfl
  | endCall =>
    have hcount : st.Adds g names { st with callDepth := st.callDepth - 1 } := ⟨rfl, .refl⟩
    exact .quiet hcount h.tail rfl
  | construct o => exact .quiet .refl h.tail rfl
  | _ => exact .push h rfl

theorem stepFlow_addsFrom (f : Flow) (h : Frame.Confined g names st.env (frame :: frames)) :
    AddsFrom g names st frames (stepFlow f frame frames st) := by
  cases frame with
  | sequence rest =>
    cases f with
    | normal =>
      cases rest with
      | nil => exact .quiet .refl h.tail rfl
      | cons s rest =>
        refine .exec (fun henv => ?_) (.cons (fun henv => ?_) h.tail) (List.suffix_cons _ frames)
        · exact List.Subset.trans (List.subset_append_left _ _) (h.head henv)
        · exact List.Subset.trans (List.subset_append_right _ _) (h.head henv)
    | returned v => exact .quiet .refl h.tail rfl
  | loopBody condition body =>
    cases f with
    | normal =>
      have hloop : Frame.Confined g names st.env (.loopTest condition body :: frames) :=
        .cons h.head h.tail
      exact .push hloop rfl
    | returned v => exact .quiet .refl h.tail rfl
  | leave outer => exact ⟨.refl, fun _ => List.nil_subset names, h.tail, List.suffix_refl frames⟩
  | initializer c => exact .give .refl h.tail
  | _ => exact .push h rfl

theorem stepFault_addsFrom (f : Fault) (h : Frame.Confined g names st.env (frame :: frames)) :
    AddsFrom g names st frames (stepFault f frame frames st) := by
  cases frame with
  | leave outer => exact ⟨.refl, fun _ => List.nil_subset names, h.tail, List.suffix_refl frames⟩
  | endCall =>
    have hcount : st.Adds g names { st with callDepth := st.callDepth - 1 } := ⟨rfl, .refl⟩
    exact .quiet hcount h.tail rfl
  | _ => exact .quiet .refl h.tail rfl

/-- The frames that are there after a step whatever it gives: all if something is still to be
started, and otherwise all but the first. -/
def staying (m : Machine) : List Frame :=
  match m.control with
  | .eval _ => m.frames
  | .exec _ => m.frames
  | _ => m.frames.tail

/-- **A step adds to a scope only names that it may add**, and takes away one frame at most. -/
theorem Confined.addsFrom (h : Confined g names m) : AddsFrom g names m.state m.staying m.step := by
  obtain ⟨control, frames, st⟩ := m
  obtain ⟨hg, hcontrol, hframes⟩ := h
  cases control with
  | eval e => exact stepEval_addsFrom hg hframes e
  | exec s => exact stepExec_addsFrom hg hframes s hcontrol
  | value v =>
    cases frames with
    | nil => exact .quiet .refl hframes rfl
    | cons frame frames => exact stepValue_addsFrom hg v hframes
  | flow f =>
    cases frames with
    | nil => exact .quiet .refl hframes rfl
    | cons frame frames => exact stepFlow_addsFrom f hframes
  | fault f =>
    cases frames with
    | nil => exact .quiet .refl hframes rfl
    | cons frame frames => exact stepFault_addsFrom f hframes

/-- A confined machine stays confined. -/
theorem Confined.step (h : Confined g names m) : Confined g names m.step :=
  have hstep := h.addsFrom
  ⟨Nat.lt_of_lt_of_le h.bound hstep.adds.size, hstep.control, hstep.confined⟩

/-- A run of a confined machine adds only the names it is confined to. -/
theorem Confined.run (budget : Nat) (h : Confined g names m) :
    Store.Adds g names m.state.store (run budget m).state.store := by
  induction budget generalizing m with
  | zero => exact .refl
  | succ budget ih =>
    rw [Machine.run]
    split
    · exact .refl
    · exact h.addsFrom.adds.trans (ih h.step)

end Machine

/-! ## Declarations that end -/

/-- The name that a frame declares. -/
def Frame.declares? : Frame → Option Token
  | .declare name => some name
  | .superclass name _ _ => some name
  | _ => none

/-- What is declared is bound. -/
theorem Store.contains_define {s : Store} {env : Env} (henv : env.head? = some g)
    (hg : g < s.scopes.size) (name : String) (v : Value) :
    (s.define env name v).contains g name = true := by
  cases env with
  | nil => cases henv
  | cons scope env =>
    cases henv
    rw [Store.define, contains, find?_put, if_pos ⟨rfl, rfl, hg⟩]
    rfl

theorem Interpreter.contains_defineClass (henv : st.env.head? = some g)
    (hg : g < st.store.scopes.size) (name : Token) (superclass : Option Class)
    (methods : List FunctionDecl) :
    (st.defineClass name superclass methods).2.store.contains g name.lexeme = true := by
  cases hst : st.env with
  | nil =>
    rw [hst] at henv
    cases henv
  | cons scope env =>
    rw [hst] at henv
    cases henv
    have hfind := find?_makeMethods hst hg name superclass methods
    rw [defineClass_eq hst hg]
    refine (Store.Grows.put name.lexeme _ (Nat.zero_le g)).kept g name.lexeme ?_
    exact (Store.contains_iff _).mpr ⟨_, hfind⟩

namespace Machine

theorem contains_finish (r : Except Fault Unit × Interpreter) (frames : List Frame)
    (h : r.2.store.contains g name = true) :
    (finish r frames).state.store.contains g name = true := by
  unfold finish
  split <;> exact h

/-- A machine that has declared a name in a scope, has failed, or has a frame at the bottom that
will declare it. -/
inductive Owes (g : ScopeId) (name : String) (m : Machine) : Prop where
  | bound (h : m.state.store.contains g name = true)
  | failed (f : Fault) (h : m.control = .fault f)
  | waits {frame : Frame} {t : Token} (h : [frame] <:+ m.frames) (hframe : frame.declares? = some t)
      (hname : t.lexeme = name) (henv : m.home.env.head? = some g)

variable {g : ScopeId} {names : List String} {name : String} {m : Machine}

theorem tail_suffix_staying (m : Machine) : m.frames.tail <:+ m.staying := by
  unfold staying
  split
  · exact List.tail_suffix m.frames
  · exact List.tail_suffix m.frames
  · exact List.suffix_refl m.frames.tail

/-- What the only frame is to declare is declared once the frame gets its value. -/
theorem Owes.step_single {control : Control} (hm : Confined g names ⟨control, [frame], st⟩)
    (hstays : ¬ [frame] <:+ staying ⟨control, [frame], st⟩) (hframe : frame.declares? = some t)
    (hname : t.lexeme = name) (henv : (home ⟨control, [frame], st⟩).env.head? = some g) :
    Owes g name (Machine.step ⟨control, [frame], st⟩) := by
  cases control with
  | eval e => exact absurd (List.suffix_refl _) hstays
  | exec s => exact absurd (List.suffix_refl _) hstays
  | value v =>
    cases frame with
    | declare token =>
      cases hframe
      exact .bound (hname ▸ Store.contains_define henv hm.bound _ v)
    | superclass token line methods =>
      cases hframe
      -- A superclass that is no class is a fault, and the name of the class stays as it was.
      cases v with
      | cls c =>
        refine .bound ?_
        rw [← hname]
        exact contains_finish _ _
          (Interpreter.contains_defineClass henv hm.bound _ (some c) methods)
      | _ => exact .failed _ rfl
    | _ => cases hframe
  | flow f =>
    -- The flow only becomes a value, and the frame waits on for it.
    cases frame with
    | declare token => exact .waits (List.suffix_refl _) hframe hname henv
    | superclass token line methods => exact .waits (List.suffix_refl _) hframe hname henv
    | _ => cases hframe
  | fault f =>
    refine .failed f ?_
    rw [Machine.step, stepFault_eq]

/-- A step neither loses what is declared nor what is to be declared. -/
theorem Owes.step (hm : Confined g names m) (h : Owes g name m) : Owes g name m.step := by
  have hstep := hm.addsFrom
  cases h with
  | bound h => exact .bound (hstep.adds.kept name h)
  | failed f h =>
    refine .failed f ?_
    obtain ⟨control, frames, st⟩ := m
    cases h
    cases frames with
    | nil => rfl
    | cons frame frames => rw [Machine.step, stepFault_eq]
  | @waits frame t h hframe hname henv =>
    have hhome : m.step.home.env = m.home.env := (step_returns m).home.env
    by_cases hstays : [frame] <:+ m.staying
    · exact .waits (hstays.trans hstep.stays) hframe hname (hhome ▸ henv)
    · -- The frame is the only one, and gets its result now.
      obtain ⟨xs, hxs⟩ := h
      cases xs with
      | cons x xs =>
        have htail : [frame] <:+ m.frames.tail := by
          rw [← hxs]
          exact ⟨xs, rfl⟩
        exact absurd (htail.trans m.tail_suffix_staying) hstays
      | nil =>
        obtain ⟨control, frames, st⟩ := m
        obtain rfl : [frame] = frames := hxs
        exact step_single hm hstays hframe hname henv

theorem Owes.run (budget : Nat) (hm : Confined g names m) (h : Owes g name m) :
    Owes g name (run budget m) := by
  induction budget generalizing m with
  | zero => exact h
  | succ budget ih =>
    rw [Machine.run]
    split
    · exact h
    · exact ih hm.step (h.step hm)

/-- A machine that has ended without a fault owes nothing. -/
theorem Owes.bound_of_ending? (h : Owes g name m) (hend : m.ending? = some (.ok f, st)) :
    st.store.contains g name = true := by
  obtain ⟨hframes, hstate⟩ := state_of_ending? hend
  cases h with
  | bound hbound =>
    rw [hstate] at hbound
    exact hbound
  | failed fault hcontrol =>
    obtain ⟨control, frames, state⟩ := m
    cases hframes
    cases hcontrol
    cases hend
  | waits hwaits =>
    rw [hframes] at hwaits
    cases List.suffix_nil.mp hwaits

/-- A declaration makes its name, or waits for a value to give to it. -/
theorem owes_stepExec (hs : s.declares? = some t) (hg : g < st.store.scopes.size)
    (henv : st.env.head? = some g) : Owes g t.lexeme (stepExec s [] st) := by
  cases s with
  | var name initializer =>
    cases hs
    cases initializer with
    | none => exact .bound (Store.contains_define henv hg _ .nil)
    | some value => exact .waits (List.suffix_refl _) rfl rfl henv
  | function decl =>
    cases hs
    have hsize : g < st.addIdentity.store.scopes.size := hg
    exact .bound (Store.contains_define henv hsize _ _)
  | classDef name superclass methods =>
    cases hs
    cases superclass with
    | none =>
      exact .bound (contains_finish _ _ (Interpreter.contains_defineClass henv hg _ none methods))
    | some e => exact .waits (List.suffix_refl _) rfl rfl henv
  | _ => cases hs

end Machine

namespace Interpreter

variable {g : ScopeId} {st st' : Interpreter} {budget : Nat}

variable (hg : g < st.store.scopes.size)

include hg

theorem confined_exec (s : Stmt) : Machine.Confined g s.direct ⟨.exec s, [], st⟩ :=
  ⟨hg, fun _ => List.Subset.refl _, .nil⟩

/-- Executing a statement adds only names that it declares. -/
theorem adds_execute {e : Ending × Interpreter} (h : st.execute budget s = some e) :
    Store.Adds g s.direct st.store e.2.store := by
  have hadds := (confined_exec hg s).run budget
  rw [(Machine.state_of_ending? h).2] at hadds
  exact hadds

/-- A declaration that has ended without a fault has been made. -/
theorem contains_of_execute (henv : st.env.head? = some g) (ht : s.declares? = some t)
    (h : st.execute budget s = some (.ok f, st')) : st'.store.contains g t.lexeme = true := by
  cases budget with
  | zero => cases h
  | succ budget =>
    have howes := (Machine.owes_stepExec ht hg henv).run budget (confined_exec hg s).step
    exact howes.bound_of_ending? h

/-- Executing a statement adds the name that it declares to the innermost scope, and no other. -/
theorem contains_execute (henv : st.env.head? = some g) (hs : s.Formed)
    (h : st.execute budget s = some (.ok f, st')) (name : String) :
    st'.store.contains g name = true ↔ name ∈ Stmt.declared [s] ∨
      st.store.contains g name = true := by
  have hadds := adds_execute hg h
  rw [Stmt.direct_eq hs] at hadds
  constructor
  · exact fun hc => (hadds.new name hc).symm
  · rintro (hmem | hc)
    · obtain ⟨s', hs', hname⟩ := List.mem_filterMap.mp hmem
      obtain rfl := List.mem_singleton.mp hs'
      obtain ⟨t, ht, rfl⟩ := Option.map_eq_some_iff.mp hname
      exact contains_of_execute hg henv ht h
    · exact hadds.kept name hc

/-- **After a program that ends without a fault, the global variables are those before and those
that it declares.** -/
theorem contains_executeAll (henv : st.env.head? = some g) {program : List Stmt}
    (hprogram : Stmt.FormedAll program) (h : st.executeAll budget program = some (.ok (), st'))
    (name : String) :
    st'.store.contains g name = true ↔ name ∈ Stmt.declared program ∨
      st.store.contains g name = true := by
  induction program generalizing st with
  | nil =>
    cases h
    simp [Stmt.declared]
  | cons s rest ih =>
    rw [executeAll] at h
    split at h
    · next hs =>
      have hsize := Nat.lt_of_lt_of_le hg (adds_execute hg hs).size
      have henv' := (execute_samePlace hs).env
      have hdeclared : Stmt.declared (s :: rest) = Stmt.declared [s] ++ Stmt.declared rest := by
        show List.filterMap _ ([s] ++ rest) = _
        exact List.filterMap_append
      rw [ih hsize (henv' ▸ henv) hprogram.2 h, contains_execute hg henv hprogram.1 hs, hdeclared,
        List.mem_append]
      rw [or_assoc, or_left_comm]
    · cases h
    · cases h

end Interpreter

end Lox
