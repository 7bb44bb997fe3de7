import Lox.Proofs.Lexical.Operations

/-!
# Classes and calls inside enclosures

A class that inherits makes a scope for its `super`, and closes its methods in it. A call makes a
scope for its variables, inside the environment of the closure. In both cases the new scope is for
the next enclosure of the text, so that methods and bodies go on where their environments follow the
enclosures (`Machine.FollowsFrom.defineClass`, `Machine.FollowsFrom.call`).
-/

namespace Lox

variable {L : List Enclosure → Visit → Prop} {plan : Plan} {g scope : ScopeId} {D : Distances}
  {st : Interpreter} {E : List Enclosure} {frames : List Frame} {maker : Machine} {s : Store}
  {name : String} {v : Value} {superclass : Option Class}

/-! ## Making a class -/

theorem Store.lt_of_find? (h : s.find? scope name = some v) : scope < s.scopes.size := by
  refine Nat.lt_of_not_le fun hle => ?_
  rw [Store.find?, Array.getElem?_eq_none hle] at h
  cases h

/-- A name in the innermost scope is found there. -/
theorem Store.get?_cons (h : s.find? scope name = some v) (env : Env) :
    s.get? (scope :: env) name = some v := by
  simp [Store.get?, h]

theorem Store.binder?_cons (h : s.find? scope name = some v) (env : Env) :
    s.binder? (scope :: env) name = some scope := by
  simp [Store.binder?, Store.contains, h]

namespace Interpreter

theorem closeMethods_scopes (env : Env) (methods : List FunctionDecl) (table : NameTable Closure) :
    (st.closeMethods env methods table).2.store.scopes = st.store.scopes := by
  obtain ⟨n, heq⟩ := st.exists_closeMethods_eq env methods table
  rw [heq]

theorem Stands.closeMethods (h : st.Stands L plan g D E frames) (env : Env)
    (methods : List FunctionDecl) (table : NameTable Closure) :
    (st.closeMethods env methods table).2.Stands L plan g D E frames := by
  induction methods generalizing st table with
  | nil => exact h
  | cons decl rest ih => exact ih (h.withStore h.store.addIdentity) _

variable {scope : ScopeId} {env : Env}

/-- The name of a class is bound while its methods are made. -/
theorem find?_makeMethods (henv : st.env = scope :: env) (hscope : scope < st.store.scopes.size)
    (name : Token) (superclass : Option Class) (methods : List FunctionDecl) :
    (st.makeMethods name superclass methods).2.store.find? scope name.lexeme = some .nil := by
  have hdefine : (st.define name.lexeme .nil).store.find? scope name.lexeme = some .nil := by
    simp [Interpreter.define, henv, Store.define, Store.find?_put, hscope]
  have henter : ((st.define name.lexeme .nil).enterSuperclass superclass).2.store.find? scope
      name.lexeme = some .nil := by
    cases superclass with
    | none => exact hdefine
    | some c =>
      have hsize : (st.define name.lexeme .nil).store.nextScope = st.store.scopes.size := by
        simp [Interpreter.define, henv, Store.define, Store.nextScope, Store.size_put]
      have hne : scope ≠ (st.define name.lexeme .nil).store.nextScope := by
        rw [hsize]
        exact Nat.ne_of_lt hscope
      exact (Store.find?_addScope _ _ scope name.lexeme).trans ((if_neg hne).trans hdefine)
  simp only [makeMethods]
  rw [Store.find?, closeMethods_scopes]
  exact henter

theorem env_makeMethods (st : Interpreter) (name : Token) (superclass : Option Class)
    (methods : List FunctionDecl) : (st.makeMethods name superclass methods).2.env = st.env := by
  have h := (define_samePlace st name.lexeme .nil).trans (enterSuperclass_samePlace _ superclass)
  exact (closeMethods_samePlace _ _ methods ∅).env.trans h.env

/-- Declaring a class never fails, and afterwards the name stands for the class. -/
theorem defineClass_eq (henv : st.env = scope :: env) (hscope : scope < st.store.scopes.size)
    (name : Token) (superclass : Option Class) (methods : List FunctionDecl) :
    st.defineClass name superclass methods =
      (.ok (), (st.makeMethods name superclass methods).2.addIdentity.put scope name.lexeme
        (.cls (st.declaredClass name superclass methods))) := by
  have hfind := find?_makeMethods henv hscope name superclass methods
  have hbinder : (st.makeMethods name superclass methods).2.addIdentity.store.binder?
      (st.makeMethods name superclass methods).2.addIdentity.env name.lexeme = some scope := by
    show Store.binder? _ (st.makeMethods name superclass methods).2.env name.lexeme = some scope
    rw [env_makeMethods, henv]
    exact Store.binder?_cons hfind env
  unfold defineClass
  simp only [makeMethods, declaredClass] at hbinder ⊢
  simp only [hbinder]

/-- A machine that has evaluated the superclass of a class declares this class in its next step. -/
theorem declares_of_superclass (henv : st.env = scope :: env)
    (hscope : scope < st.store.scopes.size) (c : ClassText) (value : Class) (line : Nat)
    (frames : List Frame) :
    Machine.Declares ⟨.value (.cls value), .superclass c.name line c.methods :: frames, st⟩ c value
      (st.declaredClass c.name (some value) c.methods) := by
  refine ⟨rfl, ⟨line, frames, rfl⟩, ?_, rfl⟩
  have hsize := Store.lt_of_find? (find?_makeMethods henv hscope c.name (some value) c.methods)
  show (Machine.finish (st.defineClass c.name (some value) c.methods) frames).state.store.get?
    st.env c.name.lexeme = _
  rw [defineClass_eq henv hscope, henv]
  refine Store.get?_cons ?_ env
  exact (Store.find?_put _ scope scope _ _ _).trans (if_pos ⟨rfl, rfl, hsize⟩)

end Interpreter

/-! ## Declaring a class -/

/-- The innermost scope of an environment is in the store. -/
theorem Interpreter.Stands.innermost (h : st.Stands L plan g D E frames)
    (hE : Enclosure.holdStatements E = true) :
    ∃ scope env, st.env = scope :: env ∧ scope < st.store.scopes.size := by
  have henv := h.env
  cases E with
  | nil => exact ⟨g, [], henv, h.store.globals_lt⟩
  | cons e E =>
    have he : e.isClass = false := by
      cases e with
      | cls => cases hE
      | _ => rfl
    obtain ⟨scope, env, site, heq, hsite, -⟩ := henv.inside he
    exact ⟨scope, env, heq, h.store.size scope site hsite⟩

/-- The methods of a class stand in it. -/
theorem Node.Placed.method (hL : Visit.Lexicon D L) {methods : List FunctionDecl}
    (h : (Node.methods methods).Placed L E) {d : FunctionDecl} (hd : d ∈ methods) :
    (Node.function (Resolver.methodKind d.name) d).Placed L E := by
  induction methods with
  | nil => cases hd
  | cons d' rest ih =>
    obtain ⟨r, hv⟩ := h
    rcases List.mem_cons.mp hd with rfl | hd
    · exact ⟨r, hL.first hv rfl⟩
    · exact ih ⟨_, hL.second hv rfl⟩ hd

theorem Node.Placed.methods (hL : Visit.Lexicon D L) {name : Token} {superclass : Option Expr}
    {methods : List FunctionDecl} (h : (Node.stmt (.classDef name superclass methods)).Placed L E) :
    (Node.methods methods).Placed L (.cls ⟨name, superclass, methods⟩ :: E) := by
  obtain ⟨r, hv⟩ := h
  cases superclass with
  | none => exact ⟨_, hL.first hv rfl⟩
  | some e => exact ⟨_, hL.second hv rfl⟩

theorem Class.Follows.extend {body : ClassBody}
    (hown : ∀ n m, body.methods.find? n = some m → m.FollowsUnbound L plan g ∧
      (n = "init" → m.isInitializer = true))
    (hsuper : ∀ c, superclass = some c → c.Follows L plan g) :
    (Class.extend body superclass).Follows L plan g := by
  cases superclass with
  | none =>
    intro b hb n m hm
    obtain rfl := List.mem_singleton.mp hb
    exact hown n m hm
  | some c =>
    intro b hb n m hm
    rcases List.mem_cons.mp hb with rfl | hb
    · exact hown n m hm
    · exact hsuper c rfl b hb n m hm

variable (maker) in
/-- The environment of the methods of a class: that of the class, or a new scope in it for
`super`. -/
theorem Interpreter.Stands.enterSuperclass (h : st.Stands L plan g D E frames) (c : ClassText)
    (hsome : superclass.isSome = c.superclass.isSome)
    (hsuper : ∀ k, superclass = some k → k.Follows L plan g) :
    ∃ plan', plan.GrowsBy maker plan' ∧
      (st.enterSuperclass superclass).2.Stands L plan' g D E frames ∧
      ∀ m : Closure, m.env = (st.enterSuperclass superclass).1 →
        (∀ value, superclass = some value →
          ∃ declared name, maker.Declares c value declared ∧
          declared.body.methods.find? name = some m) →
        m.ClosedIn plan' (Env.Follows plan' g E) c := by
  cases superclass with
  | none =>
    refine ⟨plan, .refl, h, fun m henv _ => .plain hsome.symm ?_⟩
    rw [henv]
    exact h.env
  | some k =>
    have hadd : (st.addScope (NameTable.insert ∅ "super" (.cls k))).Stands L
        (plan.add st.store.nextScope ⟨.superclass c k, maker⟩) g D E frames := by
      refine h.addScope (fun _ _ hrole => by cases hrole) (fun name v hv => ?_) fun name v hv => ?_
      · obtain ⟨hname, rfl⟩ := NameTable.of_find?_singleton hv
        exact ⟨List.mem_singleton.mpr hname, hsuper k rfl⟩
      · cases hv
        rw [NameTable.find?_insert, if_pos rfl]
    refine ⟨_, .add h.store.fresh _, hadd, fun m henv hmaker => ?_⟩
    obtain ⟨declared, name, hdeclares, hfind⟩ := hmaker k rfl
    exact .inheriting hsome.symm henv (plan.add_self _ _) rfl hdeclares hfind hadd.env

/-- Declaring a class. -/
theorem Machine.FollowsFrom.defineClass (hL : Visit.Lexicon D L) (h : st.Stands L plan g D E frames)
    (c : ClassText) (hn : (Node.stmt (.classDef c.name c.superclass c.methods)).Placed L E)
    (hsome : superclass.isSome = c.superclass.isSome)
    (hsuper : ∀ k, superclass = some k → k.Follows L plan g)
    (hmaker : ∀ value, superclass = some value →
      ∃ line fs, maker = ⟨.value (.cls value), .superclass c.name line c.methods :: fs, st⟩) :
    FollowsFrom L plan g D maker (finish (st.defineClass c.name superclass c.methods) frames) := by
  obtain ⟨r, hv⟩ := hn
  have hname : c.name.IsFree := (hL.accepted hv).formed.isFree rfl
  obtain ⟨hE, hdeclares⟩ := (hL.known hv).nested
  obtain ⟨scope, env, henv, hscope⟩ := h.innermost hE
  -- The name is bound to `nil` first, then the methods are made, and at last the class is put in
  -- its place.
  have hdefine := h.define (v := .nil) trivial hname (hdeclares c.name rfl)
  obtain ⟨plan', hgrows, henter, hclosed⟩ := hdefine.enterSuperclass maker c hsome hsuper
  have hmake :=
    henter.closeMethods ((st.define c.name.lexeme .nil).enterSuperclass superclass).1 c.methods ∅
  have hcls : (st.declaredClass c.name superclass c.methods).Follows L plan' g := by
    refine .extend (fun n m hm => ?_) fun k hk => (hsuper k hk).grow hgrows.sub
    have hm' : (st.makeMethods c.name superclass c.methods).1.find? n = some m := hm
    obtain ⟨hmem, hmenv, hlexeme, hinit⟩ := Interpreter.closed_of_closeMethods hm'
    have hplaced := (Node.Placed.methods hL ⟨r, hv⟩).method hL hmem
    refine ⟨⟨_, c, E, hplaced, hclosed m hmenv fun value hvalue => ?_, ?_⟩, ?_⟩
    · obtain ⟨line, fs, rfl⟩ := hmaker value hvalue
      subst hvalue
      exact ⟨_, n, Interpreter.declares_of_superclass henv hscope c value line fs, hm⟩
    · intro hi
      rw [hinit, ← hlexeme] at hi
      rw [Resolver.methodKind, hi]
      rfl
    · intro hi
      rw [hinit, hi]
      rfl
  rw [Interpreter.defineClass_eq henv hscope]
  have hbound : (st.makeMethods c.name superclass c.methods).2.store.contains scope c.name.lexeme =
      true :=
    (Store.contains_iff _).mpr
      ⟨_, Interpreter.find?_makeMethods henv hscope c.name superclass c.methods⟩
  have hstore := hmake.store.addIdentity.overwrite (v := .cls _) hcls hname hbound
  exact ⟨plan', hgrows, .normal (hmake.withStore hstore)⟩

/-! ## Calls -/

theorem Interpreter.Stands.callNative (h : st.Stands L plan g D E frames) (n : Native)
    (paren : Token) (arguments : List Value) :
    (Machine.callNative n paren arguments st).2.Stands L plan g D E frames := by
  obtain ⟨k, heq⟩ := Machine.exists_callNative_eq n paren arguments st
  rw [heq]
  exact ⟨h.globals, h.distances, h.store, h.env, h.frames⟩

namespace Machine

variable {arguments : List Value}

theorem mem_params_of_callVariables {params : List Token}
    (h : (callVariables params arguments).find? name = some v) :
    name ∈ params.map Token.lexeme := by
  have hcontains : (callVariables params arguments).contains name = true :=
    NameTable.contains_iff.mpr ⟨v, h⟩
  rcases (contains_bindings _ ∅ name).mp hcontains with hmem | hempty
  · obtain ⟨pair, hpair, rfl⟩ := List.mem_map.mp hmem
    exact List.mem_map_of_mem (List.of_mem_zip hpair).1
  · cases hempty

/-- The body of a function runs inside it, in the environment of the closure. -/
theorem FollowsFrom.enterClosure (hL : Visit.Lexicon D L) (h : st.Stands L plan g D E frames)
    (hend : Frame.bodyEnd? frames = some false) {c : Closure} (hc : c.Follows L plan g)
    (harguments : ∀ v ∈ arguments, v.Follows L plan g) :
    FollowsFrom L plan g D maker (enterClosure c arguments frames st) := by
  obtain ⟨kind, inside, ⟨r, hv⟩, henv, hruns, hinit⟩ := hc
  have hframes : st.Stands L plan g D E (if c.isInitializer then .initializer c :: frames
      else frames) := by
    split
    · next hi =>
      refine h.pushOperand ?_ rfl
      -- Only a method is an initializer, so its `this` is in the innermost scope of its
      -- environment.
      rcases (hL.known hv).nested with ⟨cls, outer, rfl, -, -⟩ | ⟨-, hkind⟩
      · exact ⟨c.decl, hruns rfl⟩
      · rw [hinit hi] at hkind
        cases hkind
    · exact h
  have hbody : (Node.stmts c.decl.body).Placed L (.function kind c.decl :: inside) :=
    ⟨_, hL.first hv rfl⟩
  refine ⟨_, .add h.store.fresh _,
    .normal (hframes.enter (e := .function kind c.decl) rfl henv ?_ ?_ hbody ?_ ?_)⟩
  · exact fun hi => ⟨kind, c.decl, rfl, hruns hi⟩
  · intro name v hfind
    exact ⟨List.mem_append_left _ (mem_params_of_callVariables hfind),
      harguments v (mem_of_callVariables hfind)⟩
  · intro hnone
    split at hnone
    · cases hnone
    · rw [hend] at hnone
      cases hnone
  · intro htrue
    split at htrue
    · next hi => exact hinit hi
    · rw [hend] at htrue
      cases htrue

/-- Making an object binds its initializer to it and runs it. -/
theorem FollowsFrom.instantiate (hL : Visit.Lexicon D L) (h : st.Stands L plan g D E frames)
    {c : Class} (hc : c.Follows L plan g) (harguments : ∀ v ∈ arguments, v.Follows L plan g)
    (hstate : st = { maker.state with callDepth := maker.state.callDepth + 1 })
    (hstep : maker.step = instantiate c arguments frames st) :
    FollowsFrom L plan g D maker (instantiate c arguments frames st) := by
  have hobject := h.withStore h.store.addObject
  cases hmethod : c.findMethod? "init" with
  | none =>
    have heq : Machine.instantiate c arguments frames st =
        ⟨.value (.object ⟨st.store.nextObject, c⟩), frames,
        { st with store := st.store.addObject }⟩ := by
      simp only [Machine.instantiate, hmethod]
    rw [heq]
    exact Lexical.followsFrom (.value (v := .object _) hc hobject)
  | some method =>
    generalize hst' : { st with store := st.store.addObject } = st' at hobject
    have heq : Machine.instantiate c arguments frames st =
        Machine.enterClosure (st'.bind method ⟨st.store.nextObject, c⟩).1 arguments
          (.construct ⟨st.store.nextObject, c⟩ :: frames)
          (st'.bind method ⟨st.store.nextObject, c⟩).2 := by
      subst hst'
      simp only [Machine.instantiate, hmethod]
    have hbinds : maker.Binds method ⟨st.store.nextObject, c⟩ := by
      refine .creation arguments frames st' ?_ ?_ (hstep.trans heq)
      · rw [hstate]
      · rw [← hst', hstate]
    have hscope : maker.state.store.nextScope = st'.store.nextScope := by
      rw [← hst', hstate]
      rfl
    obtain ⟨plan', hgrows, hst, hbound⟩ := hobject.bind (hc.findMethod? hmethod).1 hc hbinds hscope
    rw [heq]
    have hconstruct : (st'.bind method ⟨st.store.nextObject, c⟩).2.Stands L plan' g D E
        (.construct ⟨st.store.nextObject, c⟩ :: frames) := hst.pushOperand (hc.grow hgrows.sub) rfl
    exact .trans hgrows
      (.enterClosure hL hconstruct rfl hbound fun v hv => (harguments v hv).grow hgrows.sub)

/-- Calling a value. -/
theorem FollowsFrom.call (hL : Visit.Lexicon D L) (h : st.Stands L plan g D E frames)
    {callee : Value} {paren : Token} (hcallee : callee.Follows L plan g)
    (harguments : ∀ v ∈ arguments, v.Follows L plan g) (hstate : maker.state = st)
    (hstep : maker.step = call callee paren arguments frames st) :
    FollowsFrom L plan g D maker (call callee paren arguments frames st) := by
  cases harity : arity? callee with
  | none =>
    simp only [Machine.call, harity]
    exact Lexical.followsFrom (.fault rfl h.store)
  | some n =>
    by_cases hlength : arguments.length ≠ n
    · simp only [Machine.call, harity, if_pos hlength]
      exact Lexical.followsFrom (.fault rfl h.store)
    by_cases hdepth : st.maxCallDepth ≤ st.callDepth
    · simp only [Machine.call, harity, if_neg hlength, if_pos hdepth]
      exact Lexical.followsFrom (.fault rfl h.store)
    have hcall : Machine.call callee paren arguments frames st =
        startCall callee paren arguments frames st := by
      simp only [Machine.call, harity, if_neg hlength, if_neg hdepth]
    rw [hcall] at hstep ⊢
    have hcounted : Interpreter.Stands L plan g D { st with callDepth := st.callDepth + 1 } E
        (.endCall :: frames) :=
      (h.callDepth _).pushOperand trivial rfl
    cases callee with
    | native n =>
      exact Lexical.followsFrom
        (.plain (hcounted.callNative n paren arguments) (callNative_plain n paren _ _))
    | closure c => exact .enterClosure hL hcounted rfl hcallee harguments
    | cls c => exact .instantiate hL hcounted hcallee harguments (by rw [hstate]) hstep
    | _ => cases harity

end Machine

end Lox
