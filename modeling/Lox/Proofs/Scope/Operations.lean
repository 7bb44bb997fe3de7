import Lox.Proofs.Scope.Frames

/-!
# Operations at a place of a program

What the operations of the machine do to states and values: the values they give are sound, and they
keep what the frames rely on (`Interpreter.Keeps`). Three of them make closures. A method is bound
in a new scope that holds `this`, a class closes its methods over a scope that holds `super`, and a
call runs a body in a new scope with its parameters: each time the environment gets just the scope
that the walk entered.
-/

namespace Lox

variable {V : Visit → Prop} {g : ScopeId} {D : Distances} {v : Value} {name : String}
  {superclass : Option Class} {Γ : Scopes} {methods : List FunctionDecl}

/-- Values that lead nowhere are sound. -/
theorem Value.sound_of_isPlain (h : v.isPlain = true) (s : Store) : v.Sound V g s := by
  cases v with
  | closure | cls | object => cases h
  | _ => trivial

namespace Interpreter

variable {st : Interpreter} {id : NodeId} {scope : ScopeId} {o : Object}

/-! ## Variables -/

/-- A variable holds a sound value. -/
theorem lookUp_sound (hs : st.store.Sound V g) {name : Token} (h : st.lookUp id name = .ok v) :
    v.Sound V g st.store := by
  obtain ⟨scope, hv⟩ := exists_find?_of_lookUp h
  exact hs.values scope _ v hv

theorem contains_of_binder? {s : Store} {env : Env} (h : s.binder? env name = some scope) :
    s.contains scope name = true :=
  List.find?_some (p := fun scope => s.contains scope name) h

/-- The target of an assignment has the variable. -/
theorem contains_of_target? (h : st.target? id name = some scope) :
    st.store.contains scope name = true := by
  unfold target? at h
  split at h
  · unfold Store.binderAt? at h
    split at h
    · split at h
      · next hc =>
        cases h
        exact hc
      · cases h
    · cases h
  · exact contains_of_binder? h

theorem put_keeps (hs : st.store.Sound V g) (hv : v.Sound V g st.store)
    (hbound : st.store.contains scope name = true) : Keeps V g st (st.put scope name v) := by
  have hgrows : st.store.Grows (st.env.top + 1) (st.store.put scope name v) := .overwrite v hbound
  exact ⟨⟨rfl, rfl, rfl, rfl, rfl⟩, hgrows, hs.put hgrows (hv.grows hgrows)⟩

/-- An assignment keeps the scopes as they were resolved. -/
theorem assign_keeps (hs : st.store.Sound V g) (hv : v.Sound V g st.store) (id : NodeId)
    (name : Token) : Keeps V g st (st.assign id name v).2 := by
  unfold assign
  split
  · next htarget => exact put_keeps hs hv (contains_of_target? htarget)
  · exact .refl hs

theorem addIdentity_keeps (hs : st.store.Sound V g) : Keeps V g st st.addIdentity :=
  ⟨⟨rfl, rfl, rfl, rfl, rfl⟩, .of_scopes rfl, hs.of_eq rfl rfl⟩

/-! ## Methods and properties -/

theorem contains_of_synthetic {key : String} (h : (Resolver.synthetic key).find? name = some true)
    (v : Value) : (NameTable.insert ∅ key v).contains name = true := by
  obtain ⟨rfl, -⟩ := NameTable.of_find?_singleton h
  rw [NameTable.contains, NameTable.find?_insert, if_pos rfl]
  rfl

/-- A method bound to an object has the scope of `this` that its declaration was visited in. -/
theorem bind_sound {method : Closure} (hm : method.SoundUnbound V g st.store) :
    (st.bind method o).1.Sound V g (st.bind method o).2.store := by
  obtain ⟨kind, r, Γ, hv, hscopes, hagrees⟩ := hm
  refine ⟨kind, r, hv, ?_⟩
  rw [hscopes]
  have hgrows : (st.store.addScope (NameTable.insert ∅ "this" (.object o))).Grows 0
      (st.bind method o).2.store :=
    .of_scopes rfl
  exact Env.Agrees.grows (hagrees.enter fun name hname => contains_of_synthetic hname _) hgrows

/-- Binding a method keeps the scopes as they were resolved. -/
theorem bind_keeps (hs : st.store.Sound V g) (htop : st.env.top < st.store.scopes.size)
    (method : Closure) (ho : o.cls.Sound V g st.store) : Keeps V g st (st.bind method o).2 := by
  refine ⟨⟨rfl, rfl, rfl, rfl, rfl⟩, ?_, ?_⟩
  · exact (Store.Grows.addScope _ htop).trans (.of_scopes rfl)
  · refine (hs.addScope fun name v hv => ?_).of_eq rfl rfl
    obtain ⟨-, rfl⟩ := NameTable.of_find?_singleton hv
    exact ho

theorem bindFound_keeps (hs : st.store.Sound V g) (htop : st.env.top < st.store.scopes.size)
    (ho : o.cls.Sound V g st.store) (name : Token) (method : Option Closure) :
    Keeps V g st (st.bindFound o name method).2 := by
  cases method with
  | some m => exact bind_keeps hs htop m ho
  | none => exact .refl hs

theorem bindFound_sound {name : Token} {method : Option Closure}
    (hm : ∀ m, method = some m → m.SoundUnbound V g st.store)
    (h : (st.bindFound o name method).1 = .ok v) :
    v.Sound V g (st.bindFound o name method).2.store := by
  cases method with
  | some m =>
    cases h
    exact bind_sound (hm m rfl)
  | none => cases h

section

variable (hs : st.store.Sound V g)

include hs

theorem property_keeps (htop : st.env.top < st.store.scopes.size) (ho : o.cls.Sound V g st.store)
    (name : Token) : Keeps V g st (st.property o name).2 := by
  unfold property
  split
  · exact .refl hs
  · exact bindFound_keeps hs htop ho name _

/-- A property of a sound object is sound. -/
theorem property_sound (ho : o.cls.Sound V g st.store) {name : Token}
    (h : (st.property o name).1 = .ok v) : v.Sound V g (st.property o name).2.store := by
  unfold property at h ⊢
  split
  · next w hfield =>
    rw [hfield] at h
    cases h
    exact hs.fields _ _ _ hfield
  · next hfield =>
    rw [hfield] at h
    exact bindFound_sound (fun m hm => ho.findMethod? hm) h

/-- What `super` stands for is sound. -/
theorem superBinding_sound {word : Token} {c : Class} (h : st.superBinding id word = .ok (c, o)) :
    c.Sound V g st.store ∧ o.cls.Sound V g st.store := by
  obtain ⟨⟨scope, hc⟩, scope', ho⟩ := exists_find?_of_superBinding h
  exact ⟨hs.values scope _ _ hc, hs.values scope' _ _ ho⟩

theorem superMethod_keeps (htop : st.env.top < st.store.scopes.size) (id : NodeId)
    (word method : Token) : Keeps V g st (st.superMethod id word method).2 := by
  unfold superMethod
  split
  · next hbinding => exact bindFound_keeps hs htop (superBinding_sound hs hbinding).2 method _
  · exact .refl hs

/-- A method of `super` is sound. -/
theorem superMethod_sound {word method : Token} (h : (st.superMethod id word method).1 = .ok v) :
    v.Sound V g (st.superMethod id word method).2.store := by
  unfold superMethod at h ⊢
  split
  · next c o hbinding =>
    rw [hbinding] at h
    exact bindFound_sound (fun m hm => (superBinding_sound hs hbinding).1.findMethod? hm) h
  · next hbinding =>
    rw [hbinding] at h
    cases h

/-! ## Classes -/

theorem closeMethods_keeps (env : Env) (methods : List FunctionDecl) (table : NameTable Closure) :
    Keeps V g st (st.closeMethods env methods table).2 := by
  obtain ⟨n, heq⟩ := st.exists_closeMethods_eq env methods table
  rw [heq]
  exact ⟨⟨rfl, rfl, rfl, rfl, rfl⟩, .of_scopes rfl, hs.of_eq rfl rfl⟩

theorem enterSuperclass_keeps (htop : st.env.top < st.store.scopes.size)
    (hsuper : ∀ c, superclass = some c → c.Sound V g st.store) :
    Keeps V g st (st.enterSuperclass superclass).2 := by
  cases superclass with
  | none => exact .refl hs
  | some c =>
    refine ⟨enterSuperclass_samePlace st (some c), .addScope _ htop,
      hs.addScope fun name v hv => ?_⟩
    obtain ⟨-, rfl⟩ := NameTable.of_find?_singleton hv
    exact hsuper c rfl

end

/-- A class that inherits has the scope of `super` that its methods were visited in. -/
theorem enterSuperclass_agrees (h : Env.Agrees g st.store st.env Γ) (superclass : Option Class) :
    Env.Agrees g (st.enterSuperclass superclass).2.store (st.enterSuperclass superclass).1
      ((Resolver.classScopes superclass.isSome).tail ++ Γ) := by
  cases superclass with
  | none => exact h
  | some c =>
    exact h.enter fun name hname => contains_of_synthetic hname _

end Interpreter

theorem Class.Sound.extend {body : ClassBody} {s : Store}
    (hown : ∀ n m, body.methods.find? n = some m → m.SoundUnbound V g s)
    (hsuper : ∀ c, superclass = some c → c.Sound V g s) :
    (Class.extend body superclass).Sound V g s := by
  cases superclass with
  | none =>
    intro b hb n m hm
    obtain rfl := List.mem_singleton.mp hb
    exact hown n m hm
  | some c =>
    intro b hb n m hm
    rcases List.mem_cons.mp hb with rfl | hb
    · exact hown n m hm
    · exact hsuper c rfl b hb n m hm

/-- Each method of a class was visited where the scopes of the class were known. -/
theorem Node.Seen.method (hV : Visit.Family D V) (h : (Node.methods methods).Seen V Γ)
    {d : FunctionDecl} (hd : d ∈ methods) : ∃ kind, (Node.function kind d).Seen V Γ := by
  induction methods with
  | nil => cases hd
  | cons d' rest ih =>
    obtain ⟨r, hv, rfl⟩ := h
    rcases List.mem_cons.mp hd with rfl | hd
    · exact ⟨_, r, hV.first hv rfl, rfl⟩
    · refine ih ⟨_, hV.second hv rfl, ?_⟩ hd
      exact Stmt.scopes_resolveFunction (hV.accepted hv).formed.1

namespace Machine

open Interpreter (Keeps)

/-- Declaring a class. -/
theorem Sound.defineClass (hV : Visit.Family D V) {st : Interpreter} {frames : List Frame}
    {name : Token} (h : st.Fits V g D Γ (Γ.mark name.lexeme true) frames)
    (hsuper : ∀ c, superclass = some c → c.Sound V g st.store)
    (hmethods : (Node.methods methods).Seen V
      (Resolver.classScopes superclass.isSome ++ Γ.mark name.lexeme true)) :
    Sound V g D (Machine.finish (st.defineClass name superclass methods) frames) := by
  -- The name is bound to `nil` first, so that the methods are closed where it is bound.
  have hdefine := h.define name.lexeme (v := .nil) trivial
  have hgrows : st.store.Grows st.env.top (st.define name.lexeme .nil).store :=
    .define st.env name.lexeme .nil
  have henter := Interpreter.enterSuperclass_keeps hdefine.store hdefine.env.top_lt fun c hc =>
    (hsuper c hc).grows hgrows
  have hagrees := Interpreter.enterSuperclass_agrees hdefine.env.agrees superclass
  rcases hs : (st.define name.lexeme .nil).enterSuperclass superclass with ⟨env, st₂⟩
  rw [hs] at henter hagrees
  have hclose := Interpreter.closeMethods_keeps henter.store env methods ∅
  rcases hc : st₂.closeMethods env methods ∅ with ⟨table, st₃⟩
  rw [hc] at hclose
  have hkeeps := hclose.trans (Interpreter.addIdentity_keeps hclose.store)
  have hfits := hdefine.keeps (henter.trans hkeeps)
  -- The class is sound: its own methods are those just closed, the others come from the superclass.
  have hcls : (Class.extend ⟨st₃.store.nextIdentity, name.lexeme, table⟩ superclass).Sound V g
      st₃.addIdentity.store := by
    refine .extend (fun n m hm => ?_) fun c hc => ?_
    · have hm' : (st₂.closeMethods env methods ∅).1.find? n = some m := by rw [hc]; exact hm
      obtain ⟨hmem, henv, -⟩ := Interpreter.closed_of_closeMethods hm'
      obtain ⟨kind, r, hv, hr⟩ := hmethods.method hV hmem
      exact ⟨kind, r, _, hv, hr, henv ▸ hagrees.grows hkeeps.grows⟩
    · exact ((hsuper c hc).grows hgrows).grows (henter.trans hkeeps).grows
  simp only [Interpreter.defineClass, hs, hc]
  split
  · next hbinder =>
    have hput :=
      Interpreter.put_keeps (v := .cls _) hfits.store hcls (Interpreter.contains_of_binder? hbinder)
    exact .flow trivial (hfits.keeps hput)
  · exact .fault hfits.store

/-! ## Calls -/

theorem contains_bindings (pairs : List (Token × Value)) (t : NameTable Value) (name : String) :
    (pairs.foldl (fun t (p, v) => t.insert p.lexeme v) t).contains name = true ↔
      name ∈ pairs.map (fun pair => pair.1.lexeme) ∨ t.contains name = true := by
  induction pairs generalizing t with
  | nil => simp
  | cons pair rest ih =>
    obtain ⟨p, v⟩ := pair
    rw [List.foldl_cons, ih, NameTable.contains, NameTable.find?_insert]
    by_cases hp : name = p.lexeme <;> simp [hp, NameTable.contains]

theorem find?_bindings {pairs : List (Token × Value)} {t : NameTable Value} {w : Value}
    (h : (pairs.foldl (fun t (p, v) => t.insert p.lexeme v) t).find? name = some w) :
    w ∈ pairs.map Prod.snd ∨ t.find? name = some w := by
  induction pairs generalizing t with
  | nil => exact .inr h
  | cons pair rest ih =>
    rcases ih h with hmem | hfind
    · exact .inl (List.mem_cons_of_mem _ hmem)
    · rcases NameTable.of_find?_insert hfind with ⟨-, rfl⟩ | hfind
      · exact .inl List.mem_cons_self
      · exact .inr hfind

/-- A call binds each parameter and nothing else. -/
theorem contains_callVariables {params : List Token} {arguments : List Value}
    (hlength : arguments.length = params.length) (name : String) :
    (Resolver.paramScope params).find? name = some true ↔
      (callVariables params arguments).contains name = true := by
  have hnames : (params.zip arguments).map (fun pair => pair.1.lexeme) =
      params.map Token.lexeme := by
    have hfst := congrArg (List.map Token.lexeme) (List.map_fst_zip (Nat.le_of_eq hlength.symm))
    rwa [List.map_map] at hfst
  rw [Resolver.find?_paramScope, callVariables, contains_bindings, hnames]
  by_cases hmem : name ∈ params.map Token.lexeme
  · simp [hmem]
  · simp only [hmem, if_false, false_or, reduceCtorEq, false_iff]
    exact fun hf => nomatch hf

theorem mem_of_callVariables {params : List Token} {arguments : List Value}
    (h : (callVariables params arguments).find? name = some v) : v ∈ arguments := by
  rcases find?_bindings h with hmem | hnone
  · obtain ⟨pair, hpair, rfl⟩ := List.mem_map.mp hmem
    exact (List.of_mem_zip hpair).2
  · cases hnone

variable {st : Interpreter} {Γ : Scopes} {frames : List Frame} {arguments : List Value}

/-- The body of a function runs in the scope that it was visited in, inside the environment of the
closure. -/
theorem Sound.enterClosure (hV : Visit.Family D V) (h : st.Fits V g D Γ Γ frames) {c : Closure}
    (hc : c.Sound V g st.store) (harguments : ∀ v ∈ arguments, v.Sound V g st.store)
    (hlength : arguments.length = c.decl.params.length) :
    Sound V g D (enterClosure c arguments frames st) := by
  have hframes : st.Fits V g D Γ Γ (if c.isInitializer then .initializer c :: frames
      else frames) := by
    split
    · exact h.push .initializer
    · exact h
  obtain ⟨kind, r, hv, hagrees⟩ := hc
  have hbody : (Node.stmts c.decl.body).Seen V (Resolver.paramScope c.decl.params :: r.scopes) :=
    ⟨_, hV.first hv rfl, r.scopes_enterFunction kind c.decl.params⟩
  refine .flow (f := .normal) trivial
    (hframes.enter hagrees (contains_callVariables hlength) ?_ hbody)
  exact fun name v hv => harguments v (mem_of_callVariables hv)

theorem Sound.instantiate (hV : Visit.Family D V) (h : st.Fits V g D Γ Γ frames) {c : Class}
    (hc : c.Sound V g st.store) (harguments : ∀ v ∈ arguments, v.Sound V g st.store)
    (hlength : arguments.length = c.arity) : Sound V g D (instantiate c arguments frames st) := by
  have hobject : Keeps V g st { st with store := st.store.addObject } :=
    ⟨⟨rfl, rfl, rfl, rfl, rfl⟩, .of_scopes rfl, h.store.addObject⟩
  have hc' := hc.grows hobject.grows
  simp only [Machine.instantiate]
  split
  · next method hinit =>
    have hbind := Interpreter.bind_keeps hobject.store (hobject.place.env ▸ h.env.top_lt) method
      (o := ⟨st.store.nextObject, c⟩) hc'
    have hkeeps := hobject.trans hbind
    have hconstruct : Frame.Awaits V g _ Γ (.construct ⟨st.store.nextObject, c⟩) Γ :=
      .construct (hc.grows hkeeps.grows)
    -- The initializer runs as a method of the new object, in a scope that binds `this`.
    have hbound := Interpreter.bind_sound (o := ⟨st.store.nextObject, c⟩) (hc'.findMethod? hinit)
    refine Sound.enterClosure hV ((h.keeps hkeeps).push hconstruct) hbound ?_ ?_
    · exact fun v hv => (harguments v hv).grows hkeeps.grows
    · rw [hlength, Class.arity, hinit]
      rfl
  · exact .value hc' (h.keeps hobject)

theorem callNative_keeps (hs : st.store.Sound V g) (n : Native) (paren : Token) :
    Keeps V g st (callNative n paren arguments st).2 := by
  obtain ⟨k, heq⟩ := exists_callNative_eq n paren arguments st
  rw [heq]
  exact ⟨⟨rfl, rfl, rfl, rfl, rfl⟩, .of_scopes rfl, hs⟩

theorem Sound.answer {r : Except Fault Value × Interpreter} {line : Nat}
    (h : r.2.Fits V g D Γ Γ frames) (hr : Operates line r.1) :
    Sound V g D (Machine.give r frames) :=
  .give h fun _ hv => Value.sound_of_isPlain (hr.isPlain hv) _

/-- Calling a sound value with sound arguments. -/
theorem Sound.call (hV : Visit.Family D V) (h : st.Fits V g D Γ Γ frames) {callee : Value}
    (paren : Token) (hcallee : callee.Sound V g st.store)
    (harguments : ∀ v ∈ arguments, v.Sound V g st.store) :
    Sound V g D (call callee paren arguments frames st) := by
  unfold Machine.call
  split
  · exact .fault h.store
  · next n harity =>
    split
    · exact .fault h.store
    · next hlength =>
      have hlength : arguments.length = n := Decidable.of_not_not hlength
      split
      · exact .fault h.store
      · have hcounted := (h.callDepth (st.callDepth + 1)).push .endCall
        cases callee with
        | native n =>
          exact .answer (hcounted.keeps (callNative_keeps hcounted.store n paren))
            (callNative_operates n paren arguments _)
        | closure c =>
          cases harity
          exact .enterClosure hV hcounted hcallee harguments hlength
        | cls c =>
          cases harity
          exact .instantiate hV hcounted hcallee harguments hlength
        | _ => cases harity

end Machine

end Lox
