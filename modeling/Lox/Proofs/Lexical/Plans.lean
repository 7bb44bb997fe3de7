import Lox.Proofs.Lexical.Enclosures
import Lox.Proofs.Scope.Agreement

/-!
# What scopes are for

Each scope of the store but the global one was made for a piece of the text: for the variables of a
block or of a call, for the `this` of a method that was bound to an object, or for the `super` of a
class declaration. A `Plan` says for which, and which machine made it. It only grows, and nothing in
it ever changes.

An environment follows enclosures if its scopes were made for them, one after the other
(`Env.Follows`). A store follows a plan if each scope has no names but those of its text, if a
`this` and a `super` are what they were when their scopes were made, and if every closure was made
where its environment follows the enclosures of its declaration.
-/

namespace Lox

variable {name : String} {v : Value} {scope : ScopeId} {env : Env} {m : Closure}
  {E : List Enclosure}

/-! ## Machines that make scopes -/

/-- A machine whose step binds a method to an object. Reading a property gives the bound method, and
making an object starts its initializer. -/
inductive Machine.Binds (m : Machine) (method : Closure) (o : Object) : Prop where
  | access (frames : List Frame)
      (h : m.step =
        ⟨.value (.closure (m.state.bind method o).1), frames, (m.state.bind method o).2⟩)
  | creation (arguments : List Value) (frames : List Frame) (st : Interpreter)
      (hid : o.id = m.state.store.nextObject)
      (hst : st =
        { m.state with callDepth := m.state.callDepth + 1, store := m.state.store.addObject })
      (h : m.step = enterClosure (st.bind method o).1 arguments (.construct o :: frames)
        (st.bind method o).2)

/-- A machine whose step declares a class that inherits: its superclass has been evaluated to
`value`, and after the step its name stands for the class `declared`. -/
structure Machine.Declares (m : Machine) (c : ClassText) (value declared : Class) : Prop where
  control : m.control = .value (.cls value)
  frames : ∃ line frames, m.frames = .superclass c.name line c.methods :: frames
  bound : m.step.state.store.get? m.state.env c.name.lexeme = some (.cls declared)
  superclass : declared.superclass? = some value

/-! ## Plans -/

/-- What a scope is for. -/
inductive Role where
  /-- The variables of a block or of a call. -/
  | locals (names : List String)
  /-- The `this` of a method that was bound to an object. -/
  | receiver (method : Closure) (o : Object)
  /-- The `super` of a class declaration. -/
  | superclass (c : ClassText) (value : Class)

namespace Role

/-- The names that the scope can have. -/
def names : Role → List String
  | .locals names => names
  | .receiver _ _ => ["this"]
  | .superclass _ _ => ["super"]

/-- The variable that the scope is made with and that never changes. -/
def fixed? : Role → Option (String × Value)
  | .locals _ => none
  | .receiver _ o => some ("this", .object o)
  | .superclass _ value => some ("super", .cls value)

/-- A scope of a store is as its role says. -/
structure Holds (s : Store) (scope : ScopeId) (role : Role) : Prop where
  names : ∀ name, s.contains scope name = true → name ∈ role.names
  fixed : ∀ name v, role.fixed? = some (name, v) → s.find? scope name = some v

/-- Only `this` and `super` are fixed. -/
theorem fixed?_name {role : Role} (h : role.fixed? = some (name, v)) :
    name = "this" ∨ name = "super" := by
  cases role <;> cases h
  · exact .inl rfl
  · exact .inr rfl

end Role

/-- What a scope is for, and the machine that made it. -/
structure Site where
  role : Role
  maker : Machine

/-- A scope that holds a `this` was made by binding a method. -/
def Site.Made (scope : ScopeId) (site : Site) : Prop :=
  ∀ method o, site.role = .receiver method o →
    site.maker.Binds method o ∧ site.maker.state.store.nextScope = scope

/-- What the scopes of a store are for. Nothing is planned for the global scope. -/
abbrev Plan := ScopeId → Option Site

namespace Plan

/-- A plan that says the same as another one, and perhaps more. -/
def Sub (plan plan' : Plan) : Prop :=
  ∀ scope site, plan scope = some site → plan' scope = some site

/-- A scope more. -/
def add (plan : Plan) (scope : ScopeId) (site : Site) : Plan :=
  fun other => if other = scope then some site else plan other

/-- The innermost scope of an environment holds the `this` of a method with a certain
declaration. -/
def Runs (plan : Plan) (env : Env) (d : FunctionDecl) : Prop :=
  ∃ scope env' site method o, env = scope :: env' ∧ plan scope = some site ∧
    site.role = .receiver method o ∧ method.decl = d

/-- An enclosure that is the method whose `this` the innermost scope of an environment holds. -/
def RunsIn (plan : Plan) (env : Env) (e : Enclosure) : Prop :=
  ∃ kind d, e = .function kind d ∧ plan.Runs env d

theorem Sub.refl {plan : Plan} : Sub plan plan :=
  fun _ _ h => h

theorem Sub.trans {plan plan₁ plan₂ : Plan} (h : Sub plan plan₁) (h' : Sub plan₁ plan₂) :
    Sub plan plan₂ :=
  fun scope site hs => h' scope site (h scope site hs)

/-- A plan grows by a scope that it did not have. -/
theorem sub_add {plan : Plan} (h : plan scope = none) (site : Site) :
    Sub plan (plan.add scope site) := by
  intro other site' hother
  have hne : other ≠ scope := fun heq => by
    rw [heq, h] at hother
    cases hother
  rw [add, if_neg hne]
  exact hother

theorem add_self (plan : Plan) (scope : ScopeId) (site : Site) :
    plan.add scope site scope = some site :=
  if_pos rfl

theorem Runs.mono {plan plan' : Plan} {d : FunctionDecl} (h : plan.Runs env d)
    (hp : plan.Sub plan') : plan'.Runs env d := by
  obtain ⟨scope, env', site, method, o, henv, hsite, hrole, hdecl⟩ := h
  exact ⟨scope, env', site, method, o, henv, hp scope site hsite, hrole, hdecl⟩

theorem RunsIn.mono {plan plan' : Plan} {e : Enclosure} (h : plan.RunsIn env e)
    (hp : plan.Sub plan') : plan'.RunsIn env e := by
  obtain ⟨kind, d, he, hruns⟩ := h
  exact ⟨kind, d, he, hruns.mono hp⟩

end Plan

/-! ## Environments -/

/-- A method that was closed in a class whose outer environment satisfies `P`: over that
environment, or, if the class inherits, over a scope that the declaration of the class made for
`super`. -/
inductive Closure.ClosedIn (plan : Plan) (P : Env → Prop) (c : ClassText) (m : Closure) : Prop where
  | plain (hc : c.superclass.isSome = false) (h : P m.env)
  | inheriting {scope : ScopeId} {env : Env} {site : Site} {value declared : Class} {name : String}
      (hc : c.superclass.isSome = true) (henv : m.env = scope :: env)
      (hsite : plan scope = some site) (hrole : site.role = .superclass c value)
      (hmaker : site.maker.Declares c value declared)
      (hmethod : declared.body.methods.find? name = some m) (h : P env)

theorem Closure.ClosedIn.mono {plan plan' : Plan} {P P' : Env → Prop} {c : ClassText}
    (h : m.ClosedIn plan P c) (hp : plan.Sub plan') (hP : ∀ env, P env → P' env) :
    m.ClosedIn plan' P' c := by
  cases h with
  | plain hc h => exact .plain hc (hP _ h)
  | inheriting hc henv hsite hrole hmaker hmethod h =>
    exact .inheriting hc henv (hp _ _ hsite) hrole hmaker hmethod (hP _ h)

/-- The names that the scope of a block or a function can have. -/
def Enclosure.locals : Enclosure → List String
  | .block body => Stmt.declared body
  | .function _ d => d.locals
  | .cls _ => []

/-- An environment whose scopes were made for enclosures. A class brings the `this` of one of its
methods, and the function just inside it is that method. -/
def Env.Follows (plan : Plan) (g : ScopeId) : List Enclosure → Env → Prop
  | [], env => env = [g]
  | .cls c :: E, env => ∃ scope site method o, env = scope :: method.env ∧ plan scope = some site ∧
      site.role = .receiver method o ∧ method.ClosedIn plan (Follows plan g E) c
  | e :: E, env =>
    ∃ scope env' site, env = scope :: env' ∧ plan scope = some site ∧ site.role = .locals e.locals ∧
      (Enclosure.holdStatements E = false → plan.RunsIn env' e) ∧ Follows plan g E env'

namespace Env.Follows

variable {plan plan' : Plan} {g : ScopeId}

/-- An environment follows a larger plan too. -/
theorem mono (h : Follows plan g E env) (hp : plan.Sub plan') : Follows plan' g E env := by
  induction E generalizing env with
  | nil => exact h
  | cons e E ih =>
    cases e with
    | cls c =>
      obtain ⟨scope, site, method, o, henv, hsite, hrole, hclosed⟩ := h
      exact ⟨scope, site, method, o, henv, hp scope site hsite, hrole, hclosed.mono hp fun _ => ih⟩
    | block body =>
      obtain ⟨scope, env', site, henv, hsite, hrole, hruns, h⟩ := h
      exact ⟨scope, env', site, henv, hp scope site hsite, hrole, fun hE => (hruns hE).mono hp,
        ih h⟩
    | function kind d =>
      obtain ⟨scope, env', site, henv, hsite, hrole, hruns, h⟩ := h
      exact ⟨scope, env', site, henv, hp scope site hsite, hrole, fun hE => (hruns hE).mono hp,
        ih h⟩

/-- Inside what is no class the environment has one scope more. -/
theorem inside {e : Enclosure} (he : e.isClass = false) (h : Follows plan g (e :: E) env) :
    ∃ scope env' site, env = scope :: env' ∧ plan scope = some site ∧ site.role = .locals e.locals ∧
      (Enclosure.holdStatements E = false → plan.RunsIn env' e) ∧ Follows plan g E env' := by
  cases e with
  | cls => cases he
  | block => exact h
  | function => exact h

end Env.Follows

/-! ## Values -/

/-- A piece of a tree that was visited inside some enclosures. -/
def Node.Placed (L : List Enclosure → Visit → Prop) (n : Node) (E : List Enclosure) : Prop :=
  ∃ r, L E ⟨n, r⟩

section Follows

variable (L : List Enclosure → Visit → Prop) (plan : Plan) (g : ScopeId)

/-- A closure whose environment follows the enclosures of its declaration. -/
def Closure.Follows (c : Closure) : Prop :=
  ∃ kind E, (Node.function kind c.decl).Placed L E ∧ Env.Follows plan g E c.env ∧
    (Enclosure.holdStatements E = false → plan.Runs c.env c.decl) ∧
    (c.isInitializer = true → kind = .initializer)

/-- A method of a class: it has no scope for `this` yet. -/
def Closure.FollowsUnbound (m : Closure) : Prop :=
  ∃ kind c E, (Node.function kind m.decl).Placed L (.cls c :: E) ∧
    m.ClosedIn plan (Env.Follows plan g E) c ∧ (m.isInitializer = true → kind = .initializer)

/-- A class all of whose methods follow their text, the inherited ones too, and that knows its
initializer. -/
def Class.Follows (c : Class) : Prop :=
  ∀ b ∈ c.lineage, ∀ name m, b.methods.find? name = some m →
    m.FollowsUnbound L plan g ∧ (name = "init" → m.isInitializer = true)

/-- A value that can reach only closures that follow their text. -/
def Value.Follows : Value → Prop
  | .closure c => c.Follows L plan g
  | .cls c => c.Follows L plan g
  | .object o => o.cls.Follows L plan g
  | _ => True

/-- A store whose scopes are as planned. -/
structure Store.Follows (s : Store) : Prop where
  globals_lt : g < s.scopes.size
  global : plan g = none
  size : ∀ scope site, plan scope = some site → scope < s.scopes.size
  made : ∀ scope site, plan scope = some site → site.Made scope
  holds : ∀ scope site, plan scope = some site → site.role.Holds s scope
  values : ∀ scope name v, s.find? scope name = some v → v.Follows L plan g
  fields : ∀ id name v, s.field? id name = some v → v.Follows L plan g

end Follows

section

variable {L L' : List Enclosure → Visit → Prop} {plan plan' : Plan} {g : ScopeId} {s s' : Store}
  {c : Class}

theorem Closure.Follows.mono {c : Closure} (h : c.Follows L plan g) (hL : ∀ E v, L E v → L' E v)
    (hp : plan.Sub plan') : c.Follows L' plan' g := by
  obtain ⟨kind, E, ⟨r, hv⟩, henv, hruns, hinit⟩ := h
  exact ⟨kind, E, ⟨r, hL _ _ hv⟩, henv.mono hp, fun hE => (hruns hE).mono hp, hinit⟩

theorem Closure.FollowsUnbound.mono (h : m.FollowsUnbound L plan g) (hL : ∀ E v, L E v → L' E v)
    (hp : plan.Sub plan') : m.FollowsUnbound L' plan' g := by
  obtain ⟨kind, c, E, ⟨r, hv⟩, hclosed, hinit⟩ := h
  exact ⟨kind, c, E, ⟨r, hL _ _ hv⟩, hclosed.mono hp fun _ henv => henv.mono hp, hinit⟩

theorem Class.Follows.mono (h : c.Follows L plan g) (hL : ∀ E v, L E v → L' E v)
    (hp : plan.Sub plan') : c.Follows L' plan' g :=
  fun b hb name m hm => ⟨(h b hb name m hm).1.mono hL hp, (h b hb name m hm).2⟩

/-- Values follow their text when more scopes are planned and when more visits are known. -/
theorem Value.Follows.mono (h : v.Follows L plan g) (hL : ∀ E v, L E v → L' E v)
    (hp : plan.Sub plan') : v.Follows L' plan' g := by
  cases v with
  | closure c => exact Closure.Follows.mono h hL hp
  | cls c => exact Class.Follows.mono h hL hp
  | object o => exact Class.Follows.mono (c := o.cls) h hL hp
  | _ => trivial

theorem Class.Follows.grow (h : c.Follows L plan g) (hp : plan.Sub plan') : c.Follows L plan' g :=
  h.mono (fun _ _ hv => hv) hp

theorem Value.Follows.grow (h : v.Follows L plan g) (hp : plan.Sub plan') : v.Follows L plan' g :=
  h.mono (fun _ _ hv => hv) hp

/-- A method that is found follows its text. -/
theorem Class.Follows.findMethod? (h : c.Follows L plan g) (hm : c.findMethod? name = some m) :
    m.FollowsUnbound L plan g ∧ (name = "init" → m.isInitializer = true) := by
  obtain ⟨b, hb, hfind⟩ := List.exists_of_findSome?_eq_some hm
  exact h b hb name m hfind

/-! ## Stores -/

namespace Store.Follows

variable (h : s.Follows L plan g)

include h

theorem mono (hL : ∀ E v, L E v → L' E v) : s.Follows L' plan g :=
  ⟨h.globals_lt, h.global, h.size, h.made, h.holds,
    fun scope name v hv => (h.values scope name v hv).mono hL .refl, fun id name v hv =>
    (h.fields id name v hv).mono hL .refl⟩

/-- The scope that is added next is not planned yet. -/
theorem fresh : plan s.nextScope = none := by
  cases hsite : plan s.nextScope with
  | none => rfl
  | some site => exact absurd (h.size _ site hsite) (Nat.lt_irrefl _)

/-- A change that writes no variable. -/
theorem of_scopes (hscopes : s'.scopes = s.scopes)
    (hfields : ∀ id name v, s'.field? id name = some v → v.Follows L plan g) :
    s'.Follows L plan g := by
  have hfind (scope : ScopeId) (name : String) : s'.find? scope name = s.find? scope name := by
    rw [find?, find?, hscopes]
  refine ⟨by rw [hscopes]; exact h.globals_lt, h.global, fun scope site hsite => ?_, h.made,
    fun scope site hsite => ?_, fun scope name v hv => ?_, hfields⟩
  · rw [hscopes]
    exact h.size scope site hsite
  · refine ⟨fun name hc => ?_, fun name v hv => ?_⟩
    · rw [contains, hfind] at hc
      exact (h.holds scope site hsite).names name hc
    · rw [hfind]
      exact (h.holds scope site hsite).fixed name v hv
  · rw [hfind] at hv
    exact h.values scope name v hv

/-- Writing a variable that its scope may have. -/
theorem put {name : Token} (hv : v.Follows L plan g) (hname : name.IsFree)
    (hscope : ∀ site, plan scope = some site → name.lexeme ∈ site.role.names) :
    (s.put scope name.lexeme v).Follows L plan g := by
  refine ⟨?_, h.global, fun other site hsite => ?_, h.made, fun other site hsite => ?_,
    fun other n w hw => ?_, h.fields⟩
  · rw [size_put]
    exact h.globals_lt
  · rw [size_put]
    exact h.size other site hsite
  · refine ⟨fun n hn => ?_, fun n w hw => ?_⟩
    · rw [contains, find?_put] at hn
      split at hn
      · next hsame => rw [hsame.2.1]; exact hscope site (hsame.1 ▸ hsite)
      · exact (h.holds other site hsite).names n hn
    · -- The names `this` and `super` are not written.
      have hne : n ≠ name.lexeme := by
        rcases Role.fixed?_name hw with rfl | rfl
        · exact hname.1.symm
        · exact hname.2.symm
      rw [find?_put, if_neg fun hsame => hne hsame.2.1]
      exact (h.holds other site hsite).fixed n w hw
  · rcases of_find?_put hw with rfl | hw
    · exact hv
    · exact h.values other n w hw

/-- Writing a variable that is there already. -/
theorem overwrite {name : Token} (hv : v.Follows L plan g) (hname : name.IsFree)
    (hbound : s.contains scope name.lexeme = true) : (s.put scope name.lexeme v).Follows L plan g :=
  h.put hv hname fun site hsite => (h.holds scope site hsite).names name.lexeme hbound

/-- Declaring a variable that the text of the innermost enclosure declares. -/
theorem define (henv : Env.Follows plan g E env) {name : Token} (hv : v.Follows L plan g)
    (hname : name.IsFree) (hdeclares : Enclosure.Declares E name.lexeme) :
    (s.define env name.lexeme v).Follows L plan g := by
  cases E with
  | nil =>
    obtain rfl : env = [g] := henv
    refine h.put hv hname fun site hsite => ?_
    rw [h.global] at hsite
    cases hsite
  | cons e E =>
    have he : e.isClass = false ∧ name.lexeme ∈ e.locals := by
      cases e with
      | cls => exact hdeclares.elim
      | block => exact ⟨rfl, hdeclares⟩
      | function => exact ⟨rfl, hdeclares⟩
    obtain ⟨scope, env', site, rfl, hsite, hrole, -⟩ := henv.inside he.1
    refine h.put hv hname fun site' hsite' => ?_
    obtain rfl : site = site' := Option.some.inj (hsite.symm.trans hsite')
    rw [hrole]
    exact he.2

/-- A new scope that is as its role says. -/
theorem addScope {bindings : NameTable Value} {site : Site} (hmade : site.Made s.nextScope)
    (hnames : ∀ name v, bindings.find? name = some v → name ∈ site.role.names ∧ v.Follows L plan g)
    (hfixed : ∀ name v, site.role.fixed? = some (name, v) → bindings.find? name = some v) :
    (s.addScope bindings).Follows L (plan.add s.nextScope site) g := by
  have hp := Plan.sub_add h.fresh site
  have hold {scope : ScopeId} {site' : Site} (hsite : plan.add s.nextScope site scope = some site')
      (hne : scope ≠ s.nextScope) : plan scope = some site' := by
    rw [Plan.add, if_neg hne] at hsite
    exact hsite
  refine ⟨?_, ?_, fun scope site' hsite => ?_, fun scope site' hsite => ?_,
    fun scope site' hsite => ?_, fun scope name v hv => ?_, fun id name v hv =>
    (h.fields id name v hv).grow hp⟩
  · rw [size_addScope]
    exact Nat.lt_succ_of_lt h.globals_lt
  · have hne : g ≠ s.nextScope := Nat.ne_of_lt h.globals_lt
    rw [Plan.add, if_neg hne]
    exact h.global
  · rw [size_addScope]
    by_cases hscope : scope = s.nextScope
    · exact hscope ▸ Nat.lt_succ_self _
    · exact Nat.lt_succ_of_lt (h.size scope site' (hold hsite hscope))
  · by_cases hscope : scope = s.nextScope
    · subst hscope
      rw [Plan.add_self] at hsite
      cases hsite
      exact hmade
    · exact h.made scope site' (hold hsite hscope)
  · by_cases hscope : scope = s.nextScope
    · subst hscope
      rw [Plan.add_self] at hsite
      cases hsite
      refine ⟨fun name hc => ?_, fun name v hv => ?_⟩
      · rw [contains, find?_addScope, if_pos rfl] at hc
        obtain ⟨v, hv⟩ := Option.isSome_iff_exists.mp hc
        exact (hnames name v hv).1
      · rw [find?_addScope, if_pos rfl]
        exact hfixed name v hv
    · have hholds := h.holds scope site' (hold hsite hscope)
      refine ⟨fun name hc => ?_, fun name v hv => ?_⟩
      · rw [contains, find?_addScope, if_neg hscope] at hc
        exact hholds.names name hc
      · rw [find?_addScope, if_neg hscope]
        exact hholds.fixed name v hv
  · rcases of_find?_addScope hv with hv | hv
    · exact (hnames name v hv).2.grow hp
    · exact (h.values scope name v hv).grow hp

theorem addIdentity : s.addIdentity.Follows L plan g :=
  h.of_scopes rfl h.fields

theorem addObject : s.addObject.Follows L plan g := by
  refine h.of_scopes rfl fun id name v hv => ?_
  rw [field?_addObject] at hv
  exact h.fields id name v hv

/-- Writing a field keeps to the text. -/
theorem setField {id : ObjectId} (hv : v.Follows L plan g) :
    (s.setField id name v).Follows L plan g := by
  refine h.of_scopes rfl fun other n w hw => ?_
  rcases of_field?_setField hw with rfl | hw
  · exact hv
  · exact h.fields other n w hw

end Store.Follows

end

end Lox
