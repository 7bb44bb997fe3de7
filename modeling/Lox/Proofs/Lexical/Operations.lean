import Lox.Proofs.Lexical.Frames
import Lox.Proofs.Scope.Operations

/-!
# Operations inside enclosures

At a `this` or a `super`, the environment leads to the scopes that were made for the nearest class
around it, so neither word can be missing (`Interpreter.Stands.this_bound`,
`Interpreter.Stands.super_bound`). Binding a method makes a scope for its `this`, in which the
method is closed as its text asks (`Interpreter.Stands.bind`). All other operations here leave the
plan as it is.
-/

namespace Lox

variable {L : List Enclosure → Visit → Prop} {plan : Plan} {g : ScopeId} {D : Distances} {v : Value}
  {o : Object}

/-! ## Operators -/

theorem Value.follows_of_isPlain (h : v.isPlain = true) : v.Follows L plan g := by
  cases v with
  | closure | cls | object => cases h
  | _ => trivial

/-- A result that leads nowhere, or a fault that is not internal. -/
def PlainResult : Except Fault Value → Prop
  | .ok v => v.isPlain = true
  | .error f => f.isInternal = false

namespace Value

theorem unary_plain {operator : Token} (h : operator.IsUnary) (v : Value) :
    PlainResult (v.unary operator) := by
  rcases h with h | h
  · simp only [unary, h]
    rfl
  · simp only [unary, h]
    cases v <;> rfl

theorem numbers_plain (line : Nat) (left right : Value) {f : Float → Float → Value}
    (h : ∀ a b, (f a b).isPlain = true) : PlainResult (numbers line left right f) := by
  unfold numbers
  split
  · exact h _ _
  · rfl

theorem plus_plain (line : Nat) (left right : Value) : PlainResult (plus line left right) := by
  unfold plus
  split <;> rfl

/-- A binary operator gives no function, class or object. -/
theorem binary_plain {operator : Token} (h : operator.IsBinary) (left right : Value) :
    PlainResult (left.binary operator right) := by
  obtain ⟨l, h⟩ := h
  unfold binary
  generalize operator.kind = kind at h
  cases h with
  | plus => exact plus_plain _ _ _
  | bangEqual => rfl
  | equalEqual => rfl
  | _ => exact numbers_plain _ _ _ fun _ _ => rfl

end Value

theorem Machine.callNative_plain (n : Native) (paren : Token) (arguments : List Value)
    (st : Interpreter) : PlainResult (callNative n paren arguments st).1 := by
  rcases callNative_result n paren arguments st with ⟨v, heq, hv⟩ | ⟨message, heq⟩
  · exact heq ▸ hv
  · exact heq ▸ rfl

theorem Machine.Lexical.plain {r : Except Fault Value × Interpreter} {E : List Enclosure}
    {frames : List Frame} (h : r.2.Stands L plan g D E frames) (hr : PlainResult r.1) :
    (Machine.give r frames).Lexical L plan g D := by
  obtain ⟨result, st⟩ := r
  cases result with
  | ok v => exact .value (Value.follows_of_isPlain hr) h
  | error f => exact .fault hr h.store

/-! ## Where `this` and `super` stand -/

/-- Inside a class, the environment has the scope of a `this` just outside what stands between, and
the method that it was bound for is the outermost function in between. -/
theorem Env.Follows.receiver {inner outer : List Enclosure} {c : ClassText} {env : Env}
    (h : Env.Follows plan g (inner ++ .cls c :: outer) env)
    (hinner : ∀ e ∈ inner, e.isClass = false) :
    ∃ innerEnv scope site method o, env = innerEnv ++ scope :: method.env ∧
      innerEnv.length = inner.length ∧
      plan scope = some site ∧ site.role = .receiver method o ∧
      method.ClosedIn plan (Env.Follows plan g outer) c ∧
      (inner ≠ [] → ∃ locals kind, inner = locals ++ [Enclosure.function kind method.decl]) := by
  induction inner generalizing env with
  | nil =>
    obtain ⟨scope, site, method, o, rfl, hsite, hrole, hclosed⟩ := h
    exact ⟨[], scope, site, method, o, rfl, rfl, hsite, hrole, hclosed, fun hne => absurd rfl hne⟩
  | cons e rest ih =>
    obtain ⟨he, hrest⟩ := List.forall_mem_cons.mp hinner
    obtain ⟨first, env', site', rfl, -, -, hruns, h⟩ := h.inside he
    obtain ⟨innerEnv, scope, site, method, o, rfl, hlength, hsite, hrole, hclosed, hmethod⟩ :=
      ih h hrest
    refine ⟨first :: innerEnv, scope, site, method, o,
      rfl, by simp [hlength], hsite, hrole, hclosed, fun _ => ?_⟩
    cases rest with
    | nil =>
      -- What stands directly in the class is the method whose `this` is in the next scope.
      obtain ⟨kind, d, rfl, scope', env', site', method', o', henv, hsite', hrole', rfl⟩ :=
        hruns rfl
      obtain rfl : innerEnv = [] := List.length_eq_zero_iff.mp hlength
      obtain ⟨rfl, rfl⟩ := List.cons.inj henv
      obtain rfl : site = site' := Option.some.inj (hsite.symm.trans hsite')
      obtain ⟨rfl, -⟩ := Role.receiver.inj (hrole.symm.trans hrole')
      exact ⟨[], kind, rfl⟩
    | cons e' rest =>
      obtain ⟨locals, kind, heq⟩ := hmethod (List.cons_ne_nil _ _)
      exact ⟨e :: locals, kind, by rw [heq]; rfl⟩

theorem Store.getAt?_append (s : Store) (env : Env) (scope : ScopeId) (rest : Env) (name : String) :
    s.getAt? (env ++ scope :: rest) env.length name = s.find? scope name := by
  simp [Store.getAt?]

/-- The scope of a `this` holds the object that its method was bound to. -/
theorem Store.Follows.receiver {s : Store} (h : s.Follows L plan g) {scope : ScopeId} {site : Site}
    {method : Closure} (hsite : plan scope = some site) (hrole : site.role = .receiver method o) :
    s.find? scope "this" = some (.object o) := by
  refine (h.holds scope site hsite).fixed "this" (.object o) ?_
  rw [hrole]
  rfl

/-- The scope of a `super` holds the class that the superclass was evaluated to. -/
theorem Store.Follows.superclass {s : Store} (h : s.Follows L plan g) {scope : ScopeId}
    {site : Site} {c : ClassText} {value : Class} (hsite : plan scope = some site)
    (hrole : site.role = .superclass c value) : s.find? scope "super" = some (.cls value) := by
  refine (h.holds scope site hsite).fixed "super" (.cls value) ?_
  rw [hrole]
  rfl

section

variable {st : Interpreter} {E : List Enclosure} {frames : List Frame} {maker : Machine}
  {id : NodeId} {word name : Token}

/-- At a `this`, the variable is found and holds an object. -/
theorem Interpreter.Stands.this_bound (hL : Visit.Lexicon D L)
    (hn : (Node.expr (.thisRef id word)).Placed L E) (h : st.Stands L plan g D E frames) :
    ∃ o, st.lookUp id word = .ok (.object o) := by
  obtain ⟨r, hv⟩ := hn
  obtain ⟨inner, c, outer, rfl, hinner, hd⟩ := (hL.accepted hv).this_distance (hL.known hv)
  have hword : word.lexeme = "this" := (hL.accepted hv).formed
  obtain ⟨innerEnv, scope, site, method, o, henv, hlength, hsite, hrole, -, -⟩ :=
    h.env.receiver hinner
  refine ⟨o, ?_⟩
  simp only [lookUp, h.distances, hd, henv, ← hlength, Store.getAt?_append, hword,
    h.store.receiver hsite hrole]
  rfl

/-- What a `super` in a running program stands for. Its nearest class is `cls`, which was declared
with the superclass `value`. Between the two stand the `locals`, in the method `method` of the
class, and this method was bound to `receiver` in the scope `this`. -/
structure Interpreter.SuperPlace (plan : Plan) (st : Interpreter) (E : List Enclosure) (id : NodeId)
    (word : Token) where
  cls : ClassText
  value : Class
  declared : Class
  method : Closure
  receiver : Object
  kind : FunctionKind
  locals : List Enclosure
  outer : List Enclosure
  inner : Env
  this : ScopeId
  thisSite : Site
  superSite : Site
  name : String
  enclosed : E = locals ++ .function kind method.decl :: .cls cls :: outer
  locals_isClass : ∀ e ∈ locals, e.isClass = false
  env : st.env = inner ++ this :: method.env
  inner_length : inner.length = locals.length + 1
  thisSite_eq : plan this = some thisSite
  thisSite_role : thisSite.role = .receiver method receiver
  superSite_mem : ∃ scope, plan scope = some superSite
  superSite_role : superSite.role = .superclass cls value
  declares : superSite.maker.Declares cls value declared
  declared_method : declared.body.methods.find? name = some method
  binding : st.superBinding id word = .ok (value, receiver)

/-- At a `super`, the class and the object are found that its class was declared with and its method
was bound to. -/
theorem Interpreter.Stands.super_bound (hL : Visit.Lexicon D L)
    (hn : (Node.expr (.superRef id word name)).Placed L E) (h : st.Stands L plan g D E frames) :
    Nonempty (st.SuperPlace plan E id word) := by
  obtain ⟨r, hv⟩ := hn
  have hknown := hL.known hv
  obtain ⟨inner, c, outer, rfl, hinner, hc, hd⟩ := (hL.accepted hv).super_distance hknown
  obtain ⟨innerEnv, scope, site, method, o, henv, hlength, hsite, hrole, hclosed, hmethod⟩ :=
    h.env.receiver hinner
  cases hclosed with
  | plain hplain =>
    rw [hc] at hplain
    cases hplain
  | @inheriting scope' env' site' value declared n _ henv' hsite' hrole' hmaker hfind _ =>
    -- An expression does not stand directly in a class.
    have hne : inner ≠ [] := by
      rintro rfl
      have hE : Enclosure.holdStatements ([] ++ .cls c :: outer) = true := hknown.nested
      cases hE
    obtain ⟨locals, kind, rfl⟩ := hmethod hne
    have hsuper : st.store.getAt? st.env (innerEnv.length + 1) "super" = some (.cls value) := by
      have hsplit : st.env = (innerEnv ++ [scope]) ++ scope' :: env' := by
        rw [henv, henv']
        simp
      have hlength' : innerEnv.length + 1 = (innerEnv ++ [scope]).length := by simp
      rw [hsplit, hlength', Store.getAt?_append]
      exact h.store.superclass hsite' hrole'
    have hthis : st.store.getAt? st.env innerEnv.length "this" = some (.object o) := by
      rw [henv, Store.getAt?_append]
      exact h.store.receiver hsite hrole
    have hd' : st.distances[id]? = some (innerEnv.length + 1) := by
      rw [h.distances, hlength]
      exact hd
    exact ⟨{
      cls := c, value := value, declared := declared, method := method, receiver := o,
      kind := kind, locals := locals, outer := outer, inner := innerEnv, this := scope,
      thisSite := site, superSite := site', name := n
      enclosed := by simp
      locals_isClass := fun e he => hinner e (List.mem_append_left _ he)
      env := henv
      inner_length := by simpa using hlength
      thisSite_eq := hsite
      thisSite_role := hrole
      superSite_mem := ⟨scope', hsite'⟩
      superSite_role := hrole'
      declares := hmaker
      declared_method := hfind
      binding := by simp only [superBinding, hd', hsuper, Nat.add_sub_cancel, hthis] }⟩

/-! ## Variables and output -/

theorem Interpreter.lookUp_follows (hs : st.store.Follows L plan g)
    (h : st.lookUp id name = .ok v) : v.Follows L plan g := by
  obtain ⟨scope, hv⟩ := exists_find?_of_lookUp h
  exact hs.values scope _ v hv

/-- A free name that is missing is no internal fault. -/
theorem Token.IsFree.isInternal (h : name.IsFree) (line : Nat) :
    (Fault.runtime line (.undefinedVariable name.lexeme)).isInternal = false := by
  simp [Fault.isInternal, RuntimeFault.isInternal, h.1, h.2]

/-- Looking up a free name fails only as the language says. -/
theorem Interpreter.lookUp_external (hname : name.IsFree) {f : Fault}
    (h : st.lookUp id name = .error f) : f.isInternal = false := by
  unfold lookUp found at h
  split at h <;> cases h
  exact hname.isInternal name.line

section

variable (h : st.Stands L plan g D E frames)

include h

theorem Interpreter.Stands.define (hv : v.Follows L plan g) (hname : name.IsFree)
    (hdeclares : Enclosure.Declares E name.lexeme) :
    (st.define name.lexeme v).Stands L plan g D E frames :=
  h.withStore (h.store.define h.env hv hname hdeclares)

/-- An assignment keeps to the text. -/
theorem Interpreter.Stands.assign (hv : v.Follows L plan g) (hname : name.IsFree) :
    (Machine.give (st.assign id name v) frames).Lexical L plan g D := by
  unfold Interpreter.assign
  split
  · next htarget =>
    exact .value hv
      (h.withStore (h.store.overwrite hv hname (Interpreter.contains_of_target? htarget)))
  · exact .fault (hname.isInternal name.line) h.store

theorem Interpreter.Stands.print (v : Value) :
    (Machine.finish (st.print v) frames).Lexical L plan g D := by
  simp only [Interpreter.print]
  obtain ⟨output, taken⟩ := st.output.write (v.pieces ++ ["\n"])
  cases taken with
  | true => exact .normal ⟨h.globals, h.distances, h.store, h.env, h.frames⟩
  | false => exact .fault rfl h.store

/-! ## Methods -/

/-- Binding a method makes a scope for its `this`. -/
theorem Interpreter.Stands.bind {method : Closure} (hm : method.FollowsUnbound L plan g)
    (ho : o.cls.Follows L plan g) (hbinds : maker.Binds method o)
    (hscope : maker.state.store.nextScope = st.store.nextScope) :
    ∃ plan', plan.GrowsBy maker plan' ∧ (st.bind method o).2.Stands L plan' g D E frames ∧
      (st.bind method o).1.Follows L plan' g := by
  have hfresh := h.store.fresh
  have hadd : (st.addScope (NameTable.insert ∅ "this" (.object o))).Stands L
      (plan.add st.store.nextScope ⟨.receiver method o, maker⟩) g D E frames := by
    refine h.addScope ?_ (fun name v hv => ?_) fun name v hv => ?_
    · rintro _ _ ⟨⟩
      exact ⟨hbinds, hscope⟩
    · obtain ⟨hname, rfl⟩ := NameTable.of_find?_singleton hv
      exact ⟨List.mem_singleton.mpr hname, ho⟩
    · cases hv
      rw [NameTable.find?_insert, if_pos rfl]
  have hgrows : plan.GrowsBy maker (plan.add st.store.nextScope ⟨.receiver method o, maker⟩) :=
    .add hfresh _
  obtain ⟨kind, c, E', hplaced, hclosed, hinit⟩ := hm
  have hsite := plan.add_self st.store.nextScope ⟨.receiver method o, maker⟩
  refine ⟨_, hgrows, hadd.withStore hadd.store.addIdentity, kind, .cls c :: E', hplaced, ?_,
    fun _ => ?_, hinit⟩
  · exact ⟨_, _, method, o, rfl, hsite, rfl, hclosed.mono hgrows.sub fun _ henv =>
      henv.mono hgrows.sub⟩
  · exact ⟨_, _, _, method, o, rfl, hsite, rfl, rfl⟩

/-- A property that may be a method. -/
theorem Machine.FollowsFrom.bindFound {method? : Option Closure}
    (hm : ∀ m, method? = some m → m.FollowsUnbound L plan g) (ho : o.cls.Follows L plan g)
    (hstate : maker.state = st) (hstep : maker.step = give (st.bindFound o name method?) frames) :
    FollowsFrom L plan g D maker (give (st.bindFound o name method?) frames) := by
  cases method? with
  | none => exact Lexical.followsFrom (.fault rfl h.store)
  | some m =>
    subst hstate
    obtain ⟨plan', hgrows, hst, hc⟩ := h.bind (hm m rfl) ho (.access frames hstep) rfl
    exact ⟨plan', hgrows, .value (v := .closure _) hc hst⟩

theorem Machine.FollowsFrom.property (ho : o.cls.Follows L plan g) (hstate : maker.state = st)
    (hstep : maker.step = give (st.property o name) frames) :
    FollowsFrom L plan g D maker (give (st.property o name) frames) := by
  unfold Interpreter.property at hstep ⊢
  split
  · next v hfield => exact Lexical.followsFrom (.value (h.store.fields _ _ v hfield) h)
  · next hfield =>
    rw [hfield] at hstep
    exact .bindFound h (fun m hm => (ho.findMethod? hm).1) ho hstate hstep

end

theorem Machine.FollowsFrom.superMethod (hL : Visit.Lexicon D L)
    (hn : (Node.expr (.superRef id word name)).Placed L E) (h : st.Stands L plan g D E frames)
    (hstate : maker.state = st) (hstep : maker.step = give (st.superMethod id word name) frames) :
    FollowsFrom L plan g D maker (give (st.superMethod id word name) frames) := by
  obtain ⟨p⟩ := h.super_bound hL hn
  obtain ⟨scope, hscope⟩ := p.superSite_mem
  -- Both come from the store, so they follow their text.
  have ho := h.store.values p.this "this" _ (h.store.receiver p.thisSite_eq p.thisSite_role)
  have hvalue := h.store.values scope "super" _ (h.store.superclass hscope p.superSite_role)
  have heq : st.superMethod id word name =
      st.bindFound p.receiver name (p.value.findMethod? name.lexeme) := by
    rw [Interpreter.superMethod, p.binding]
  rw [heq] at hstep ⊢
  exact .bindFound h (fun m hm => (Class.Follows.findMethod? hvalue hm).1) ho hstate hstep

end

end Lox
