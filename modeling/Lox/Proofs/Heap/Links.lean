import Lox.Proofs.Machine.Carrying

/-!
# Links between scopes

Environments are lists of scopes, and many environments share their outer parts. They do so as
chains of links would: each scope is made inside one environment, and wherever the scope stands,
that environment stands outside of it. `Links` remembers this for all scopes, and an environment is
linked if its innermost scope was made in the rest of it. A scope is made after those around it, so
links lead to smaller numbers and end in the global scope (`Links.chain`). No step changes where a
scope stands (`Links.step`).

With links, looking for a variable is a walk outwards. `Search` and `Climb` are the rules of the two
kinds of walks, which come to an end on a chain, with what the store answers for the list
(`Chain.walksEnd`). Classes are like scopes: each is made after the one it inherits from, and
methods are searched upwards (`Class.Search`).
-/

namespace Lox

/-! ## Chains and walks -/

/-- An environment that is the chain along links from its innermost scope to the global one. -/
inductive Chain (link : ScopeId → Option ScopeId) (g : ScopeId) : Env → Prop where
  | globals (h : link g = none) : Chain link g [g]
  | inside {i j : ScopeId} {env : Env} (h : link i = some j) (hc : Chain link g (j :: env)) :
      Chain link g (i :: j :: env)

/-- The search along links, from a scope outwards, for one that has a variable, and what it comes
to. -/
inductive Search (link : ScopeId → Option ScopeId) (s : Store) (name : String) :
    ScopeId → Option ScopeId → Prop where
  | here {i : ScopeId} (h : s.contains i name = true) : Search link s name i (some i)
  | nowhere {i : ScopeId} (h : s.contains i name = false) (hl : link i = none) :
      Search link s name i none
  | outwards {i j : ScopeId} {r : Option ScopeId} (h : s.contains i name = false)
      (hl : link i = some j) (hs : Search link s name j r) : Search link s name i r

/-- A number of steps along links, and the scope that they lead to. -/
inductive Climb (link : ScopeId → Option ScopeId) : Nat → ScopeId → Option ScopeId → Prop where
  | here {i : ScopeId} : Climb link 0 i (some i)
  | over {d : Nat} {i : ScopeId} (hl : link i = none) : Climb link (d + 1) i none
  | outwards {d : Nat} {i j : ScopeId} {r : Option ScopeId} (hl : link i = some j)
      (hc : Climb link d j r) : Climb link (d + 1) i r

/-- From the innermost scope of an environment, both kinds of walks end, and what is read or written
there is in the scope that they lead to. -/
structure WalksEnd (link : ScopeId → Option ScopeId) (s : Store) (i : ScopeId) (env : Env) :
    Prop where
  search : ∀ name, ∃ r, Search link s name i r ∧
    s.get? env name = (r.bind fun j => s.find? j name) ∧ ∀ v, s.assign? env name v = r.map fun j =>
    s.put j name v
  climb : ∀ d, ∃ r, Climb link d i r ∧
    ∀ name, s.getAt? env d name = (r.bind fun j => s.find? j name) ∧
    ∀ v, s.assignAt? env d name v = (r.filter fun j => s.contains j name).map fun j =>
    s.put j name v

/-- The search for a method from a class upwards, and what it comes to. -/
inductive Class.Search (name : String) : Class → Option Closure → Prop where
  | own {c : Class} {method : Closure} (h : c.body.methods.find? name = some method) :
      Search name c (some method)
  | nowhere {c : Class} (h : c.body.methods.find? name = none) (hs : c.superclass? = none) :
      Search name c none
  | inherited {c c' : Class} {r : Option Closure} (h : c.body.methods.find? name = none)
      (hs : c.superclass? = some c') (hr : Search name c' r) : Search name c r

/-- The value of a variable is that in the innermost scope that has it. -/
theorem Store.get?_eq_bind (s : Store) (env : Env) (name : String) :
    s.get? env name = (s.binder? env name).bind fun j => s.find? j name := by
  induction env with
  | nil => rfl
  | cons i env ih =>
    rw [get?, List.findSome?_cons, binder?, List.find?_cons, contains]
    cases hv : s.find? i name with
    | none => exact ih
    | some v => exact hv.symm

namespace Chain

variable {link : ScopeId → Option ScopeId} {g i : ScopeId} {env : Env}

/-- On a chain the search outwards ends, in the innermost scope of the list that has the
variable. -/
theorem search (h : Chain link g (i :: env)) (s : Store) (name : String) :
    Search link s name i (s.binder? (i :: env) name) := by
  have hlist (j : ScopeId) (rest : Env) : s.binder? (j :: rest) name =
      if s.contains j name then some j else s.binder? rest name := by
    rw [Store.binder?, List.find?_cons]
    cases s.contains j name <;> rfl
  induction env generalizing i with
  | nil =>
    cases h with
    | globals hl =>
      rw [hlist]
      cases hc : s.contains g name with
      | true => exact .here hc
      | false => exact .nowhere hc hl
  | cons j env ih =>
    cases h with
    | inside hl htail =>
      rw [hlist]
      cases hc : s.contains i name with
      | true => exact .here hc
      | false => exact .outwards hc hl (ih htail)

/-- On a chain, steps outwards lead through the list. -/
theorem climb (h : Chain link g (i :: env)) (d : Nat) : Climb link d i (i :: env)[d]? := by
  induction d generalizing i env with
  | zero => exact .here
  | succ d ih =>
    cases h with
    | globals hl => exact .over hl
    | inside hl htail => exact .outwards hl (ih htail)

/-- What is read or written along a chain. -/
theorem walksEnd (h : Chain link g (i :: env)) (s : Store) : WalksEnd link s i (i :: env) where
  search name := by
    refine ⟨_, h.search s name, s.get?_eq_bind _ name, fun v => ?_⟩
    rw [Store.assign?]
    cases s.binder? (i :: env) name <;> rfl
  climb d := by
    refine ⟨_, h.climb d, fun name => ⟨?_, fun v => ?_⟩⟩
    · rw [Store.getAt?]
      cases (i :: env)[d]? <;> rfl
    · rw [Store.assignAt?, Store.binderAt?]
      cases (i :: env)[d]? with
      | none => rfl
      | some j =>
        rw [Option.filter_some]
        dsimp only
        cases s.contains j name <;> rfl

end Chain

/-- The search upwards ends, with the method of the nearest class that has one. -/
theorem Class.search (c : Class) (name : String) : c.Search name (c.findMethod? name) := by
  obtain ⟨body, ancestors⟩ := c
  have hlist (b : ClassBody) (rest : List ClassBody) : Class.findMethod? ⟨b, rest⟩ name =
      (b.methods.find? name).or (rest.findSome? fun b => b.methods.find? name) := by
    rw [findMethod?, lineage, List.findSome?_cons]
    cases b.methods.find? name <;> rfl
  induction ancestors generalizing body with
  | nil =>
    rw [hlist]
    cases hm : body.methods.find? name with
    | some method => exact .own hm
    | none => exact .nowhere hm rfl
  | cons b rest ih =>
    rw [hlist]
    cases hm : body.methods.find? name with
    | some method => exact .own hm
    | none => exact .inherited hm rfl (ih b)

/-! ## The environments in which scopes were made -/

/-- An entry of a list with one entry more at its end. -/
theorem getElem?_concat_cases {α : Type} {l : List α} {a b : α} {i : Nat}
    (h : (l ++ [a])[i]? = some b) : l[i]? = some b ∨ (i = l.length ∧ b = a) := by
  rw [List.getElem?_append] at h
  split at h
  · exact .inl h
  · next hlt =>
    cases hk : i - l.length with
    | zero =>
      rw [hk] at h
      cases h
      exact .inr ⟨Nat.le_antisymm (Nat.le_of_sub_eq_zero hk) (Nat.not_lt.mp hlt), rfl⟩
    | succ k =>
      rw [hk] at h
      cases h

/-- For each scope the environment in which it was made, and how many identities have been given. -/
structure Links where
  outer : List Env
  identities : Identity

namespace Links

/-- The links of a later state: scopes keep theirs. -/
def Before (L L' : Links) : Prop :=
  L.outer <+: L'.outer ∧ L.identities ≤ L'.identities

/-- An environment whose innermost scope was made in the rest of it. -/
def Linked (L : Links) : Env → Prop
  | [] => False
  | i :: env => L.outer[i]? = some env

/-- Only the global scope stands in no environment, and scopes stand in older ones. -/
structure Formed (L : Links) (g : ScopeId) : Prop where
  globals : L.outer[g]? = some []
  eq_globals : ∀ i, L.outer[i]? = some [] → i = g
  older : ∀ i j env, L.outer[i]? = some (j :: env) → j < i ∧ L.Linked (j :: env)

/-- The scope that stands next outside of a scope. -/
def link (L : Links) (i : ScopeId) : Option ScopeId :=
  L.outer[i]?.bind List.head?

/-- The links after a scope was made in an environment. -/
def addScope (L : Links) (env : Env) : Links :=
  ⟨L.outer ++ [env], L.identities⟩

/-- The links after an identity was given. -/
def addIdentity (L : Links) : Links :=
  ⟨L.outer, L.identities + 1⟩

variable {L L' L'' : Links} {g : ScopeId} {env : Env}

theorem Before.refl (L : Links) : L.Before L := ⟨List.prefix_rfl, Nat.le_refl _⟩

theorem Before.trans (h : L.Before L') (h' : L'.Before L'') : L.Before L'' :=
  ⟨h.1.trans h'.1, Nat.le_trans h.2 h'.2⟩

theorem before_addScope (L : Links) (env : Env) : L.Before (L.addScope env) :=
  ⟨List.prefix_append _ _, Nat.le_refl _⟩

theorem before_addIdentity (L : Links) : L.Before L.addIdentity :=
  ⟨List.prefix_rfl, Nat.le_succ _⟩

theorem Before.outer_eq (h : L.Before L') {i : ScopeId} (hi : L.outer[i]? = some env) :
    L'.outer[i]? = some env := by
  obtain ⟨later, hlater⟩ := h.1
  rw [← hlater, List.getElem?_append_left (List.getElem?_eq_some_iff.mp hi).1, hi]

theorem Linked.mono (h : L.Linked env) (hL : L.Before L') : L'.Linked env := by
  cases env with
  | nil => exact h
  | cons i env => exact hL.outer_eq h

theorem Linked.lt (hf : L.Formed g) (h : L.Linked env) : ∀ i ∈ env, i < L.outer.length := by
  induction env with
  | nil => exact h.elim
  | cons i env ih =>
    have hi : i < L.outer.length := (List.getElem?_eq_some_iff.mp h).1
    refine List.forall_mem_cons.mpr ⟨hi, ?_⟩
    cases env with
    | nil => exact fun _ hmem => nomatch hmem
    | cons j env => exact ih (hf.older i j env h).2

/-- A scope is linked to an older one. -/
theorem link_lt (hf : L.Formed g) {i j : ScopeId} (h : L.link i = some j) : j < i := by
  rw [link] at h
  cases hi : L.outer[i]? with
  | none =>
    rw [hi] at h
    cases h
  | some env =>
    rw [hi] at h
    cases env with
    | nil => cases h
    | cons k env =>
      cases h
      exact (hf.older i j env hi).1

/-- **A linked environment is the chain of links from its innermost scope to the global one.** -/
theorem chain (hf : L.Formed g) (h : L.Linked env) : Chain L.link g env := by
  induction env with
  | nil => exact h.elim
  | cons i env ih =>
    have hi : L.outer[i]? = some env := h
    cases env with
    | nil =>
      cases hf.eq_globals i hi
      exact .globals (by rw [link, hi]; rfl)
    | cons j env =>
      exact .inside (by rw [link, hi]; rfl) (ih (hf.older i j env hi).2)

theorem Formed.addScope (hf : L.Formed g) (h : L.Linked env) : (L.addScope env).Formed g := by
  have hbefore := L.before_addScope env
  -- Either an old scope, or the new one, which stands in the environment.
  have hcases (i : ScopeId) (e : Env) (hi : (L.addScope env).outer[i]? = some e) :
      L.outer[i]? = some e ∨ (i = L.outer.length ∧ e = env) := getElem?_concat_cases hi
  refine ⟨hbefore.outer_eq hf.globals, fun i hi => ?_, fun i j e hi => ?_⟩
  · rcases hcases i [] hi with hi | ⟨-, rfl⟩
    · exact hf.eq_globals i hi
    · exact h.elim
  · rcases hcases i (j :: e) hi with hi | ⟨rfl, rfl⟩
    · exact ⟨(hf.older i j e hi).1, (hf.older i j e hi).2.mono hbefore⟩
    · exact ⟨h.lt hf j List.mem_cons_self, h.mono hbefore⟩

/-- A new scope is linked to the environment it was made in. -/
theorem linked_addScope (L : Links) (env : Env) :
    (L.addScope env).Linked (L.outer.length :: env) := by
  show (L.outer ++ [env])[L.outer.length]? = some env
  rw [List.getElem?_concat_length]

end Links

/-! ## What is linked -/

/-- The environments of the methods of a class are linked, and its lineage leads to older
classes. -/
structure Class.Linked (L : Links) (c : Class) : Prop where
  older : c.lineage.Pairwise fun b b' => b'.identity < b.identity
  made : ∀ b ∈ c.lineage, b.identity < L.identities
  methods : ∀ b ∈ c.lineage, ∀ name method, b.methods.find? name = some method → L.Linked method.env

/-- All environments and classes of a value are linked. -/
def Value.Linked (L : Links) : Value → Prop
  | .closure c => L.Linked c.env
  | .cls c => c.Linked L
  | .object o => o.cls.Linked L
  | _ => True

variable {L L' : Links}

theorem Class.Linked.mono {c : Class} (h : c.Linked L) (hL : L.Before L') : c.Linked L' where
  older := h.older
  made b hb := Nat.lt_of_lt_of_le (h.made b hb) hL.2
  methods b hb name method hm := (h.methods b hb name method hm).mono hL

theorem Class.Linked.findMethod {c : Class} (h : c.Linked L) {name : String} {method : Closure}
    (hm : c.findMethod? name = some method) : L.Linked method.env := by
  obtain ⟨b, hb, hfind⟩ := List.exists_of_findSome?_eq_some hm
  exact h.methods b hb name method hfind

theorem Value.Linked.mono {v : Value} (h : v.Linked L) (hL : L.Before L') : v.Linked L' := by
  cases v with
  | closure c => exact Links.Linked.mono h hL
  | cls c => exact Class.Linked.mono h hL
  | object o => exact Class.Linked.mono h hL
  | _ => trivial

/-! ## Links and steps -/

/-- The links are those of the scopes of a store, and its identities are those that were given. -/
structure Links.Describes (L : Links) (g : ScopeId) (s : Store) : Prop where
  formed : L.Formed g
  scopes : L.outer.length = s.nextScope
  identities : L.identities = s.nextIdentity

theorem Links.Describes.addIdentity {g : ScopeId} {s : Store} (h : L.Describes g s) :
    L.addIdentity.Describes g s.addIdentity where
  formed := ⟨h.formed.globals, h.formed.eq_globals, h.formed.older⟩
  scopes := h.scopes
  identities := congrArg (· + 1) h.identities

/-- All environments and classes are linked. Scopes are made in environments that are linked, and
links stay what they are. -/
def Links.carrying : Carrying where
  toCode := .any
  Stage := Links
  Before := Before
  value L v := v.Linked L
  env := Linked
  store := Describes
  refl := Before.refl
  trans := Before.trans
  value_mono hL h := h.mono hL
  env_mono hL h := h.mono hL
  plain {L v} h := by
    cases v with
    | closure | cls | object => cases h
    | _ => trivial
  native := trivial
  closure := (and_iff_left trivial).symm
  method {L v c n m} h hc hm := by
    cases v with
    | cls | object =>
      cases hc
      exact Class.Linked.findMethod h hm
    | _ => cases hc
  put h scope name v := ⟨h.formed, h.scopes.trans (Store.size_put ..).symm, h.identities⟩
  addScope {L g s e} h he bindings := by
    refine ⟨L.addScope e, L.before_addScope e, ⟨h.formed.addScope he, ?_, h.identities⟩, ?_⟩
    · rw [addScope, List.length_append, h.scopes]
      exact (s.size_addScope bindings).symm
    · exact h.scopes ▸ L.linked_addScope e
  addIdentity {L _ _} h := ⟨_, L.before_addIdentity, h.addIdentity⟩

/-- A new class is younger than all that it inherits from. -/
theorem Class.extend_linked {b : ClassBody} (hb : b.identity = L.identities)
    (hmethods : ∀ name c, b.methods.find? name = some c → L.Linked c.env)
    {superclass : Option Class} (hs : ∀ c, superclass = some c → c.Linked L) :
    (Class.extend b superclass).Linked L.addIdentity := by
  have hnext := L.before_addIdentity
  have hown : b.identity < L.addIdentity.identities := hb ▸ Nat.lt_succ_self _
  cases superclass with
  | none =>
    refine ⟨List.pairwise_singleton _ _, List.forall_mem_singleton.mpr hown, ?_⟩
    exact List.forall_mem_singleton.mpr fun name c hc => (hmethods name c hc).mono hnext
  | some c =>
    have hc := hs c rfl
    refine ⟨List.pairwise_cons.mpr ⟨fun b' hb' => hb ▸ hc.made b' hb', hc.older⟩, ?_, ?_⟩
    · exact List.forall_mem_cons.mpr ⟨hown, fun b hb => Nat.lt_succ_of_lt (hc.made b hb)⟩
    · exact List.forall_mem_cons.mpr ⟨fun name m hm => (hmethods name m hm).mono hnext,
        fun b hb name m hm => (hc.methods b hb name m hm).mono hnext⟩

/-- **A step keeps links: scopes stand where they stood, and all that the machine carries stays
linked.** -/
theorem Links.step {m : Machine} (h : carrying.OfMachine L m) : carrying.Follows L m.step := by
  obtain ⟨hformed, hscopes, hidentities⟩ := h.state.store
  have hs : L.Describes m.state.globals m.state.store.addObject := ⟨hformed, hscopes, hidentities⟩
  refine Carrying.step h ⟨fun _ _ _ _ => ⟨hformed, hscopes, hidentities⟩, fun _ _ hc => ⟨hs, hc⟩,
    ?_⟩
  intro name superclass methods _ L' _ hs' hsuper hmethods
  refine ⟨_, L'.before_addIdentity, hs'.addIdentity, ?_⟩
  exact Class.extend_linked hs'.identities.symm hmethods hsuper

end Lox
