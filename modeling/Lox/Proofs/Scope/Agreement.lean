import Lox.Proofs.Binding.Places
import Lox.Proofs.Machine.Values

/-!
# Environments and scopes

An environment agrees with the scopes known at a place if it has one scope of the store for each of
them and then the global one, and each name that is defined there is bound here (`Env.Agrees`). It
matches them if moreover its innermost scope binds nothing else (`Env.Matches`).

A closure is sound if its environment agrees with the scopes known where its declaration was
visited, and the same is asked of all that a value can reach. What is sound stays so, since a name
that is bound stays bound: a running program only changes what it may (`Store.Grows`).
-/

namespace Lox

variable {scope below : ScopeId} {name : String} {bindings : NameTable Value}

/-- The number of the innermost scope of an environment. -/
def Env.top (env : Env) : ScopeId :=
  env.headD 0

/-! ## The store after a change -/

namespace Store

variable (s : Store)

theorem contains_iff : s.contains scope name = true ↔ ∃ v, s.find? scope name = some v :=
  Option.isSome_iff_exists

theorem lt_of_contains {s : Store} (h : s.contains scope name = true) : scope < s.scopes.size := by
  refine Nat.lt_of_not_le fun hle => ?_
  rw [contains, find?, Array.getElem?_eq_none hle] at h
  cases h

/-- A change of the store: no name becomes unbound, and scopes before `below` bind the same
names. -/
structure Grows (below : ScopeId) (s s' : Store) : Prop where
  size : s.scopes.size ≤ s'.scopes.size
  kept : ∀ scope name, s.contains scope name = true → s'.contains scope name = true
  unchanged : ∀ scope, scope < below → ∀ name, s'.contains scope name = s.contains scope name

namespace Grows

variable {s} {s₁ s₂ : Store} {below : ScopeId}

theorem refl : Grows below s s :=
  ⟨Nat.le_refl _, fun _ _ h => h, fun _ _ _ => rfl⟩

theorem trans (h : Grows below s s₁) (h' : Grows below s₁ s₂) : Grows below s s₂ :=
  ⟨Nat.le_trans h.size h'.size, fun scope name hc => h'.kept scope name (h.kept scope name hc),
    fun scope hlt name => (h'.unchanged scope hlt name).trans (h.unchanged scope hlt name)⟩

theorem weaken (h : Grows below s s₁) {below' : ScopeId} (hle : below' ≤ below) :
    Grows below' s s₁ :=
  ⟨h.size, h.kept, fun scope hlt => h.unchanged scope (Nat.lt_of_lt_of_le hlt hle)⟩

/-- A change that does not touch scopes. -/
theorem of_scopes (h : s₁.scopes = s.scopes) : Grows below s s₁ := by
  have hc (scope : ScopeId) (name : String) : s₁.contains scope name = s.contains scope name := by
    rw [contains, contains, find?, find?, h]
  have hsize : s.scopes.size ≤ s₁.scopes.size := Nat.le_of_eq (congrArg Array.size h.symm)
  exact ⟨hsize, fun scope name hs => (hc scope name).trans hs, fun scope _ name => hc scope name⟩

/-- Writing a variable of a scope that is not before `below`. -/
theorem put (name : String) (v : Value) (h : below ≤ scope) :
    Grows below s (s.put scope name v) := by
  refine ⟨Nat.le_of_eq (size_put ..).symm, fun other n hc => ?_, fun other hlt n => ?_⟩
  · rw [contains, find?_put]
    split
    · rfl
    · exact hc
  · have hne : other ≠ scope := fun he => absurd (he ▸ hlt) (Nat.not_lt.mpr h)
    rw [contains, find?_put, if_neg fun hc => hne hc.1, contains]

theorem define (env : Env) (name : String) (v : Value) : Grows env.top s (s.define env name v) := by
  cases env with
  | nil => exact .refl
  | cons scope env => exact .put name v (Nat.le_refl scope)

/-- Writing a variable that is there already. -/
theorem overwrite (v : Value) (h : s.contains scope name = true) :
    Grows below s (s.put scope name v) := by
  have hc (other : ScopeId) (n : String) : (s.put scope name v).contains other n =
      s.contains other n := by
    rw [contains, find?_put]
    split
    · next hsame => rw [hsame.1, hsame.2.1, h]; rfl
    · rfl
  exact ⟨Nat.le_of_eq (size_put ..).symm, fun other n hs => (hc other n).trans hs,
    fun other _ n => hc other n⟩

theorem addScope (bindings : NameTable Value) (h : below ≤ s.nextScope) :
    Grows below s (s.addScope bindings) := by
  refine ⟨by rw [size_addScope]; exact Nat.le_succ _, fun scope n hc => ?_, fun scope hlt n => ?_⟩
  · have hne : scope ≠ s.nextScope := fun he => by
      rw [he, contains, find?, nextScope, Array.getElem?_eq_none (Nat.le_refl _)] at hc
      cases hc
    rw [contains, find?_addScope, if_neg hne]
    exact hc
  · rw [contains, find?_addScope, if_neg (Nat.ne_of_lt (Nat.lt_of_lt_of_le hlt h)), contains]

end Grows

end Store

/-! ## Environments -/

namespace Env

variable {t : NameTable Bool}

/-- An environment with one scope for each known one and then the global one, in which what is
defined is bound. -/
inductive Agrees (g : ScopeId) (s : Store) : Env → Scopes → Prop where
  | global : Agrees g s [g] []
  | scope {scope : ScopeId} {env : Env} {t : NameTable Bool} {Γ : Scopes}
      (hbound : ∀ name, t.find? name = some true → s.contains scope name = true)
      (h : Agrees g s env Γ) : Agrees g s (scope :: env) (t :: Γ)

/-- An environment that agrees with known scopes and whose innermost scope binds only what is
defined. -/
structure Matches (g : ScopeId) (s : Store) (env : Env) (Γ : Scopes) : Prop where
  agrees : Agrees g s env Γ
  exact : ∀ t outer, Γ = t :: outer → ∀ name, s.contains (top env) name = true →
    t.find? name = some true
  top_lt : top env < s.scopes.size

variable {g : ScopeId} {s s' : Store} {env : Env} {Γ : Scopes}

namespace Agrees

variable (h : Agrees g s env Γ)

include h

theorem length : env.length = Γ.length + 1 := by
  induction h with
  | global => rfl
  | scope _ _ ih => rw [List.length_cons, ih, List.length_cons]

theorem getLast? : env.getLast? = some g := by
  induction h with
  | global => rfl
  | @scope scope env t Γ _ _ ih =>
    rw [List.getLast?_cons, ih]
    rfl

/-- A name that is defined some scopes out is bound as many scopes out. -/
theorem bound {d : Nat} (hd : Γ[d]? = some t) (hname : t.find? name = some true) :
    ∃ scope, env[d]? = some scope ∧ s.contains scope name = true := by
  induction h generalizing d with
  | global => cases hd
  | @scope scope env t' Γ hbound _ ih =>
    cases d with
    | zero =>
      cases hd
      exact ⟨scope, rfl, hbound name hname⟩
    | succ d => exact ih hd

theorem grows (hs : s.Grows below s') : Agrees g s' env Γ := by
  induction h with
  | global => exact .global
  | scope hbound _ ih => exact .scope (fun name hname => hs.kept _ name (hbound name hname)) ih

/-- Fewer defined names are bound too. -/
theorem undefine (name : String) : Agrees g s env (Γ.mark name false) := by
  cases h with
  | global => exact .global
  | scope hbound h =>
    refine .scope (fun other hother => hbound other ?_) h
    rw [NameTable.find?_insert] at hother
    split at hother
    · cases hother
    · exact hother

end Agrees

namespace Matches

theorem grows (h : Matches g s env Γ) (hs : s.Grows below s') (htop : top env < below) :
    Matches g s' env Γ := by
  refine ⟨h.agrees.grows hs, fun t outer hΓ name hc => ?_, Nat.lt_of_lt_of_le h.top_lt hs.size⟩
  rw [hs.unchanged _ htop] at hc
  exact h.exact t outer hΓ name hc

/-- Changes that bind no new name in the innermost scope keep the match. -/
theorem grows_succ (h : Matches g s env Γ) (hs : s.Grows (top env + 1) s') : Matches g s' env Γ :=
  h.grows hs (Nat.lt_succ_self _)

/-- A declaration binds the name that it defines. -/
theorem define (h : Matches g s env Γ) (name : String) (v : Value) :
    Matches g (s.define env name v) env (Γ.mark name true) := by
  obtain ⟨hagrees, hexact, htop⟩ := h
  cases hagrees with
  | global =>
    refine ⟨.global, fun _ _ hΓ => (nomatch hΓ), ?_⟩
    rw [Store.define, Store.size_put]
    exact htop
  | @scope scope env t Γ hbound hagrees =>
    have htop' : scope < s.scopes.size := htop
    have hfind (n : String) : (s.put scope name v).find? scope n = if n = name then some v
        else s.find? scope n := by
      rw [Store.find?_put]
      by_cases hn : n = name <;> simp [hn, htop']
    -- What is defined is bound, what is bound is defined, and the scope is still there.
    refine ⟨.scope (fun n hn => ?_) (hagrees.grows (.put name v (Nat.zero_le scope))), ?_, ?_⟩
    · rw [NameTable.find?_insert] at hn
      rw [Store.define, Store.contains, hfind]
      split at hn
      · next heq => rw [if_pos heq]; rfl
      · next hne => rw [if_neg hne]; exact hbound n hn
    · rintro _ _ ⟨⟩ n hn
      have hn' : ((s.put scope name v).find? scope n).isSome = true := hn
      rw [hfind] at hn'
      rw [NameTable.find?_insert]
      split
      · rfl
      · next hne =>
        rw [if_neg hne] at hn'
        exact hexact t Γ rfl n hn'
    · rw [Store.define, Store.size_put]
      exact htop'

/-- A name that is not bound yet can be declared before it is defined. -/
theorem undefine (h : Matches g s env Γ)
    (hname : ∀ t outer, Γ = t :: outer → t.contains name = false) :
    Matches g s env (Γ.mark name false) := by
  refine ⟨h.agrees.undefine name, fun t outer hΓ n hn => ?_, h.top_lt⟩
  cases Γ with
  | nil => cases hΓ
  | cons u rest =>
    cases hΓ
    have hfind := h.exact u _ rfl n hn
    -- A name that is bound is known in the scope, and `name` is not.
    have hne : n ≠ name := by
      rintro rfl
      have hcontains := hname u _ rfl
      rw [NameTable.contains, hfind] at hcontains
      cases hcontains
    rw [NameTable.find?_insert, if_neg hne]
    exact hfind

end Matches

/-- A new scope inside an environment. -/
theorem Agrees.enter (h : Agrees g s env Γ)
    (ht : ∀ name, t.find? name = some true → bindings.contains name = true) :
    Agrees g (s.addScope bindings) (s.nextScope :: env) (t :: Γ) := by
  refine .scope (fun name hname => ?_) (h.grows (.addScope bindings (Nat.le_refl _)))
  rw [Store.contains, Store.find?_addScope, if_pos rfl]
  exact ht name hname

/-- Entering a new scope with just the variables that are defined in it. -/
theorem Matches.enter (h : Agrees g s env Γ)
    (ht : ∀ name, t.find? name = some true ↔ bindings.contains name = true) :
    Matches g (s.addScope bindings) (s.nextScope :: env) (t :: Γ) := by
  refine ⟨h.enter fun name => (ht name).mp, ?_, ?_⟩
  · rintro _ _ ⟨⟩ name hname
    rw [Store.contains, top, List.headD_cons, Store.find?_addScope, if_pos rfl] at hname
    exact (ht name).mpr hname
  · rw [Store.size_addScope]
    exact Nat.lt_succ_self _

end Env

/-! ## Values -/

/-- The class that a value is or is an object of. -/
def Value.class? : Value → Option Class
  | .cls c => some c
  | .object o => some o.cls
  | _ => none

section Sound

variable (V : Visit → Prop) (g : ScopeId) (s : Store)

/-- A closure whose environment agrees with the scopes known where its function was visited. -/
def Closure.Sound (c : Closure) : Prop :=
  ∃ kind r, V ⟨.function kind c.decl, r⟩ ∧ Env.Agrees g s c.env r.scopes

/-- A method of a class: its environment lacks the scope that holds `this`. -/
def Closure.SoundUnbound (c : Closure) : Prop :=
  ∃ kind r Γ, V ⟨.function kind c.decl, r⟩ ∧ r.scopes = Resolver.synthetic "this" :: Γ ∧
    Env.Agrees g s c.env Γ

/-- A class all of whose methods are sound, the inherited ones too. -/
def Class.Sound (c : Class) : Prop :=
  ∀ b ∈ c.lineage, ∀ name m, b.methods.find? name = some m → m.SoundUnbound V g s

/-- A value that can reach only sound closures. -/
def Value.Sound : Value → Prop
  | .closure c => c.Sound V g s
  | .cls c => c.Sound V g s
  | .object o => o.cls.Sound V g s
  | _ => True

/-- A store that has the global scope and holds sound values only. -/
structure Store.Sound : Prop where
  globals_lt : g < s.scopes.size
  values : ∀ scope name v, s.find? scope name = some v → v.Sound V g s
  fields : ∀ id name v, s.field? id name = some v → v.Sound V g s

end Sound

section

variable {V V' : Visit → Prop} {g : ScopeId} {s s' : Store} {c : Class} {v : Value}

theorem Closure.Sound.mono {c : Closure} (h : c.Sound V g s) (hV : ∀ v, V v → V' v)
    (hs : s.Grows below s') : c.Sound V' g s' := by
  obtain ⟨kind, r, hv, hagrees⟩ := h
  exact ⟨kind, r, hV _ hv, hagrees.grows hs⟩

theorem Closure.SoundUnbound.mono {c : Closure} (h : c.SoundUnbound V g s) (hV : ∀ v, V v → V' v)
    (hs : s.Grows below s') : c.SoundUnbound V' g s' := by
  obtain ⟨kind, r, Γ, hv, hscopes, hagrees⟩ := h
  exact ⟨kind, r, Γ, hV _ hv, hscopes, hagrees.grows hs⟩

theorem Class.Sound.mono (h : c.Sound V g s) (hV : ∀ v, V v → V' v) (hs : s.Grows below s') :
    c.Sound V' g s' :=
  fun b hb name m hm => (h b hb name m hm).mono hV hs

theorem Class.Sound.grows (h : c.Sound V g s) (hs : s.Grows below s') : c.Sound V g s' :=
  h.mono (fun _ hv => hv) hs

/-- Sound values stay sound when the store changes and when more visits are known. -/
theorem Value.Sound.mono (h : v.Sound V g s) (hV : ∀ v, V v → V' v) (hs : s.Grows below s') :
    v.Sound V' g s' := by
  cases v with
  | closure c => exact Closure.Sound.mono h hV hs
  | cls c => exact Class.Sound.mono h hV hs
  | object o => exact Class.Sound.mono (c := o.cls) h hV hs
  | _ => trivial

theorem Value.Sound.grows (h : v.Sound V g s) (hs : s.Grows below s') : v.Sound V g s' :=
  h.mono (fun _ hv => hv) hs

theorem Class.Sound.findMethod? {m : Closure} (h : c.Sound V g s)
    (hm : c.findMethod? name = some m) : m.SoundUnbound V g s := by
  obtain ⟨b, hb, hfind⟩ := List.exists_of_findSome?_eq_some hm
  exact h b hb name m hfind

namespace Store.Sound

variable (h : s.Sound V g)

include h

/-- More visits make no value unsound. -/
theorem mono (hV : ∀ v, V v → V' v) : s.Sound V' g := by
  have hs : s.Grows 0 s := .refl
  exact ⟨h.globals_lt, fun scope name v hv => (h.values scope name v hv).mono hV hs,
    fun id name v hv => (h.fields id name v hv).mono hV hs⟩

/-- A change of variables after which each variable has a sound value. -/
theorem of_variables (hs : s.Grows below s') (hobjects : s'.objects = s.objects)
    (hvars : ∀ scope name v, s'.find? scope name = some v → s.find? scope name = some v ∨
      v.Sound V g s') :
    s'.Sound V g := by
  refine ⟨Nat.lt_of_lt_of_le h.globals_lt hs.size, fun scope name v hv => ?_,
    fun id name v hv => ?_⟩
  · rcases hvars scope name v hv with hold | hnew
    · exact (h.values scope name v hold).grows hs
    · exact hnew
  · rw [Store.field?, hobjects] at hv
    exact (h.fields id name v hv).grows hs

/-- Writing a sound value. -/
theorem put (hs : s.Grows below (s.put scope name v)) (hv : v.Sound V g (s.put scope name v)) :
    (s.put scope name v).Sound V g := by
  refine h.of_variables hs rfl fun other n w hw => ?_
  rcases of_find?_put hw with rfl | hw
  · exact .inr hv
  · exact .inl hw

/-- Declaring a variable with a sound value. -/
theorem define {env : Env} (hv : v.Sound V g (s.define env name v)) :
    (s.define env name v).Sound V g := by
  cases env with
  | nil => exact h
  | cons scope env => exact h.put (.define (scope :: env) name v) hv

/-- A new scope with sound values. -/
theorem addScope (hb : ∀ name v, bindings.find? name = some v → v.Sound V g s) :
    (s.addScope bindings).Sound V g := by
  have hs : s.Grows s.nextScope (s.addScope bindings) := .addScope bindings (Nat.le_refl _)
  refine h.of_variables hs rfl fun scope n w hw => ?_
  rcases of_find?_addScope hw with hw | hw
  · exact .inr ((hb n w hw).grows hs)
  · exact .inl hw

/-- A change of identities only. -/
theorem of_eq (hscopes : s'.scopes = s.scopes) (hobjects : s'.objects = s.objects) :
    s'.Sound V g := by
  have hs : s.Grows 0 s' := .of_scopes hscopes
  refine h.of_variables hs hobjects fun scope name v hv => .inl ?_
  rw [find?, hscopes] at hv
  exact hv

/-- A new object has no fields. -/
theorem addObject : s.addObject.Sound V g := by
  have hs : s.Grows 0 s.addObject := .of_scopes rfl
  refine ⟨h.globals_lt, fun scope name v hv => (h.values scope name v hv).grows hs,
    fun id name v hv => ?_⟩
  rw [field?_addObject] at hv
  exact (h.fields id name v hv).grows hs

theorem setField {id : ObjectId} (hv : v.Sound V g s) : (s.setField id name v).Sound V g := by
  have hs : s.Grows 0 (s.setField id name v) := .of_scopes rfl
  refine ⟨h.globals_lt, fun scope n w hw => (h.values scope n w hw).grows hs,
    fun other n w hw => ?_⟩
  rcases of_field?_setField hw with rfl | hw
  · exact hv.grows hs
  · exact (h.fields other n w hw).grows hs

end Store.Sound

end

end Lox
