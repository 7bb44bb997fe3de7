import Lox.Proofs.Heap.Links

/-!
# Forests of environments

Environments are made on their own or one inside another, and all those made inside one share its
scope. A `Forest` holds environments in the order in which they were made, so that the number of an
environment is the number of its innermost scope, and `Forest.Made` says which forests there are.

The environment that another one stands in is its parent, and reading and writing are walks along
parents: a search for the nearest environment that binds a name (`Forest.Nearest`), or a climb over
a number of parents. So it can be said which environments see what was written
(`Forest.shared_scope_laws`): those from which the search leads to the scope that was written, and
no others.
-/

namespace Lox

variable {i : ScopeId} {name : String} {r r' : Option ScopeId}

/-! ## Writing and searching -/

namespace Store

variable {s : Store} {scope : ScopeId} {name : String}

/-- Writing a variable that is there changes its value only. -/
theorem find?_overwrite (h : s.contains scope name = true) (v : Value) (other : ScopeId)
    (m : String) :
    (s.put scope name v).find? other m = if other = scope ∧ m = name then some v
      else s.find? other m := by
  rw [find?_put]
  simp only [lt_of_contains h, and_true]

theorem binder?_overwrite (h : s.contains scope name = true) (v : Value) (env : Env) (m : String) :
    (s.put scope name v).binder? env m = s.binder? env m := by
  have hcontains (i : ScopeId) : (s.put scope name v).contains i m = s.contains i m := by
    rw [contains, find?_overwrite h]
    split
    · next hsame => rw [hsame.1, hsame.2, h, Option.isSome_some]
    · rfl
  rw [binder?, binder?, funext hcontains]

/-- A variable that was written is seen where the search leads to its scope. -/
theorem get?_overwrite (h : s.contains scope name = true) (v : Value) (env : Env) (m : String) :
    (s.put scope name v).get? env m =
      if m = name ∧ s.binder? env name = some scope then some v else s.get? env m := by
  rw [get?_eq_bind, get?_eq_bind, binder?_overwrite h]
  by_cases hm : m = name
  · subst hm
    cases hb : s.binder? env m with
    | none => simp
    | some i => simp [find?_overwrite h]
  · simp [find?_overwrite h, hm]

/-- Other names keep their values. -/
theorem get?_put_of_ne (scope : ScopeId) {m : String} (h : m ≠ name) (v : Value) (env : Env) :
    (s.put scope name v).get? env m = s.get? env m := by
  have hfind (i : ScopeId) : (s.put scope name v).find? i m = s.find? i m := by
    rw [find?_put, if_neg fun hsame => h hsame.2.1]
  rw [get?, get?, funext hfind]

theorem get?_cons_eq (s : Store) (i : ScopeId) (env : Env) (name : String) :
    s.get? (i :: env) name = (s.find? i name).or (s.get? env name) := by
  rw [get?, List.findSome?_cons]
  cases s.find? i name <;> rfl

end Store

namespace Search

variable {link : ScopeId → Option ScopeId} {s : Store} {name : String} {i : ScopeId}

/-- A search comes to one thing only. -/
theorem det (h : Search link s name i r) (h' : Search link s name i r') : r = r' := by
  induction h with
  | here hc =>
    cases h' with
    | here => rfl
    | nowhere hn => rw [hc] at hn; cases hn
    | outwards hn => rw [hc] at hn; cases hn
  | nowhere hn hl =>
    cases h' with
    | here hc => rw [hc] at hn; cases hn
    | nowhere => rfl
    | outwards _ hl' => rw [hl] at hl'; cases hl'
  | outwards hn hl _ ih =>
    cases h' with
    | here hc => rw [hc] at hn; cases hn
    | nowhere _ hl' => rw [hl] at hl'; cases hl'
    | outwards _ hl' hs =>
      cases hl.symm.trans hl'
      exact ih hs

end Search

theorem Climb.det {link : ScopeId → Option ScopeId} {d : Nat} (h : Climb link d i r)
    (h' : Climb link d i r') : r = r' := by
  induction h with
  | here =>
    cases h'
    rfl
  | «over» hl =>
    cases h' with
    | «over» => rfl
    | outwards hl' => rw [hl] at hl'; cases hl'
  | outwards hl _ ih =>
    cases h' with
    | «over» hl' => rw [hl] at hl'; cases hl'
    | outwards hl' hc =>
      cases hl.symm.trans hl'
      exact ih hc

/-- The walk along links from a scope comes to the scope `i` before it comes to another one that has
a variable. -/
inductive Unshadowed (link : ScopeId → Option ScopeId) (s : Store) (name : String) (i : ScopeId) :
    ScopeId → Prop where
  | here : Unshadowed link s name i i
  | outwards {j k : ScopeId} (h : s.contains j name = false) (hl : link j = some k)
      (hu : Unshadowed link s name i k) : Unshadowed link s name i j

namespace Chain

variable {link : ScopeId → Option ScopeId} {g i j : ScopeId} {env : Env} {s : Store}

/-- After a variable was declared in the scope `i`, it is found from where the walk comes to `i`
first. -/
theorem get?_put_of_unshadowed (h : Chain link g (j :: env)) (hi : i < s.scopes.size) (v : Value)
    (hu : Unshadowed link s name i j) : (s.put i name v).get? (j :: env) name = some v := by
  induction env generalizing j with
  | nil =>
    cases h with
    | globals hl =>
      cases hu with
      | here => simp [Store.get?_cons_eq, Store.find?_put, hi]
      | outwards _ hl' => rw [hl] at hl'; cases hl'
  | cons k env ih =>
    cases h with
    | inside hl htail =>
      rw [Store.get?_cons_eq, Store.find?_put]
      cases hu with
      | here => simp [hi]
      | outwards hn hl' hu =>
        cases hl.symm.trans hl'
        by_cases hj : j = i
        · simp [hj, hi]
        · have hnone := Option.not_isSome_iff_eq_none.mp (Bool.eq_false_iff.mp hn)
          simp only [hj, false_and, if_false, hnone, Option.none_or]
          exact ih htail hu

/-- From elsewhere the variable is what it was. -/
theorem get?_put_of_shadowed (h : Chain link g (j :: env)) (v : Value)
    (hu : ¬ Unshadowed link s name i j) :
    (s.put i name v).get? (j :: env) name = s.get? (j :: env) name := by
  have hne {j : ScopeId} (hu : ¬ Unshadowed link s name i j) : j ≠ i := fun heq => hu (heq ▸ .here)
  have hfind {j : ScopeId} (hu : ¬ Unshadowed link s name i j) :
      (s.put i name v).find? j name = s.find? j name := by
    rw [Store.find?_put, if_neg fun hsame => hne hu hsame.1]
  induction env generalizing j with
  | nil => rw [Store.get?_cons_eq, Store.get?_cons_eq, hfind hu]; rfl
  | cons k env ih =>
    cases h with
    | inside hl htail =>
      rw [Store.get?_cons_eq, Store.get?_cons_eq _ j, hfind hu]
      cases hv : s.find? j name with
      | some w => rfl
      | none =>
        have hn : s.contains j name = false := by rw [Store.contains, hv]; rfl
        rw [Option.none_or, Option.none_or]
        exact ih htail fun hk => hu (.outwards hn hl hk)

end Chain

/-! ## Forests -/

/-- Environments in the order in which they were made, over one store. -/
structure Forest where
  envs : List Env
  store : Store

namespace Forest

/-- What can be done with the environments of a forest. -/
inductive Action where
  /-- Make an environment on its own. -/
  | root
  /-- Make an environment inside another one. -/
  | child (i : ScopeId)
  | define (i : ScopeId) (name : String) (v : Value)
  | get (i : ScopeId) (name : String)
  | assign (i : ScopeId) (name : String) (v : Value)
  | getAt (i : ScopeId) (distance : Nat) (name : String)
  | assignAt (i : ScopeId) (distance : Nat) (name : String) (v : Value)

/-- The environment that an environment was made inside of. -/
def parent? (F : Forest) (i : ScopeId) : Option ScopeId :=
  F.envs[i]?.bind fun env => env.tail.head?

/-- The forest with another store. -/
def withStore (F : Forest) (s : Store) : Forest :=
  ⟨F.envs, s⟩

/-- Adds an environment whose outer scopes are given. -/
def add (F : Forest) (outer : Env) : Forest :=
  ⟨F.envs ++ [F.store.nextScope :: outer], F.store.addScope ∅⟩

/-- Declares a variable in an environment. -/
def define (F : Forest) (i : ScopeId) (name : String) (v : Value) : Forest :=
  F.withStore (F.store.define (F.envs[i]?.getD []) name v)

/-- The value of a variable, searched from an environment outwards. -/
def get? (F : Forest) (i : ScopeId) (name : String) : Option Value :=
  F.store.get? (F.envs[i]?.getD []) name

/-- The value of a variable in the environment some steps out. -/
def getAt? (F : Forest) (i : ScopeId) (distance : Nat) (name : String) : Option Value :=
  F.store.getAt? (F.envs[i]?.getD []) distance name

/-- Changes a variable, searched from an environment outwards. -/
def assign? (F : Forest) (i : ScopeId) (name : String) (v : Value) : Option Forest :=
  (F.store.assign? (F.envs[i]?.getD []) name v).map F.withStore

/-- Changes a variable in the environment some steps out. -/
def assignAt? (F : Forest) (i : ScopeId) (distance : Nat) (name : String) (v : Value) :
    Option Forest :=
  (F.store.assignAt? (F.envs[i]?.getD []) distance name v).map F.withStore

/-- Whether an action succeeds, and the forest after it. -/
def perform (F : Forest) : Action → Bool × Forest
  | .root => (true, F.add [])
  | .child i =>
    match F.envs[i]? with
    | some env => (true, F.add env)
    | none => (false, F)
  | .define i name v => (true, F.define i name v)
  | .get i name => ((F.get? i name).isSome, F)
  | .assign i name v => ((F.assign? i name v).isSome, (F.assign? i name v).getD F)
  | .getAt i distance name => ((F.getAt? i distance name).isSome, F)
  | .assignAt i distance name v =>
    ((F.assignAt? i distance name v).isSome, (F.assignAt? i distance name v).getD F)

/-- The forests that actions can lead to. -/
inductive Made : Forest → Prop where
  | empty : Made ⟨[], .empty⟩
  | perform {F : Forest} (h : Made F) (a : Action) : Made (F.perform a).2

/-- The environment `k` is the nearest one that binds a name, from the environment `i` outwards. -/
abbrev Nearest (F : Forest) (name : String) (i k : ScopeId) : Prop :=
  Search F.parent? F.store name i (some k)

/-- Each environment has its own number as its innermost scope, and is around it an older
environment or none. -/
structure Formed (F : Forest) : Prop where
  size : F.envs.length = F.store.scopes.size
  inside : ∀ i env, F.envs[i]? = some env →
    env = [i] ∨ ∃ (j : ScopeId) (outer : Env), env = i :: outer ∧ F.envs[j]? = some outer ∧ j < i

variable {F : Forest}

theorem assign?_eq (F : Forest) (i : ScopeId) (name : String) (v : Value) : F.assign? i name v =
    (F.store.binder? (F.envs[i]?.getD []) name).map fun k =>
      F.withStore (F.store.put k name v) := by
  rw [assign?, Store.assign?]
  cases F.store.binder? (F.envs[i]?.getD []) name <;> rfl

theorem getAt?_eq (F : Forest) (i : ScopeId) (d : Nat) (name : String) : F.getAt? i d name =
    (F.envs[i]?.getD [])[d]?.bind fun k => F.store.find? k name := by
  rw [getAt?, Store.getAt?]
  cases (F.envs[i]?.getD [])[d]? <;> rfl

theorem assignAt?_eq (F : Forest) (i : ScopeId) (d : Nat) (name : String) (v : Value) :
    F.assignAt? i d name v = ((F.envs[i]?.getD [])[d]?.filter fun k => F.store.contains k name).map
      fun k => F.withStore (F.store.put k name v) := by
  rw [assignAt?, Store.assignAt?, Store.binderAt?]
  cases (F.envs[i]?.getD [])[d]? with
  | none => rfl
  | some k =>
    rw [Option.filter_some]
    dsimp only
    cases F.store.contains k name <;> rfl

/-! ## What actions keep -/

theorem Formed.withStore (h : F.Formed) {s : Store} (hs : s.scopes.size = F.store.scopes.size) :
    (F.withStore s).Formed :=
  ⟨h.size.trans hs.symm, h.inside⟩

theorem Formed.add (h : F.Formed) {outer : Env}
    (houter : outer = [] ∨ ∃ j : ScopeId, F.envs[j]? = some outer) : (F.add outer).Formed := by
  have hold {i : ScopeId} {env : Env} (hi : F.envs[i]? = some env) : (F.add outer).envs[i]? =
      some env := by
    rw [Forest.add, List.getElem?_append_left (List.getElem?_eq_some_iff.mp hi).1, hi]
  refine ⟨?_, fun i env hi => ?_⟩
  · rw [Forest.add, List.length_append, h.size, Store.size_addScope]
    rfl
  · rcases getElem?_concat_cases hi with hi | ⟨rfl, rfl⟩
    · rcases h.inside i env hi with hroot | ⟨j, outer', heq, hj, hlt⟩
      · exact .inl hroot
      · exact .inr ⟨j, outer', heq, hold hj, hlt⟩
    · -- The new environment has the number of the new scope.
      have hsize : F.store.nextScope = F.envs.length := h.size.symm
      rw [hsize]
      rcases houter with rfl | ⟨j, hj⟩
      · exact .inl rfl
      · exact .inr ⟨j, outer, rfl, hold hj, (List.getElem?_eq_some_iff.mp hj).1⟩

theorem Formed.perform (h : F.Formed) (a : Action) : (F.perform a).2.Formed := by
  have hwrite (k? : Option ScopeId) (name : String) (v : Value) :
      ((k?.map fun k => F.withStore (F.store.put k name v)).getD F).Formed := by
    cases k? with
    | none => exact h
    | some k => exact h.withStore (Store.size_put ..)
  cases a with
  | root => exact h.add (.inl rfl)
  | child i =>
    rw [Forest.perform]
    split
    · next henv => exact h.add (.inr ⟨i, henv⟩)
    · exact h
  | define i name v =>
    refine h.withStore ?_
    unfold Store.define
    split
    · exact Store.size_put ..
    · rfl
  | get i name => exact h
  | assign i name v =>
    rw [Forest.perform, assign?_eq]
    exact hwrite _ name v
  | getAt i d name => exact h
  | assignAt i d name v =>
    rw [Forest.perform, assignAt?_eq]
    exact hwrite _ name v

theorem Made.formed (h : F.Made) : F.Formed := by
  induction h with
  | empty => exact ⟨rfl, fun i env hi => by cases hi⟩
  | perform _ a ih => exact ih.perform a

/-- An environment is the chain from it over its parents. -/
theorem Formed.chain (h : F.Formed) {env : Env} (hi : F.envs[i]? = some env) :
    ∃ g outer, env = i :: outer ∧ Chain F.parent? g (i :: outer) := by
  induction i using Nat.strongRecOn generalizing env with
  | ind i ih =>
    rcases h.inside i env hi with rfl | ⟨j, outer, rfl, hj, hlt⟩
    · refine ⟨i, [], rfl, .globals ?_⟩
      rw [parent?, hi]
      rfl
    · obtain ⟨g, rest, rfl, hchain⟩ := ih j hlt hj
      refine ⟨g, j :: rest, rfl, .inside ?_ hchain⟩
      rw [parent?, hi]
      rfl

/-! ## The laws -/

/-- The search along parents leads to the innermost scope of the environment that has the
variable. -/
theorem Formed.nearest_iff (h : F.Formed) (name : String) (i k : ScopeId) :
    F.Nearest name i k ↔ F.store.binder? (F.envs[i]?.getD []) name = some k := by
  cases hi : F.envs[i]? with
  | some env =>
    obtain ⟨g, outer, rfl, hchain⟩ := h.chain hi
    have hsearch := hchain.search F.store name
    rw [Option.getD_some]
    exact ⟨fun hk => hsearch.det hk, fun hk => by rwa [hk] at hsearch⟩
  | none =>
    -- There is no such environment, so nothing is bound in it and it has no parent.
    have hnone : F.store.contains i name = false := by
      refine Bool.eq_false_iff.mpr fun hc => ?_
      have hlt := Store.lt_of_contains hc
      rw [← h.size] at hlt
      exact absurd (List.getElem?_eq_none_iff.mp hi) (Nat.not_le.mpr hlt)
    have hsearch : Search F.parent? F.store name i none := .nowhere hnone (by rw [parent?, hi]; rfl)
    constructor
    · intro hk
      cases hsearch.det hk
    · intro hk
      cases hk

/-- An assignment succeeds where reading does. -/
theorem isSome_assign? (F : Forest) (i : ScopeId) (name : String) (v : Value) :
    (F.assign? i name v).isSome = (F.get? i name).isSome := by
  rw [assign?_eq, get?, Store.get?_eq_bind]
  cases hb : F.store.binder? (F.envs[i]?.getD []) name with
  | none => rfl
  | some k => exact (Interpreter.contains_of_binder? hb).symm

/-- An assignment is seen by the environments from which the search leads to the same scope. -/
theorem Formed.get?_of_assign? (h : F.Formed) {v : Value} {F' : Forest}
    (hF : F.assign? i name v = some F') :
    F'.envs = F.envs ∧ ∃ k, F.Nearest name i k ∧
      ∀ j m, (m = name ∧ F.Nearest name j k → F'.get? j m = some v) ∧
        (¬ (m = name ∧ F.Nearest name j k) → F'.get? j m = F.get? j m) := by
  rw [assign?_eq] at hF
  obtain ⟨k, hk, rfl⟩ := Option.map_eq_some_iff.mp hF
  refine ⟨rfl, k, (h.nearest_iff name i k).mpr hk, fun j m => ?_⟩
  have hget : (F.withStore (F.store.put k name v)).get? j m = _ :=
    Store.get?_overwrite (Interpreter.contains_of_binder? hk) v (F.envs[j]?.getD []) m
  rw [h.nearest_iff name j k]
  exact ⟨fun hseen => hget.trans (if_pos hseen), fun hunseen => hget.trans (if_neg hunseen)⟩

/-- An assignment at a distance succeeds where reading at that distance does. -/
theorem isSome_assignAt? (F : Forest) (i : ScopeId) (d : Nat) (name : String) (v : Value) :
    (F.assignAt? i d name v).isSome = (F.getAt? i d name).isSome := by
  rw [assignAt?_eq, getAt?_eq]
  cases (F.envs[i]?.getD [])[d]? with
  | none => rfl
  | some k =>
    rw [Option.isSome_map, Option.filter_some, Option.bind_some, Store.contains]
    cases F.store.find? k name <;> rfl

/-- An assignment at a distance succeeds if there is an environment at that distance and it binds
the name, and changes this one binding. -/
theorem Formed.assignAt?_eq_some (h : F.Formed) (hi : i < F.envs.length) {d : Nat} {v : Value} :
    ((F.assignAt? i d name v).isSome = true ↔
        ∃ k, Climb F.parent? d i (some k) ∧ F.store.contains k name = true) ∧
      ∀ F', F.assignAt? i d name v = some F' → F'.envs = F.envs ∧
        ∃ k, Climb F.parent? d i (some k) ∧
          ∀ j m, F'.store.find? j m = if j = k ∧ m = name then some v else F.store.find? j m := by
  obtain ⟨env, henv⟩ : ∃ env, F.envs[i]? = some env := ⟨_, List.getElem?_eq_getElem hi⟩
  obtain ⟨g, outer, rfl, hchain⟩ := h.chain henv
  have hclimb := hchain.climb d
  rw [assignAt?_eq, henv, Option.getD_some]
  refine ⟨⟨fun hsome => ?_, ?_⟩, fun F' hF => ?_⟩
  · rw [Option.isSome_map, Option.isSome_filter] at hsome
    cases hd : (i :: outer)[d]? with
    | none => rw [hd] at hsome; cases hsome
    | some k =>
      rw [hd] at hclimb hsome
      exact ⟨k, hclimb, hsome⟩
  · rintro ⟨k, hk, hc⟩
    rw [hclimb.det hk, Option.filter_some, if_pos hc]
    rfl
  · obtain ⟨k, hk, rfl⟩ := Option.map_eq_some_iff.mp hF
    obtain ⟨hd, hc⟩ := Option.filter_eq_some_iff.mp hk
    rw [hd] at hclimb
    exact ⟨rfl, k, hclimb, Store.find?_overwrite hc v⟩

/-- A declaration is seen by the environments from which the walk outwards comes to it before
another one. -/
theorem Formed.get?_define (h : F.Formed) (hi : i < F.envs.length) (name : String) (v : Value)
    (j : ScopeId) (m : String) :
    (m = name ∧ Unshadowed F.parent? F.store name i j → (F.define i name v).get? j m = some v) ∧
    (¬ (m = name ∧ Unshadowed F.parent? F.store name i j) →
      (F.define i name v).get? j m = F.get? j m) := by
  obtain ⟨env, henv⟩ : ∃ env, F.envs[i]? = some env := ⟨_, List.getElem?_eq_getElem hi⟩
  obtain ⟨_, outer, rfl, -⟩ := h.chain henv
  have hput (k : ScopeId) (m : String) :
      (F.define i name v).get? k m = (F.store.put i name v).get? (F.envs[k]?.getD []) m := by
    rw [define, henv]
    rfl
  have hsize : i < F.store.scopes.size := h.size ▸ hi
  rw [hput]
  by_cases hm : m = name
  · subst hm
    cases hj : F.envs[j]? with
    | some env =>
      obtain ⟨g, rest, rfl, hchain⟩ := h.chain hj
      rw [get?, hj]
      refine ⟨fun hu => hchain.get?_put_of_unshadowed hsize v hu.2, fun hu => ?_⟩
      exact hchain.get?_put_of_shadowed v fun hu' => hu ⟨rfl, hu'⟩
    | none =>
      rw [get?, hj]
      refine ⟨fun hu => ?_, fun _ => rfl⟩
      -- From an environment that is not there, no walk leads to one that is.
      cases hu.2 with
      | here => rw [henv] at hj; cases hj
      | outwards _ hl => rw [parent?, hj] at hl; cases hl
  · exact ⟨fun hu => absurd hu.1 hm, fun _ => Store.get?_put_of_ne i hm v _⟩

theorem perform_of_failed {a : Action} (h : (F.perform a).1 = false) : (F.perform a).2 = F := by
  cases a with
  | root => cases h
  | child i =>
    rw [perform] at h ⊢
    split at h
    · cases h
    · rfl
  | define i name v => cases h
  | get i name => rfl
  | assign i name v =>
    have hnone : F.assign? i name v = none :=
      Option.not_isSome_iff_eq_none.mp (Bool.eq_false_iff.mp h)
    rw [perform, hnone, Option.getD_none]
  | getAt i d name => rfl
  | assignAt i d name v =>
    have hnone : F.assignAt? i d name v = none :=
      Option.not_isSome_iff_eq_none.mp (Bool.eq_false_iff.mp h)
    rw [perform, hnone, Option.getD_none]

/-- **Who sees what is written.** In every forest that can be made, for each of its environments
`i`:
* an assignment succeeds where reading does, and then just the environments from which the search
  leads to the same scope see the new value;
* an assignment at a distance succeeds where reading at this distance does, which is where the
  environment that many steps out is there and binds the name, and it changes this binding only;
* a declaration is seen by those from which the walk outwards comes to `i` before another
  environment that binds the name;
* what fails changes nothing. -/
theorem shared_scope_laws (hF : F.Made) {i : ScopeId} (hi : i < F.envs.length) (name : String)
    (v : Value) :
    ((F.assign? i name v).isSome = (F.get? i name).isSome ∧
      ∀ F', F.assign? i name v = some F' → F'.envs = F.envs ∧ ∃ k, F.Nearest name i k ∧
        ∀ j m, (m = name ∧ F.Nearest name j k → F'.get? j m = some v) ∧
          (¬ (m = name ∧ F.Nearest name j k) → F'.get? j m = F.get? j m)) ∧
    (∀ d, (F.assignAt? i d name v).isSome = (F.getAt? i d name).isSome ∧
      ((F.assignAt? i d name v).isSome = true ↔
        ∃ k, Climb F.parent? d i (some k) ∧ F.store.contains k name = true) ∧
      ∀ F', F.assignAt? i d name v = some F' → F'.envs = F.envs ∧
        ∃ k, Climb F.parent? d i (some k) ∧
          ∀ j m, F'.store.find? j m = if j = k ∧ m = name then some v else F.store.find? j m) ∧
    (∀ j m,
      (m = name ∧ Unshadowed F.parent? F.store name i j →
        (F.define i name v).get? j m = some v) ∧
      (¬ (m = name ∧ Unshadowed F.parent? F.store name i j) →
        (F.define i name v).get? j m = F.get? j m)) ∧
    ∀ a, (F.perform a).1 = false → (F.perform a).2 = F := by
  have hformed := hF.formed
  refine ⟨⟨F.isSome_assign? i name v, fun F' => hformed.get?_of_assign?⟩, fun d => ?_, ?_,
    fun a => perform_of_failed⟩
  · exact ⟨F.isSome_assignAt? i d name v, hformed.assignAt?_eq_some hi⟩
  · exact hformed.get?_define hi name v

/-- Two environments inside one that binds `a`; the first of them binds `a` too. -/
def siblings : Forest :=
  [.root, .define 0 "a" .nil, .child 0, .define 1 "a" (.bool true), .child 0].foldl
    (fun F a => (F.perform a).2) ⟨[], .empty⟩

/-- What is assigned through the second one is seen in the outer one and not in the first one, which
has its own `a`. What is declared in the outer one is seen from the second one. -/
theorem siblings_share_scope : siblings.Made ∧ 2 < siblings.envs.length ∧ 0 < siblings.envs.length ∧
    (∃ F', siblings.assign? 2 "a" (.bool false) = some F' ∧ F'.get? 0 "a" = some (.bool false) ∧
      F'.get? 1 "a" = siblings.get? 1 "a" ∧ siblings.get? 1 "a" = some (.bool true)) ∧
    (siblings.assignAt? 2 1 "a" (.bool false)).isSome = true ∧
    (siblings.define 0 "a" (.bool false)).get? 2 "a" = some (.bool false) := by
  have hmade : siblings.Made :=
    .perform (.perform (.perform (.perform (.perform .empty _) _) _) _) _
  -- The walks from the second environment lead to the outer one.
  have houter : siblings.Nearest "a" 0 0 := .here rfl
  have hsecond : siblings.Nearest "a" 2 0 := .outwards rfl rfl houter
  obtain ⟨⟨hsome, hassign⟩, hassignAt, -, -⟩ :=
    shared_scope_laws hmade (i := 2) (by decide) "a" (.bool false)
  obtain ⟨-, -, hdefine, -⟩ := shared_scope_laws hmade (i := 0) (by decide) "a" (.bool false)
  obtain ⟨F', hF⟩ := Option.isSome_iff_exists.mp hsome
  obtain ⟨-, k, hk, hseen⟩ := hassign F' hF
  cases hk.det hsecond
  refine ⟨hmade, by decide, by decide,
    ⟨F', hF, (hseen 0 "a").1 ⟨rfl, houter⟩, (hseen 1 "a").2 ?_, rfl⟩, ?_, ?_⟩
  · rintro ⟨-, hfirst⟩
    cases hfirst.det (.here rfl)
  · exact (hassignAt 1).2.1.mpr ⟨0, .outwards rfl .here, rfl⟩
  · exact (hdefine 2 "a").1 ⟨rfl, .outwards rfl rfl .here⟩

end Forest

end Lox
