import Lox.Proofs.Heap.Links
import Lox.Proofs.Text.Utf8

/-!
# The scopes of a history

An interpreter lives on from one execution to the next. In between, programs are resolved and
distances recorded, which may be right or wrong, and executions may end in faults (`Machine.Next`).
In every state that this leads to, and within executions too, the environments that anything refers
to are chains of links that end in the global scope, links stay what they are from one state to all
later ones, and lineages of classes lead to older classes (`Machine.scopes_stay_linked`). So looking
for variables and methods always comes to an end.
-/

namespace Lox

variable {v : Value}

/-! ## What a machine holds and refers to -/

/-- The environments that a value refers to: that of a closure, and those of the methods of its
class. -/
inductive Value.Refers : Value → Env → Prop where
  | closure (c : Closure) : Refers (.closure c) c.env
  | method {v : Value} {c : Class} {b : ClassBody} {name : String} {method : Closure}
      (hc : v.class? = some c) (hb : b ∈ c.lineage) (hm : b.methods.find? name = some method) :
      Refers v method.env

namespace Machine

/-- The environments that a machine refers to: the one it is in, those it goes back to, and those of
its values. -/
inductive Refers (m : Machine) : Env → Prop where
  | current : Refers m m.state.env
  | leave {env : Env} (h : .leave env ∈ m.frames) : Refers m env
  | value {v : Value} {env : Env} (hv : m.Holds v) (h : v.Refers env) : Refers m env

/-- The classes of the values that a machine holds. -/
def HoldsClass (m : Machine) (c : Class) : Prop :=
  ∃ v, m.Holds v ∧ v.class? = some c

end Machine

variable {L : Links}

theorem Value.Linked.class (h : v.Linked L) {c : Class} (hc : v.class? = some c) : c.Linked L := by
  cases v with
  | cls c => cases hc; exact h
  | object o => cases hc; exact h
  | _ => cases hc

/-- The environments that a value refers to are linked. -/
theorem Value.Linked.refers (h : v.Linked L) {env : Env} (hr : v.Refers env) : L.Linked env := by
  cases hr with
  | closure c => exact h
  | method hc hb hm => exact (h.class hc).methods _ hb _ _ hm

namespace Machine

variable {m : Machine}

theorem linked_of_refers (h : Links.carrying.OfMachine L m) {env : Env} (hr : m.Refers env) :
    L.Linked env := by
  cases hr with
  | current => exact h.state.env
  | leave hf => exact h.frames _ hf
  | value hv hr => exact Value.Linked.refers (h.holds hv) hr

/-! ## Histories -/

/-- What may come next: a step, or, once there is a result, another statement or expression, a
program to be resolved, or a distance to be recorded. -/
inductive Next (m : Machine) : Machine → Prop where
  | step : Next m m.step
  | execute (h : m.isDone = true) (s : Stmt) : Next m ⟨.exec s, [], m.state⟩
  | evaluate (h : m.isDone = true) (e : Expr) : Next m ⟨.eval e, [], m.state⟩
  | resolve (h : m.isDone = true) (program : List Stmt) :
      Next m ⟨m.control, m.frames, (m.state.resolve program).2⟩
  | record (h : m.isDone = true) (id : NodeId) (distance : Nat) :
      Next m ⟨m.control, m.frames, m.state.recordDistance id distance⟩

/-- One machine leads to another. -/
abbrev Leads : Machine → Machine → Prop :=
  Relation.ReflTransGen Next

/-- A machine before anything has run. -/
def start (natives : List Native) (output : Output) (maxCallDepth : Nat) (clock : Nat → Float) :
    Machine :=
  ⟨.flow .normal, [], .new natives output maxCallDepth clock⟩

theorem leads_run (budget : Nat) (m : Machine) : Leads m (run budget m) := by
  induction budget generalizing m with
  | zero => exact .refl
  | succ budget ih =>
    rw [run]
    split
    · exact .refl
    · exact .head .step (ih m.step)

theorem next_linked {m' : Machine} (h : Links.carrying.OfMachine L m) (hm : m.Next m') :
    Links.carrying.Follows L m' := by
  -- Distances are not looked at.
  have hplace (D : Distances) : Links.carrying.OfState L { m.state with distances := D } :=
    ⟨h.state.store, h.state.env, h.state.bindings, h.state.fields⟩
  cases hm with
  | step => exact Links.step h
  | execute hdone s => exact .now h.state (List.forall_mem_nil _) trivial
  | evaluate hdone e => exact .now h.state (List.forall_mem_nil _) trivial
  | resolve hdone program => exact .now (hplace _) h.frames h.control
  | record hdone id distance => exact .now (hplace _) h.frames h.control

/-- Whatever happens, a machine stays linked. -/
theorem leads_linked {m' : Machine} (h : Links.carrying.OfMachine L m) (hm : m.Leads m') :
    Links.carrying.Follows L m' := by
  induction hm with
  | refl => exact ⟨L, .refl L, h⟩
  | tail _ hnext ih =>
    obtain ⟨L', hL, hlinked⟩ := ih
    exact (next_linked hlinked hnext).later hL

/-- At the start there is the global scope, which stands in no environment. -/
theorem start_linked (natives : List Native) (output : Output) (maxCallDepth : Nat)
    (clock : Nat → Float) :
    Links.carrying.OfMachine ⟨[[]], 0⟩ (start natives output maxCallDepth clock) := by
  have hformed : Links.Formed ⟨[[]], 0⟩ 0 := by
    refine ⟨rfl, fun i hi => ?_, fun i j env hi => ?_⟩
    · cases i with
      | zero => rfl
      | succ i => cases hi
    · cases i with
      | zero => cases hi
      | succ i => cases hi
  exact ⟨trivial, List.forall_mem_nil _, Carrying.ofState_new ⟨hformed, rfl, rfl⟩ rfl⟩

/-- **The heap of scopes stays well founded.** Take a state of a history and a later one. Then each
scope has a link to an older one, or none, such that in both states every environment that is
referred to is the chain of links from its innermost scope to the global one, which is the same in
both. Looking for a variable along the links comes to an end, and so does looking for a method: the
lineage of a class leads to older and older classes. -/
theorem scopes_stay_linked (natives : List Native) (output : Output) (maxCallDepth : Nat)
    (clock : Nat → Float) {m m' : Machine} (h : (start natives output maxCallDepth clock).Leads m)
    (h' : m.Leads m') :
    m'.state.globals = m.state.globals ∧
    ∃ link : ScopeId → Option ScopeId, (∀ i j, link i = some j → j < i) ∧
      (∀ env, m.Refers env ∨ m'.Refers env →
        Chain link m.state.globals env ∧ ∀ i ∈ env, i < m'.state.store.nextScope) ∧
      (∀ i env, m'.Refers (i :: env) → WalksEnd link m'.state.store i (i :: env)) ∧
      ∀ c, m'.HoldsClass c → (c.lineage.Pairwise fun b b' => b'.identity < b.identity) ∧
        ∀ name, c.Search name (c.findMethod? name) := by
  obtain ⟨L, -, hm⟩ := leads_linked (start_linked natives output maxCallDepth clock) h
  obtain ⟨L', hL, hm'⟩ := leads_linked hm h'
  have hformed : L'.Formed m'.state.globals := hm'.state.store.formed
  have hglobals : m'.state.globals = m.state.globals :=
    (hformed.eq_globals _ (hL.outer_eq hm.state.store.formed.globals)).symm
  have hlinked : ∀ env, m.Refers env ∨ m'.Refers env → L'.Linked env := by
    rintro env (hr | hr)
    · exact (linked_of_refers hm hr).mono hL
    · exact linked_of_refers hm' hr
  have hchain {env : Env} (henv : L'.Linked env) : Chain L'.link m.state.globals env :=
    hglobals ▸ Links.chain hformed henv
  refine ⟨hglobals, L'.link, fun i j => Links.link_lt hformed,
    fun env hr => ⟨hchain (hlinked env hr), ?_⟩,
    fun i env hr => (hchain (hlinked _ (.inr hr))).walksEnd _, ?_⟩
  · exact hm'.state.store.scopes ▸ (hlinked env hr).lt hformed
  · rintro c ⟨v, hv, hc⟩
    exact ⟨(Value.Linked.class (hm'.holds hv) hc).older, c.search⟩

/-- The statement `{ class A { m() {} } class B < A {} var f = B().m; f.x; }`, which ends in a
fault. -/
def kinship : Stmt :=
  (Parse.ofTokens (Scan.ofSource
    ("\x7b class A \x7b m() \x7b\x7d \x7d class B < A \x7b\x7d " ++
      "var f = B().m; f.x; \x7d").toUTF8.toList).tokens 0).program.headD (.block [])

/-- The machine some steps into this statement, after it was resolved. -/
def kinshipAfter (steps : Nat) : Machine :=
  run steps ⟨.exec kinship, [], ((Interpreter.new [] .unlimited 9 fun _ => 0).resolve [kinship]).2⟩

/-- In the middle of the block and at its end: the method that it has bound refers to the scope of
its object, which stands in the block, which stands in the global scope; and the class of the object
has two bodies. -/
theorem kinship_linked : ∃ c, (start [] .unlimited 9 fun _ => 0).Leads (kinshipAfter 10) ∧
    (kinshipAfter 10).Leads (run 20 (kinshipAfter 10)) ∧ (run 20 (kinshipAfter 10)).isDone = true ∧
    (run 20 (kinshipAfter 10)).Refers [3, 1, 0] ∧ (run 20 (kinshipAfter 10)).HoldsClass c ∧
      c.lineage.length = 2 ∧
    (c.lineage.Pairwise fun b b' => b'.identity < b.identity) ∧
    ∃ link : ScopeId → Option ScopeId, link 3 = some 1 ∧ link 1 = some 0 ∧ link 0 = none ∧
      WalksEnd link (run 20 (kinshipAfter 10)).state.store 3 [3, 1, 0] := by
  have hm : (start [] .unlimited 9 fun _ => 0).Leads (kinshipAfter 10) :=
    .head (.resolve rfl [kinship]) (.head (.execute rfl kinship) (leads_run 10 _))
  obtain ⟨hdone, hglobals, hmethod, hclass⟩ : (run 20 (kinshipAfter 10)).isDone = true ∧
      (kinshipAfter 10).state.globals = 0 ∧
      (run 20 (kinshipAfter 10)).state.store.find? 1 "f" =
        some (.closure ⟨3, ⟨⟨.identifier, "m", 1⟩, [], []⟩, [3, 1, 0], false⟩) ∧
      (((run 20 (kinshipAfter 10)).state.store.find? 1 "B").bind Value.class?).map
        (fun c => c.lineage.length) = some 2 := by
    rw [kinshipAfter, kinship, ← Utf8.encode, Utf8.encode_eq]
    cbv
    exact ⟨rfl, trivial⟩
  obtain ⟨c, hc, hlength⟩ := Option.map_eq_some_iff.mp hclass
  obtain ⟨v, hv, hc⟩ := Option.bind_eq_some_iff.mp hc
  have hholds : (run 20 (kinshipAfter 10)).HoldsClass c := ⟨v, .variable hv, hc⟩
  have hrefers : (run 20 (kinshipAfter 10)).Refers [3, 1, 0] :=
    .value (.variable hmethod) (.closure _)
  obtain ⟨-, link, -, hchain, hwalks, hclasses⟩ :=
    scopes_stay_linked [] .unlimited 9 (fun _ => 0) hm (leads_run 20 (kinshipAfter 10))
  rw [hglobals] at hchain
  obtain ⟨hthis, hblock, hlast⟩ : link 3 = some 1 ∧ link 1 = some 0 ∧ link 0 = none := by
    rcases hchain _ (.inr hrefers) with ⟨_ | ⟨hthis, _ | ⟨hblock, hlast | _⟩⟩, -⟩
    exact ⟨hthis, hblock, hlast⟩
  exact ⟨c, hm, leads_run 20 _, hdone, hrefers, hholds, hlength, (hclasses c hholds).1, link, hthis,
    hblock, hlast, hwalks 3 [1, 0] hrefers⟩

end Machine

end Lox
