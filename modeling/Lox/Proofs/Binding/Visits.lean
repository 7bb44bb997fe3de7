import Lox.Proofs.Binding.Effects

/-!
# Visits

The walk over a program comes to each node once, with what is known at that place. A `Visit` is a
node together with what is known when the walk comes to it, and `Visit.parts` are the visits that it
is made of, in order. `Within` says that a visit belongs to another one, at any depth.

What the walk knows passes through the parts one after the other (`Visit.lead_parts`). All that
holds of the parts follows from this: if the walk over a program breaks no rule and takes fresh ids,
then so does each visit in it (`Accepted.within`), and a node that holds an id is visited once only
(`Within.unique`).
-/

namespace Lox

open Resolver (Touches)

/-- A piece of a tree that the walk looks at. -/
inductive Node where
  | expr (e : Expr)
  | exprs (es : List Expr)
  | stmt (s : Stmt)
  | stmts (body : List Stmt)
  | function (kind : FunctionKind) (d : FunctionDecl)
  | methods (ds : List FunctionDecl)

namespace Node

/-- Looks at a piece of a tree. -/
def resolve : Node → Resolver → Resolver
  | .expr e => e.resolve
  | .exprs es => Expr.resolveAll es
  | .stmt s => s.resolve
  | .stmts body => Stmt.resolveAll body
  | .function kind d => Stmt.resolveFunction kind d
  | .methods ds => Stmt.resolveMethods ds

/-- The ids in a piece of a tree. -/
def ids : Node → List NodeId
  | .expr e => e.ids
  | .exprs es => Expr.idsAll es
  | .stmt s => s.ids
  | .stmts body => Stmt.idsAll body
  | .function _ d => Stmt.functionIds d
  | .methods ds => Stmt.methodIds ds

/-- The id of the node at the root. -/
def ownIds : Node → List NodeId
  | .expr e => e.id?.toList
  | _ => []

/-- A piece of a tree that can come from a source. -/
def Formed : Node → Prop
  | .expr e => e.Formed
  | .exprs es => Expr.FormedAll es
  | .stmt s => s.Formed
  | .stmts body => Stmt.FormedAll body
  | .function _ d => Stmt.FormedFunction d
  | .methods ds => Stmt.FormedMethods ds

/-- The size of a piece of a tree. -/
noncomputable def size : Node → Nat
  | .expr e => sizeOf e
  | .exprs es => sizeOf es
  | .stmt s => sizeOf s
  | .stmts body => sizeOf body
  | .function _ d => sizeOf d
  | .methods ds => sizeOf ds

theorem touches_resolve (n : Node) (r : Resolver) : Touches n.ids r (n.resolve r) := by
  cases n with
  | expr e => exact e.touches_resolve r
  | exprs es => exact Expr.touches_resolveAll es r
  | stmt s => exact s.touches_resolve r
  | stmts body => exact Stmt.touches_resolveAll body r
  | function kind d => exact Stmt.touches_resolveFunction kind d r
  | methods ds => exact Stmt.touches_resolveMethods ds r

end Node

/-- A piece of a tree, and what is known when the walk comes to it. -/
structure Visit where
  node : Node
  resolver : Resolver

/-- The visits that an expression is made of, in order. -/
def Expr.parts : Expr → Resolver → List Visit
  | .literal _, _ => []
  | .grouping inner, r => [⟨.expr inner, r⟩]
  | .unary _ right, r => [⟨.expr right, r⟩]
  | .binary left _ right, r => [⟨.expr left, r⟩, ⟨.expr right, left.resolve r⟩]
  | .logical left _ right, r => [⟨.expr left, r⟩, ⟨.expr right, left.resolve r⟩]
  | .variable _ _, _ => []
  | .assign _ _ value, r => [⟨.expr value, r⟩]
  | .call callee _ arguments, r => [⟨.expr callee, r⟩, ⟨.exprs arguments, callee.resolve r⟩]
  | .get object _, r => [⟨.expr object, r⟩]
  | .set object _ value, r => [⟨.expr value, r⟩, ⟨.expr object, value.resolve r⟩]
  | .thisRef _ _, _ => []
  | .superRef _ _ _, _ => []

/-- What is known after a `return` has been looked at, before its value. -/
def Resolver.atReturn (r : Resolver) (word : Token) (value : Option Expr) : Resolver :=
  let r := r.reportIf (r.functionKind == .none) word .returnAtTopLevel
  r.reportIf (value.isSome && r.functionKind == .initializer) word .returnFromInitializer

/-- The visits that a statement is made of, in order. -/
def Stmt.parts : Stmt → Resolver → List Visit
  | .expression value, r => [⟨.expr value, r⟩]
  | .print value, r => [⟨.expr value, r⟩]
  | .var _ none, _ => []
  | .var name (some value), r => [⟨.expr value, (r.declare name).beginInitializer name.lexeme⟩]
  | .block body, r => [⟨.stmts body, r.push ∅⟩]
  | .ifThen condition thenBranch, r =>
    [⟨.expr condition, r⟩, ⟨.stmt thenBranch, condition.resolve r⟩]
  | .ifThenElse condition thenBranch elseBranch, r =>
    [⟨.expr condition, r⟩, ⟨.stmt thenBranch, condition.resolve r⟩,
      ⟨.stmt elseBranch, thenBranch.resolve (condition.resolve r)⟩]
  | .whileLoop condition body, r => [⟨.expr condition, r⟩, ⟨.stmt body, condition.resolve r⟩]
  | .function decl, r => [⟨.function .function decl, (r.declare decl.name).define decl.name⟩]
  | .returnWith _ none, _ => []
  | .returnWith word (some value), r => [⟨.expr value, r.atReturn word (some value)⟩]
  | .classDef name none methods, r => [⟨.methods methods, r.enterClass name none⟩]
  | .classDef name (some superclass) methods, r =>
    [⟨.expr superclass, r.atSuperclass name superclass⟩,
      ⟨.methods methods, r.enterClass name (some superclass)⟩]

namespace Visit

/-- What is known when the walk leaves the node. -/
def after (v : Visit) : Resolver :=
  v.node.resolve v.resolver

/-- The visits that a visit is made of, in order. -/
def parts : Visit → List Visit
  | ⟨.expr e, r⟩ => e.parts r
  | ⟨.exprs [], _⟩ => []
  | ⟨.exprs (e :: rest), r⟩ => [⟨.expr e, r⟩, ⟨.exprs rest, e.resolve r⟩]
  | ⟨.stmt s, r⟩ => s.parts r
  | ⟨.stmts [], _⟩ => []
  | ⟨.stmts (s :: rest), r⟩ => [⟨.stmt s, r⟩, ⟨.stmts rest, s.resolve r⟩]
  | ⟨.function kind d, r⟩ => [⟨.stmts d.body, r.enterFunction kind d.params⟩]
  | ⟨.methods [], _⟩ => []
  | ⟨.methods (d :: rest), r⟩ =>
    [⟨.function (Resolver.methodKind d.name) d, r⟩,
      ⟨.methods rest, Stmt.resolveFunction (Resolver.methodKind d.name) d r⟩]

/-- The ids of visits. -/
def idsAll (ws : List Visit) : List NodeId :=
  ws.flatMap fun w => w.node.ids

/-! ## From part to part -/

/-- Visits in turn lead to `r'`, where the ids `own` are recorded after all of them. -/
inductive Lead (own : List NodeId) (r' : Resolver) : Resolver → List Visit → Prop where
  | done {r : Resolver} (h : Touches own r r') : Lead own r' r []
  | visit {r : Resolver} {w : Visit} {rest : List Visit} (h : Touches [] r w.resolver)
      (hrest : Lead own r' w.after rest) : Lead own r' r (w :: rest)

namespace Lead

variable {own : List NodeId} {r r' : Resolver} {w : Visit}

theorem touches {ws : List Visit} (h : Lead own r' r ws) : Touches (idsAll ws ++ own) r r' := by
  induction h with
  | done h => exact h
  | @visit r w rest h _ ih =>
    have hw := (h.before (w.node.touches_resolve w.resolver)).trans ih
    simpa only [idsAll, List.flatMap_cons, List.append_assoc] using hw

/-- What happens before and after one of the visits. -/
theorem split {before later : List Visit} (h : Lead own r' r (before ++ w :: later)) :
    Touches (idsAll before) r w.resolver ∧ Touches (idsAll later ++ own) w.after r' := by
  induction before generalizing r with
  | nil =>
    cases h with
    | visit h hrest => exact ⟨h, hrest.touches⟩
  | cons u rest ih =>
    cases h with
    | visit h hrest =>
      obtain ⟨hbefore, hlater⟩ := ih hrest
      exact ⟨(h.before (u.node.touches_resolve u.resolver)).trans hbefore, hlater⟩

end Lead

end Visit

theorem Expr.lead_parts (e : Expr) (r : Resolver) :
    Visit.Lead e.id?.toList (e.resolve r) r (e.parts r) := by
  cases e with
  | literal value => exact .done .refl
  | grouping inner => exact .visit .refl (.done .refl)
  | unary operator right => exact .visit .refl (.done .refl)
  | binary left operator right => exact .visit .refl (.visit .refl (.done .refl))
  | logical left operator right => exact .visit .refl (.visit .refl (.done .refl))
  | «variable» id name => exact .done (Expr.touches_resolve (.variable id name) r)
  | assign id name value => exact .visit .refl (.done (Resolver.touches_record _ id name.lexeme))
  | call callee paren arguments => exact .visit .refl (.visit .refl (.done .refl))
  | get object name => exact .visit .refl (.done .refl)
  | set object name value => exact .visit .refl (.visit .refl (.done .refl))
  | thisRef id word => exact .done (Expr.touches_resolve (.thisRef id word) r)
  | superRef id word method => exact .done (Expr.touches_resolve (.superRef id word method) r)

theorem Resolver.touches_atReturn (r : Resolver) (word : Token) (value : Option Expr) :
    Touches [] r (r.atReturn word value) :=
  (r.touches_reportIf _ word _).trans (touches_reportIf _ _ word _)

theorem Stmt.lead_parts (s : Stmt) (r : Resolver) : Visit.Lead [] (s.resolve r) r (s.parts r) := by
  cases s with
  | expression value => exact .visit .refl (.done .refl)
  | print value => exact .visit .refl (.done .refl)
  | var name initializer =>
    cases initializer with
    | none => exact .done (Stmt.touches_resolve (.var name none) r)
    | some value =>
      refine .visit
        ((r.touches_declare name).trans (Resolver.touches_beginInitializer _ name.lexeme))
        (.done ?_)
      exact (Resolver.touches_endInitializer _).trans (Resolver.touches_define _ name)
  | block body => exact .visit (r.touches_push ∅) (.done (Resolver.touches_pop _))
  | ifThen condition thenBranch => exact .visit .refl (.visit .refl (.done .refl))
  | ifThenElse condition thenBranch elseBranch =>
    exact .visit .refl (.visit .refl (.visit .refl (.done .refl)))
  | whileLoop condition body => exact .visit .refl (.visit .refl (.done .refl))
  | function decl =>
    exact .visit ((r.touches_declare decl.name).trans (Resolver.touches_define _ decl.name))
      (.done .refl)
  | returnWith word value =>
    cases value with
    | none => exact .done (r.touches_atReturn word none)
    | some value => exact .visit (r.touches_atReturn word (some value)) (.done .refl)
  | classDef name superclass methods =>
    cases superclass with
    | none =>
      exact .visit (r.touches_enterClass name none)
        (.done (Resolver.touches_leaveClass _ none r.classKind))
    | some e =>
      refine .visit (r.touches_atSuperclass name e) (.visit ?_ (.done ?_))
      · rw [Resolver.enterClass_some]
        exact (Resolver.touches_push _ _).trans (Resolver.touches_push _ _)
      · exact Resolver.touches_leaveClass _ (some e) r.classKind

namespace Visit

/-- What the walk knows passes through the parts of a visit one after the other. -/
theorem lead_parts (v : Visit) : Lead v.node.ownIds v.after v.resolver v.parts := by
  obtain ⟨node, r⟩ := v
  cases node with
  | expr e => exact e.lead_parts r
  | exprs es =>
    cases es with
    | nil => exact .done .refl
    | cons e rest => exact .visit .refl (.visit .refl (.done .refl))
  | stmt s => exact s.lead_parts r
  | stmts body =>
    cases body with
    | nil => exact .done .refl
    | cons s rest => exact .visit .refl (.visit .refl (.done .refl))
  | function kind d =>
    obtain ⟨name, params, body⟩ := d
    exact .visit (r.touches_enterFunction kind params)
      (.done (Resolver.touches_leaveFunction _ r.functionKind))
  | methods ds =>
    cases ds with
    | nil => exact .done .refl
    | cons d rest => exact .visit .refl (.visit .refl (.done .refl))

/-- The ids of a visit are those of its parts and its own. -/
theorem ids_perm (v : Visit) : (idsAll v.parts ++ v.node.ownIds).Perm v.node.ids := by
  obtain ⟨node, r⟩ := v
  cases node with
  | expr e =>
    cases e with
    | set object name value =>
      simpa [parts, Expr.parts, idsAll, Node.ids, Node.ownIds, Expr.id?, Expr.ids] using
        List.perm_append_comm
    | _ => simp [parts, Expr.parts, idsAll, Node.ids, Node.ownIds, Expr.id?, Expr.ids]
  | exprs es => cases es <;> simp [parts, idsAll, Node.ids, Node.ownIds, Expr.idsAll]
  | stmt s =>
    cases s with
    | var name initializer =>
      cases initializer <;>
        simp [parts, Stmt.parts, idsAll, Node.ids, Node.ownIds, Stmt.ids, Expr.ids?]
    | returnWith word value =>
      cases value <;> simp [parts, Stmt.parts, idsAll, Node.ids, Node.ownIds, Stmt.ids, Expr.ids?]
    | classDef name superclass methods =>
      cases superclass <;>
        simp [parts, Stmt.parts, idsAll, Node.ids, Node.ownIds, Stmt.ids, Expr.ids?]
    | _ => simp [parts, Stmt.parts, idsAll, Node.ids, Node.ownIds, Stmt.ids]
  | stmts body => cases body <;> simp [parts, idsAll, Node.ids, Node.ownIds, Stmt.idsAll]
  | function kind d =>
    obtain ⟨name, params, body⟩ := d
    simp [parts, idsAll, Node.ids, Node.ownIds, Stmt.functionIds]
  | methods ds => cases ds <;> simp [parts, idsAll, Node.ids, Node.ownIds, Stmt.methodIds]

/-- A part is smaller than the whole. -/
theorem size_part (v : Visit) : ∀ w ∈ v.parts, w.node.size < v.node.size := by
  obtain ⟨node, r⟩ := v
  cases node with
  | expr e => cases e <;> simp [parts, Expr.parts, Node.size] <;> omega
  | exprs es => cases es <;> simp [parts, Node.size]; omega
  | stmt s =>
    cases s with
    | var name initializer => cases initializer <;> simp [parts, Stmt.parts, Node.size]; omega
    | returnWith word value => cases value <;> simp [parts, Stmt.parts, Node.size]; omega
    | classDef name superclass methods =>
      cases superclass <;> simp [parts, Stmt.parts, Node.size]; omega
    | ifThen | ifThenElse | whileLoop => simp [parts, Stmt.parts, Node.size]; omega
    | _ => simp [parts, Stmt.parts, Node.size]
  | stmts body => cases body <;> simp [parts, Node.size]; omega
  | function kind d =>
    obtain ⟨name, params, body⟩ := d
    simp only [parts, Node.size, List.mem_singleton, forall_eq, FunctionDecl.mk.sizeOf_spec]
    omega
  | methods ds => cases ds <;> simp [parts, Node.size]; omega

/-- A part of a visit that can come from a source can do so too. -/
theorem formed_part (v : Visit) (h : v.node.Formed) : ∀ w ∈ v.parts, w.node.Formed := by
  obtain ⟨node, r⟩ := v
  cases node with
  | expr e => cases e <;> simp_all [parts, Expr.parts, Node.Formed, Expr.Formed]
  | exprs es => cases es <;> simp_all [parts, Node.Formed, Expr.FormedAll]
  | stmt s =>
    cases s with
    | var name initializer =>
      cases initializer <;> simp_all [parts, Stmt.parts, Node.Formed, Stmt.Formed, Expr.Formed?]
    | returnWith word value =>
      cases value <;> simp_all [parts, Stmt.parts, Node.Formed, Stmt.Formed, Expr.Formed?]
    | classDef name superclass methods =>
      cases superclass with
      | none => simp_all [parts, Stmt.parts, Node.Formed, Stmt.Formed]
      | some e =>
        obtain ⟨_, hvar, hmethods⟩ := h
        obtain ⟨id, superName, rfl⟩ := hvar e rfl
        simpa [parts, Stmt.parts, Node.Formed, Expr.Formed] using hmethods
    | _ => simp_all [parts, Stmt.parts, Node.Formed, Stmt.Formed]
  | stmts body => cases body <;> simp_all [parts, Node.Formed, Stmt.FormedAll]
  | function kind d =>
    obtain ⟨name, params, body⟩ := d
    simp_all [parts, Node.Formed, Stmt.FormedFunction]
  | methods ds => cases ds <;> simp_all [parts, Node.Formed, Stmt.FormedMethods]

/-! ## Visits at any depth -/

/-- A visit that belongs to another one. -/
inductive Within (root : Visit) : Visit → Prop where
  | refl : Within root root
  | part {v w : Visit} (h : Within root v) (hw : w ∈ v.parts) : Within root w

namespace Within

variable {root v w : Visit}

/-- The first step of the way down. -/
theorem cases_head (h : Within root v) : v = root ∨ ∃ w ∈ root.parts, Within w v := by
  induction h with
  | refl => exact .inl rfl
  | @part v w h hw ih =>
    rcases ih with rfl | ⟨u, hu, hv⟩
    · exact .inr ⟨w, hw, .refl⟩
    · exact .inr ⟨u, hu, hv.part hw⟩

theorem size_le (h : Within root v) : v.node.size ≤ root.node.size := by
  induction h with
  | refl => exact Nat.le_refl _
  | part _ hw ih => exact Nat.le_trans (Nat.le_of_lt (size_part _ _ hw)) ih

theorem mem_ids (h : Within root v) : ∀ id ∈ v.node.ids, id ∈ root.node.ids := by
  induction h with
  | refl => exact fun _ hid => hid
  | @part v w _ hw ih =>
    intro id hid
    refine ih id (v.ids_perm.mem_iff.mp ?_)
    exact List.mem_append_left _ (List.mem_flatMap.mpr ⟨w, hw, hid⟩)

end Within

/-- Visits of which no id occurs twice are told apart by their ids. -/
theorem eq_of_mem_idsAll {ws : List Visit} {u v : Visit} {id : NodeId} (hnodup : (idsAll ws).Nodup)
    (hu : u ∈ ws) (hv : v ∈ ws) (hid : id ∈ u.node.ids) (hid' : id ∈ v.node.ids) : u = v := by
  induction ws with
  | nil => cases hu
  | cons w rest ih =>
    have hsplit : (w.node.ids ++ idsAll rest).Nodup := hnodup
    obtain ⟨-, hrest, hdisjoint⟩ := List.nodup_append.mp hsplit
    have hmem {x : Visit} (hx : x ∈ rest) (hxid : id ∈ x.node.ids) : id ∈ idsAll rest :=
      List.mem_flatMap.mpr ⟨x, hx, hxid⟩
    rcases List.mem_cons.mp hu with rfl | hur <;> rcases List.mem_cons.mp hv with rfl | hvr
    · rfl
    · exact absurd rfl (hdisjoint id hid id (hmem hvr hid'))
    · exact absurd rfl (hdisjoint id hid' id (hmem hur hid))
    · exact ih hrest hur hvr

theorem nodup_idsAll_parts {v : Visit} (h : v.node.ids.Nodup) : (idsAll v.parts).Nodup :=
  (List.nodup_append.mp (v.ids_perm.nodup_iff.mpr h)).1

theorem nodup_part {v w : Visit} (h : v.node.ids.Nodup) (hw : w ∈ v.parts) : w.node.ids.Nodup := by
  obtain ⟨before, later, hparts⟩ := List.append_of_mem hw
  have hall := nodup_idsAll_parts h
  simp only [hparts, idsAll, List.flatMap_append, List.flatMap_cons] at hall
  exact (List.nodup_append.mp (List.nodup_append.mp hall).2.1).1

/-- A node that holds an id is visited once only. -/
theorem Within.unique {root v w : Visit} {id : NodeId} (hnodup : root.node.ids.Nodup)
    (hv : Within root v) (hw : Within root w) (hid : id ∈ v.node.ids) (hnode : v.node = w.node) :
    v = w := by
  have hid' : id ∈ w.node.ids := hnode ▸ hid
  rcases hv.cases_head with rfl | ⟨u, hu, huv⟩ <;> rcases hw.cases_head with rfl | ⟨u', hu', huw⟩
  · rfl
  · -- A visit inside a part is smaller than the whole, so its node is another one.
    have hlt := Nat.lt_of_le_of_lt huw.size_le (size_part _ _ hu')
    rw [hnode] at hlt
    exact absurd hlt (Nat.lt_irrefl _)
  · have hlt := Nat.lt_of_le_of_lt huv.size_le (size_part _ _ hu)
    rw [hnode] at hlt
    exact absurd hlt (Nat.lt_irrefl _)
  · obtain rfl :=
      eq_of_mem_idsAll (nodup_idsAll_parts hnodup) hu hu' (huv.mem_ids id hid) (huw.mem_ids id hid')
    have hsize := size_part _ _ hu
    exact Within.unique (nodup_part hnodup hu) huv huw hid hnode
termination_by root.node.size

/-! ## Visits without error -/

/-- A visit of a walk that broke no rule, whose ids were new, and whose distances are kept in
`D`. -/
structure Accepted (D : Distances) (v : Visit) : Prop where
  formed : v.node.Formed
  clean : v.after.errors = []
  nodup : v.node.ids.Nodup
  fresh : ∀ id ∈ v.node.ids, v.resolver.distances[id]? = none
  kept : ∀ id ∈ v.node.ids, D[id]? = v.after.distances[id]?

end Visit

theorem Resolver.Touches.clean {ids : List NodeId} {r r' : Resolver} (h : Touches ids r r')
    (hr : r'.errors = []) : r.errors = [] := by
  have hp := h.errors
  rw [hr] at hp
  exact List.prefix_nil.mp hp

namespace Visit

namespace Accepted

variable {D : Distances} {v w : Visit}

theorem part (h : Accepted D v)
    (hw : w ∈ v.parts := by simp [Visit.parts, Expr.parts, Stmt.parts]) :
    Accepted D w := by
  obtain ⟨before, later, hparts⟩ := List.append_of_mem hw
  have hlead := v.lead_parts
  rw [hparts] at hlead
  obtain ⟨hbefore, hlater⟩ := hlead.split
  -- The ids of the part are apart from those recorded before it, and from those recorded later.
  have hids : (idsAll before ++ (w.node.ids ++ (idsAll later ++ v.node.ownIds))).Nodup := by
    have hperm := v.ids_perm.nodup_iff.mpr h.nodup
    rw [hparts] at hperm
    simpa only [idsAll, List.flatMap_append, List.flatMap_cons, List.append_assoc] using hperm
  obtain ⟨-, hrest, hapartBefore⟩ := List.nodup_append.mp hids
  obtain ⟨hnodup, -, hapartLater⟩ := List.nodup_append.mp hrest
  have hmem (id : NodeId) (hid : id ∈ w.node.ids) : id ∈ v.node.ids :=
    (Within.refl.part hw).mem_ids id hid
  refine ⟨v.formed_part h.formed w hw, hlater.clean h.clean, hnodup, fun id hid => ?_,
    fun id hid => ?_⟩
  · rw [hbefore.distances id fun hb => hapartBefore id hb id (List.mem_append_left _ hid) rfl]
    exact h.fresh id (hmem id hid)
  · rw [h.kept id (hmem id hid)]
    exact hlater.distances id fun hl => hapartLater id hid id hl rfl

/-- Whatever lies inside an accepted visit is accepted. -/
theorem within (h : Accepted D v) (hw : Within v w) : Accepted D w := by
  induction hw with
  | refl => exact h
  | part _ hw ih => exact ih.part hw

end Accepted

end Visit

end Lox
