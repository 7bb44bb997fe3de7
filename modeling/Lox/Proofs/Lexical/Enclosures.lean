import Lox.Proofs.Binding.Kinds
import Lox.Proofs.Binding.Places
import Lox.Proofs.Syntax.Legal

/-!
# The text around a place

Blocks, functions and classes bring scopes. The enclosures of a visit are those around it, the
innermost first, with their whole text (`Visit.Inside`). So they tell what names a scope will ever
have, while the walk knows only those that were declared so far.

What the walk knows at a place follows from the enclosures: the kind of the function and of the
class around, and where the scopes of `this` and `super` stand (`Visit.At`). In a program that
breaks no rule, a `return` stands in a function that may return, and `this` and `super` find the
scopes of the nearest class.
-/

namespace Lox

variable {s : Stmt} {name : Token} {v : Visit}

/-! ## Enclosures -/

/-- The text of a class declaration. -/
structure ClassText where
  name : Token
  superclass : Option Expr
  methods : List FunctionDecl

/-- A piece of text that brings scopes. -/
inductive Enclosure where
  | block (body : List Stmt)
  | function (kind : FunctionKind) (d : FunctionDecl)
  | cls (c : ClassText)

/-- The names that statements declare in the scope they stand in. -/
def Stmt.declared (body : List Stmt) : List String :=
  body.filterMap fun s => s.declares?.map Token.lexeme

theorem Stmt.mem_declared {body : List Stmt} (hs : s ∈ body) (hname : s.declares? = some name) :
    name.lexeme ∈ declared body :=
  List.mem_filterMap.mpr ⟨s, hs, by rw [hname]; rfl⟩

/-- The names that the scope of a function can have. -/
def FunctionDecl.locals (d : FunctionDecl) : List String :=
  d.params.map Token.lexeme ++ Stmt.declared d.body

namespace Enclosure

/-- The names that the scopes of an enclosure can ever have, the innermost scope first. -/
def names : Enclosure → List (List String)
  | .block body => [Stmt.declared body]
  | .function _ d => [d.locals]
  | .cls c => ["this"] :: if c.superclass.isSome then [["super"]] else []

/-- Whether an enclosure is a class. -/
def isClass : Enclosure → Bool
  | .cls _ => true
  | _ => false

/-- Whether statements can stand directly inside. Between a class and a statement there is always a
method. -/
def holdStatements : List Enclosure → Bool
  | .cls _ :: _ => false
  | _ => true

/-- The kind of the function around a place. -/
def functionKind : List Enclosure → FunctionKind
  | [] => .none
  | .function kind _ :: _ => kind
  | _ :: E => functionKind E

/-- The kind of the class around a place. -/
def classKind : List Enclosure → ClassKind
  | [] => .none
  | .cls c :: _ => if c.superclass.isSome then .subclass else .plain
  | _ :: E => classKind E

/-- Whether a name may be declared directly inside. At the top level every name may. -/
def Declares : List Enclosure → String → Prop
  | [], _ => True
  | .block body :: _, name => name ∈ Stmt.declared body
  | .function _ d :: _, name => name ∈ d.locals
  | .cls _ :: _, _ => False

theorem classKind_cons {e : Enclosure} (h : e.isClass = false) (E : List Enclosure) :
    classKind (e :: E) = classKind E := by
  cases e with
  | cls => cases h
  | _ => rfl

end Enclosure

/-- The enclosures between a piece of a tree and a part of it. -/
def Node.opens : Node → Node → List Enclosure
  | .stmt (.block body), _ => [.block body]
  | .function kind d, _ => [.function kind d]
  | .stmt (.classDef name superclass ms), .methods _ => [.cls ⟨name, superclass, ms⟩]
  | _, _ => []

/-- A visit that belongs to another one, with the enclosures in between. -/
inductive Visit.Inside (root : Visit) : List Enclosure → Visit → Prop where
  | refl : Inside root [] root
  | part {E : List Enclosure} {v w : Visit} (h : Inside root E v) (hw : w ∈ v.parts) :
      Inside root (v.node.opens w.node ++ E) w

theorem Visit.Inside.within {root : Visit} {E : List Enclosure} (h : root.Inside E v) :
    root.Within v := by
  induction h with
  | refl => exact .refl
  | part _ hw ih => exact ih.part hw

/-- The way to a visit starts at the root. -/
theorem Visit.Inside.cases_head {root : Visit} {E : List Enclosure} (h : root.Inside E v) :
    (E = [] ∧ v = root) ∨ ∃ w ∈ root.parts, ∃ E', w.Inside E' v ∧
      E = E' ++ root.node.opens w.node := by
  induction h with
  | refl => exact .inl ⟨rfl, rfl⟩
  | @part E v w h hw ih =>
    rcases ih with ⟨rfl, rfl⟩ | ⟨u, hu, E', huv, rfl⟩
    · exact .inr ⟨w, hw, [], .refl, List.append_nil _⟩
    · exact .inr ⟨u, hu, _, huv.part hw, (List.append_assoc ..).symm⟩

/-- A node that holds an id stands inside the same enclosures at all its visits. -/
theorem Visit.Inside.unique {root v w : Visit} {E E' : List Enclosure} {id : NodeId}
    (hnodup : root.node.ids.Nodup) (hv : root.Inside E v) (hw : root.Inside E' w)
    (hid : id ∈ v.node.ids) (hnode : v.node = w.node) : E' = E := by
  obtain rfl := Within.unique hnodup hv.within hw.within hid hnode
  rcases hv.cases_head with ⟨rfl, rfl⟩ | ⟨u, hu, F, huv, rfl⟩ <;>
    rcases hw.cases_head with ⟨rfl, hroot⟩ | ⟨u', hu', F', huw, rfl⟩
  · rfl
  · -- A visit inside a part is smaller than the whole.
    exact absurd (Nat.lt_of_le_of_lt huw.within.size_le (size_part _ _ hu')) (Nat.lt_irrefl _)
  · exact absurd (Nat.lt_of_le_of_lt huv.within.size_le (size_part _ _ hu))
      (hroot ▸ Nat.lt_irrefl _)
  · obtain rfl := eq_of_mem_idsAll (nodup_idsAll_parts hnodup) hu hu' (huv.within.mem_ids id hid)
      (huw.within.mem_ids id hid)
    have hsize := size_part _ _ hu
    rw [Inside.unique (nodup_part hnodup hu) huv huw hid rfl]
termination_by root.node.size

/-! ## Scopes and enclosures -/

/-- The scopes known at a place, seen from the enclosures: each class brings those of `this` and
`super`, and no other scope has one of these names. -/
inductive Scopes.Around : List Enclosure → Scopes → Prop where
  | nil : Around [] []
  | scope {e : Enclosure} {E : List Enclosure} {t : NameTable Bool} {Γ : Scopes}
      (he : e.isClass = false) (hthis : t.contains "this" = false)
      (hsuper : t.contains "super" = false) (h : Around E Γ) : Around (e :: E) (t :: Γ)
  | cls (c : ClassText) {E : List Enclosure} {Γ : Scopes} (h : Around E Γ) :
      Around (.cls c :: E) (Resolver.classScopes c.superclass.isSome ++ Γ)

namespace Scopes.Around

variable {E : List Enclosure} {Γ : Scopes}

/-- A declaration brings no `this` and no `super`. -/
theorem mark (h : Around E Γ) (hE : Enclosure.holdStatements E = true) (hname : name.IsFree)
    (b : Bool) : Around E (Γ.mark name.lexeme b) := by
  cases h with
  | nil => exact .nil
  | cls => cases hE
  | scope he hthis hsuper h =>
    refine .scope he ?_ ?_ h
    · rw [NameTable.contains, NameTable.find?_insert, if_neg hname.1.symm]
      exact hthis
    · rw [NameTable.contains, NameTable.find?_insert, if_neg hname.2.symm]
      exact hsuper

/-- Inside a class, `this` is found just outside what stands between. -/
theorem distance?_this (h : Around E Γ) (hE : Enclosure.classKind E ≠ .none) :
    ∃ inner c outer, E = inner ++ Enclosure.cls c :: outer ∧ (∀ e ∈ inner, e.isClass = false) ∧
      Scopes.distance? Γ "this" = some inner.length := by
  induction h with
  | nil => exact absurd rfl hE
  | @cls c E Γ => exact ⟨[], c, E, rfl, fun _ h => (by cases h), rfl⟩
  | @scope e E t Γ he hthis _ _ ih =>
    rw [Enclosure.classKind_cons he] at hE
    obtain ⟨inner, c, outer, rfl, hinner, hd⟩ := ih hE
    refine ⟨e :: inner, c, outer, rfl, List.forall_mem_cons.mpr ⟨he, hinner⟩, ?_⟩
    rw [distance?] at hd
    rw [distance?, List.findIdx?_cons, hthis, hd]
    rfl

/-- Inside a class that inherits, `super` is found just outside `this`. -/
theorem distance?_super (h : Around E Γ) (hE : Enclosure.classKind E = .subclass) :
    ∃ inner c outer, E = inner ++ Enclosure.cls c :: outer ∧ (∀ e ∈ inner, e.isClass = false) ∧
      c.superclass.isSome = true ∧ Scopes.distance? Γ "super" = some (inner.length + 1) := by
  induction h with
  | nil => cases hE
  | @cls c E Γ =>
    cases hc : c.superclass.isSome with
    | false =>
      rw [Enclosure.classKind, hc] at hE
      cases hE
    | true => exact ⟨[], c, E, rfl, fun _ h => (by cases h), hc, rfl⟩
  | @scope e E t Γ he _ hsuper _ ih =>
    rw [Enclosure.classKind_cons he] at hE
    obtain ⟨inner, c, outer, rfl, hinner, hc, hd⟩ := ih hE
    refine ⟨e :: inner, c, outer, rfl, List.forall_mem_cons.mpr ⟨he, hinner⟩, hc, ?_⟩
    rw [distance?] at hd
    rw [distance?, List.findIdx?_cons, hsuper, hd]
    rfl

end Scopes.Around

theorem Resolver.notMem_paramScope {params : List Token} {name : String}
    (h : ∀ p ∈ params, p.lexeme ≠ name) : (paramScope params).contains name = false := by
  rw [NameTable.contains, find?_paramScope, if_neg]
  · rfl
  · intro hmem
    obtain ⟨p, hp, hlexeme⟩ := List.mem_map.mp hmem
    exact h p hp hlexeme

/-! ## What is known inside enclosures -/

namespace Node

/-- A piece of a tree with operators and free names in their places. -/
def Legal : Node → Prop
  | .expr e => e.Legal
  | .exprs es => Expr.LegalAll es
  | .stmt s => s.Legal
  | .stmts body => Stmt.LegalAll body
  | .function _ d => Stmt.LegalFunction d
  | .methods ds => Stmt.LegalMethods ds

/-- What can stand directly inside enclosures: methods in a class, all else elsewhere, and
declarations only of names that the text of the innermost enclosure declares. -/
def Nested (E : List Enclosure) : Node → Prop
  | .methods ds => ∃ c outer, E = .cls c :: outer ∧ ∀ d ∈ ds, d ∈ c.methods
  | .function kind d =>
    (∃ c outer, E = .cls c :: outer ∧ d ∈ c.methods ∧ kind = Resolver.methodKind d.name) ∨
      Enclosure.holdStatements E = true ∧ kind = .function
  | .stmts body => Enclosure.holdStatements E = true ∧
      ∀ s ∈ body, ∀ name, s.declares? = some name → Enclosure.Declares E name.lexeme
  | .stmt s => Enclosure.holdStatements E = true ∧
      ∀ name, s.declares? = some name → Enclosure.Declares E name.lexeme
  | .expr _ | .exprs _ => Enclosure.holdStatements E = true

end Node

namespace Visit

variable {word : Token}

theorem legal_part (v : Visit) (h : v.node.Legal) : ∀ w ∈ v.parts, w.node.Legal := by
  obtain ⟨node, r⟩ := v
  cases node with
  | expr e => cases e <;> simp_all [parts, Expr.parts, Node.Legal, Expr.Legal]
  | exprs es => cases es <;> simp_all [parts, Node.Legal, Expr.LegalAll]
  | stmt s =>
    cases s with
    | var name initializer =>
      cases initializer <;> simp_all [parts, Stmt.parts, Node.Legal, Stmt.Legal, Expr.Legal?]
    | returnWith word value =>
      cases value <;> simp_all [parts, Stmt.parts, Node.Legal, Stmt.Legal, Expr.Legal?]
    | classDef name superclass methods =>
      cases superclass <;> simp_all [parts, Stmt.parts, Node.Legal, Stmt.Legal, Expr.Legal?]
    | _ => simp_all [parts, Stmt.parts, Node.Legal, Stmt.Legal]
  | stmts body => cases body <;> simp_all [parts, Node.Legal, Stmt.LegalAll]
  | function kind d =>
    obtain ⟨name, params, body⟩ := d
    simp_all [parts, Node.Legal, Stmt.LegalFunction]
  | methods ds => cases ds <;> simp_all [parts, Node.Legal, Stmt.LegalMethods]

/-- What is known at a visit agrees with the enclosures around it. The superclass of a class, which
is a variable, is looked at as if inside that class, so for variables nothing is said of the kind of
the class. -/
structure At (E : List Enclosure) (v : Visit) : Prop where
  legal : v.node.Legal
  nested : v.node.Nested E
  scopes : Scopes.Around E v.resolver.scopes
  functionKind : v.resolver.functionKind = Enclosure.functionKind E
  classKind : (∀ id name, v.node ≠ .expr (.variable id name)) →
    v.resolver.classKind = Enclosure.classKind E

namespace At

variable {E : List Enclosure} {node : Node} {r : Resolver}

/-- A part of a visit with no enclosure in between. -/
theorem sub (h : At E ⟨node, r⟩) (hnode : ∀ id name, node ≠ .expr (.variable id name)) {w : Visit}
    (hw : w ∈ Visit.parts ⟨node, r⟩) (hnested : w.node.Nested E)
    (hscopes : Scopes.Around E w.resolver.scopes) (hkinds : Resolver.SameKinds r w.resolver) :
    At E w :=
  ⟨legal_part _ h.legal w hw, hnested, hscopes, hkinds.functionKind.trans h.functionKind,
    fun _ => hkinds.classKind.trans (h.classKind hnode)⟩

/-- The parts of an expression stand inside the same enclosures, and the walk knows there what it
knows here. -/
theorem expr_part {e : Expr} (h : At E ⟨.expr e, r⟩) : ∀ w ∈ e.parts r, At E w := by
  have hsame : ∀ w ∈ e.parts r, w.node.Nested E ∧ w.resolver.scopes = r.scopes ∧
      Resolver.SameKinds r w.resolver := by
    have hE : Enclosure.holdStatements E = true := h.nested
    cases e <;> simp [Expr.parts, Node.Nested, hE, Resolver.SameKinds.refl, Expr.kinds_resolve]
  intro w hw
  obtain ⟨hnested, hscopes, hkinds⟩ := hsame w hw
  refine h.sub ?_ hw hnested (hscopes ▸ h.scopes) hkinds
  rintro id name ⟨⟩
  cases hw

theorem exprs_part {es : List Expr} (h : At E ⟨.exprs es, r⟩) :
    ∀ w ∈ Visit.parts ⟨.exprs es, r⟩, At E w := by
  have hsame : ∀ w ∈ Visit.parts ⟨.exprs es, r⟩,
      w.node.Nested E ∧ w.resolver.scopes = r.scopes ∧ Resolver.SameKinds r w.resolver := by
    have hE : Enclosure.holdStatements E = true := h.nested
    cases es <;> simp [parts, Node.Nested, hE, Resolver.SameKinds.refl, Expr.kinds_resolve]
  intro w hw
  obtain ⟨hnested, hscopes, hkinds⟩ := hsame w hw
  exact h.sub (fun _ _ heq => by cases heq) hw hnested (hscopes ▸ h.scopes) hkinds

/-- What is known after a statement. -/
theorem around_after (hs : s.Formed) (hE : Enclosure.holdStatements E = true)
    (h : Scopes.Around E r.scopes) : Scopes.Around E (s.resolve r).scopes := by
  rw [Stmt.scopes_resolve hs, Stmt.scopesAfter]
  split
  · next name hname => exact h.mark hE (hs.isFree hname) true
  · exact h

theorem stmts_part {body : List Stmt} (h : At E ⟨.stmts body, r⟩) (hformed : Stmt.FormedAll body) :
    ∀ w ∈ Visit.parts ⟨.stmts body, r⟩, At E w := by
  obtain ⟨hE, hdeclares⟩ := h.nested
  have hsub {w : Visit} := h.sub (w := w) fun _ _ heq => by cases heq
  cases body with
  | nil => exact fun _ hw => by cases hw
  | cons s rest =>
    obtain ⟨hs, hrest⟩ := List.forall_mem_cons.mp hdeclares
    refine List.forall_mem_cons.mpr ⟨?_, List.forall_mem_singleton.mpr ?_⟩
    · exact hsub List.mem_cons_self ⟨hE, hs⟩ h.scopes .refl
    · exact hsub (List.mem_cons_of_mem _ List.mem_cons_self) ⟨hE, hrest⟩
        (around_after hformed.1 hE h.scopes) (s.kinds_resolve r)

/-- The body of a function stands inside it. -/
theorem function_part {kind : FunctionKind} {d : FunctionDecl} (h : At E ⟨.function kind d, r⟩)
    (hformed : Stmt.FormedFunction d) :
    At (.function kind d :: E) ⟨.stmts d.body, r.enterFunction kind d.params⟩ := by
  obtain ⟨name, params, body⟩ := d
  obtain ⟨-, hparams, -⟩ := hformed
  obtain ⟨hkind, hclass⟩ := r.kinds_enterFunction kind params
  refine ⟨legal_part _ h.legal _ List.mem_cons_self, ⟨rfl, fun s hs name hname => ?_⟩, ?_, hkind,
    fun _ => ?_⟩
  · exact List.mem_append_right _ (Stmt.mem_declared hs hname)
  · rw [Resolver.scopes_enterFunction]
    refine .scope rfl ?_ ?_ h.scopes
    · exact Resolver.notMem_paramScope fun p hp => (hparams p hp).1
    · exact Resolver.notMem_paramScope fun p hp => (hparams p hp).2
  · exact hclass.trans (h.classKind fun _ _ heq => by cases heq)

theorem methods_part {ds : List FunctionDecl} (h : At E ⟨.methods ds, r⟩)
    (hformed : Stmt.FormedMethods ds) : ∀ w ∈ Visit.parts ⟨.methods ds, r⟩, At E w := by
  obtain ⟨c, outer, hE, hmethods⟩ := h.nested
  have hsub {w : Visit} := h.sub (w := w) fun _ _ heq => by cases heq
  cases ds with
  | nil => exact fun _ hw => by cases hw
  | cons d rest =>
    obtain ⟨hd, hrest⟩ := List.forall_mem_cons.mp hmethods
    refine List.forall_mem_cons.mpr ⟨?_, List.forall_mem_singleton.mpr ?_⟩
    · exact hsub List.mem_cons_self (.inl ⟨c, outer, hE, hd, rfl⟩) h.scopes .refl
    · refine hsub (List.mem_cons_of_mem _ List.mem_cons_self) ⟨c, outer, hE, hrest⟩ ?_
        (Stmt.kinds_resolveFunction _ d r)
      rw [Stmt.scopes_resolveFunction hformed.1]
      exact h.scopes

/-- The methods of a class stand inside it. -/
theorem class_part {superclass : Option Expr} {methods : List FunctionDecl}
    (h : At E ⟨.stmt (.classDef name superclass methods), r⟩) (hname : name.IsFree) :
    At (.cls ⟨name, superclass, methods⟩ :: E) ⟨.methods methods,
      r.enterClass name superclass⟩ := by
  refine ⟨h.legal.2, ⟨_, E, rfl, fun _ hd => hd⟩, ?_, ?_,
    fun _ => r.classKind_enterClass name superclass⟩
  · rw [Resolver.scopes_enterClass]
    exact .cls _ (h.scopes.mark h.nested.1 hname true)
  · exact (r.functionKind_enterClass name superclass).trans h.functionKind

theorem stmt_part (h : At E ⟨.stmt s, r⟩) (hs : s.Formed) :
    ∀ w ∈ s.parts r, At ((Node.stmt s).opens w.node ++ E) w := by
  obtain ⟨hE, hdeclares⟩ := h.nested
  have hsub {w : Visit} := h.sub (w := w) fun _ _ heq => by cases heq
  have hbranch {s : Stmt} (hdecl : s.declares? = none) : (Node.stmt s).Nested E := by
    refine ⟨hE, fun name hname => ?_⟩
    rw [hdecl] at hname
    cases hname
  cases s with
  | expression value =>
    exact List.forall_mem_singleton.mpr (hsub List.mem_cons_self hE h.scopes .refl)
  | print value => exact List.forall_mem_singleton.mpr (hsub List.mem_cons_self hE h.scopes .refl)
  | var name initializer =>
    cases initializer with
    | none => exact fun _ hw => by cases hw
    | some value =>
      refine List.forall_mem_singleton.mpr (hsub List.mem_cons_self hE ?_ ?_)
      · simpa using h.scopes.mark hE hs.1 false
      · exact (r.kinds_declare name).trans (Resolver.kinds_beginInitializer _ name.lexeme)
  | block body =>
    refine List.forall_mem_singleton.mpr
      ⟨h.legal, ⟨rfl, fun s hs name hname => Stmt.mem_declared hs hname⟩, ?_, h.functionKind,
      fun _ => h.classKind fun _ _ heq => by cases heq⟩
    exact .scope rfl rfl rfl h.scopes
  | ifThen condition thenBranch =>
    obtain ⟨-, hdecl, -⟩ := hs
    refine List.forall_mem_cons.mpr ⟨?_, List.forall_mem_singleton.mpr ?_⟩
    · exact hsub List.mem_cons_self hE h.scopes .refl
    · exact hsub (List.mem_cons_of_mem _ List.mem_cons_self) (hbranch hdecl)
        (by simpa using h.scopes) (condition.kinds_resolve r)
  | ifThenElse condition thenBranch elseBranch =>
    obtain ⟨-, ⟨hdecl, hthen⟩, hdecl', -⟩ := hs
    have hcondition : Scopes.Around E (condition.resolve r).scopes := by simpa using h.scopes
    refine List.forall_mem_cons.mpr
      ⟨?_, List.forall_mem_cons.mpr ⟨?_, List.forall_mem_singleton.mpr ?_⟩⟩
    · exact hsub List.mem_cons_self hE h.scopes .refl
    · exact hsub (List.mem_cons_of_mem _ List.mem_cons_self) (hbranch hdecl) hcondition
        (condition.kinds_resolve r)
    · exact hsub (List.mem_cons_of_mem _ (List.mem_cons_of_mem _ List.mem_cons_self))
        (hbranch hdecl') (around_after hthen hE hcondition)
        ((condition.kinds_resolve r).trans (thenBranch.kinds_resolve _))
  | whileLoop condition body =>
    obtain ⟨-, hdecl, -⟩ := hs
    refine List.forall_mem_cons.mpr ⟨?_, List.forall_mem_singleton.mpr ?_⟩
    · exact hsub List.mem_cons_self hE h.scopes .refl
    · exact hsub (List.mem_cons_of_mem _ List.mem_cons_self) (hbranch hdecl)
        (by simpa using h.scopes) (condition.kinds_resolve r)
  | function decl =>
    refine List.forall_mem_singleton.mpr (hsub List.mem_cons_self (.inr ⟨hE, rfl⟩) ?_ ?_)
    · rw [Resolver.scopes_define_declare]
      exact h.scopes.mark hE (hs.isFree rfl) true
    · exact (r.kinds_declare decl.name).trans (Resolver.kinds_define _ decl.name)
  | returnWith word value =>
    cases value with
    | none => exact fun _ hw => by cases hw
    | some value =>
      refine List.forall_mem_singleton.mpr (hsub List.mem_cons_self hE ?_ (r.kinds_atReturn word _))
      simpa [Resolver.atReturn] using h.scopes
  | classDef name superclass methods =>
    have hmethods := h.class_part hs.1
    cases superclass with
    | none => exact List.forall_mem_singleton.mpr hmethods
    | some e =>
      obtain ⟨id, superName, rfl⟩ := hs.2.1 e rfl
      refine List.forall_mem_cons.mpr ⟨?_, List.forall_mem_singleton.mpr hmethods⟩
      refine ⟨legal_part _ h.legal _ List.mem_cons_self, hE, ?_, ?_,
        fun hnot => absurd rfl (hnot id superName)⟩
      · rw [Resolver.scopes_atSuperclass]
        exact h.scopes.mark hE hs.1 true
      · exact (r.functionKind_atSuperclass name _).trans h.functionKind

/-- Each part of a visit agrees with the enclosures around it too. -/
theorem part {w : Visit} (h : At E v) (hformed : v.node.Formed) (hw : w ∈ v.parts) :
    At (v.node.opens w.node ++ E) w := by
  obtain ⟨node, r⟩ := v
  cases node with
  | expr e => exact h.expr_part w hw
  | exprs es => exact h.exprs_part w hw
  | stmt s => exact h.stmt_part hformed w hw
  | stmts body => exact h.stmts_part hformed w hw
  | function kind d =>
    obtain rfl := List.mem_singleton.mp hw
    exact h.function_part hformed
  | methods ds => exact h.methods_part hformed w hw

end At

/-! ## Without broken rules -/

variable {D : Distances} {E : List Enclosure} {r : Resolver}

/-- A `return` stands in a function, and one with a value does not stand in an initializer. -/
theorem Accepted.returns {value : Option Expr} (h : Accepted D ⟨.stmt (.returnWith word value), r⟩)
    (hE : At E ⟨.stmt (.returnWith word value), r⟩) :
    Enclosure.functionKind E ≠ .none ∧
      (value.isSome = true → Enclosure.functionKind E ≠ .initializer) := by
  have hclean : (r.atReturn word value).errors = [] := by
    cases value with
    | none => exact h.clean
    | some e => exact (e.touches_resolve _).clean h.clean
  have hinitializer := Resolver.reportIf_clean hclean
  have hnone := Resolver.reportIf_clean ((Resolver.touches_reportIf _ _ _ _).clean hclean)
  have hkind : r.functionKind = Enclosure.functionKind E := hE.functionKind
  rw [(r.kinds_reportIf _ _ _).functionKind, hkind] at hinitializer
  rw [hkind] at hnone
  exact ⟨by simpa using hnone, fun hsome => by simpa [hsome] using hinitializer⟩

/-- The scope of `this` is that of the nearest class. -/
theorem Accepted.this_distance {id : NodeId} (h : Accepted D ⟨.expr (.thisRef id word), r⟩)
    (hE : At E ⟨.expr (.thisRef id word), r⟩) :
    ∃ inner c outer, E = inner ++ Enclosure.cls c :: outer ∧ (∀ e ∈ inner, e.isClass = false) ∧
      D[id]? = some inner.length := by
  rw [h.distance rfl]
  refine hE.scopes.distance?_this ?_
  rw [← hE.classKind fun _ _ heq => by cases heq]
  intro hnone
  have hclean : ((Expr.thisRef id word).resolve r).errors = [] := h.clean
  have hnone : r.classKind = .none := hnone
  simp [Expr.resolve, hnone, Resolver.report] at hclean

/-- The scope of `super` is that of the nearest class, which inherits. -/
theorem Accepted.super_distance {id : NodeId} {method : Token}
    (h : Accepted D ⟨.expr (.superRef id word method), r⟩)
    (hE : At E ⟨.expr (.superRef id word method), r⟩) :
    ∃ inner c outer, E = inner ++ Enclosure.cls c :: outer ∧ (∀ e ∈ inner, e.isClass = false) ∧
      c.superclass.isSome = true ∧ D[id]? = some (inner.length + 1) := by
  rw [h.distance rfl]
  refine hE.scopes.distance?_super ?_
  have hclean := (Resolver.touches_record _ id word.lexeme).clean h.clean
  have hplain := Resolver.reportIf_clean hclean
  have hnone := Resolver.reportIf_clean ((Resolver.touches_reportIf _ _ _ _).clean hclean)
  have hkind : r.classKind = Enclosure.classKind E := hE.classKind fun _ _ heq => by cases heq
  rw [(r.kinds_reportIf _ _ _).classKind, hkind] at hplain
  rw [hkind] at hnone
  cases hE : Enclosure.classKind E with
  | subclass => rfl
  | none => rw [hE] at hnone; cases hnone
  | plain => rw [hE] at hplain; cases hplain

end Visit

end Lox
