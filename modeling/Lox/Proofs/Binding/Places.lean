import Lox.Proofs.Binding.Visits

/-!
# What is known at a place

The scopes that the walk knows at a place are of a certain form (`Scopes.Tidy`): only in the
innermost one can a name be declared and not yet defined, and the scope of a `super` has that of its
`this` just inside. A node that names a variable has as its distance what the scopes at its place
say (`Visit.Accepted.distance`), and from the form of the scopes it follows that the variable found
there is defined already, unless the node stands in the initial value of that very variable.
-/

namespace Lox

variable {name : String} {s : Stmt} {e : Expr} {id : NodeId}

/-! ## Names in scopes -/

theorem NameTable.contains_iff {α : Type} {t : NameTable α} :
    t.contains name = true ↔ ∃ a, t.find? name = some a :=
  Option.isSome_iff_exists

namespace Scopes

variable {t : NameTable Bool}

/-- The number of scopes inside the innermost one that declares a name. -/
def distance? (Γ : Scopes) (name : String) : Option Nat :=
  Γ.findIdx? fun scope => scope.contains name

/-- No name is declared without being defined. -/
def Settled (Γ : Scopes) : Prop :=
  ∀ t ∈ Γ, ∀ name, t.find? name ≠ some false

/-- The scopes at a place in a program. -/
structure Tidy (Γ : Scopes) : Prop where
  settled : Settled Γ.tail
  this_defined : ∀ t, Γ.head? = some t → t.find? "this" ≠ some false
  no_super : ∀ t, Γ.head? = some t → t.contains "super" = false
  paired : ∀ d t, Γ[d + 1]? = some t → t.contains "super" = true →
    ∃ t', Γ[d]? = some t' ∧ t'.find? "this" = some true

theorem Settled.mark {Γ : Scopes} (h : Settled Γ) (name : String) : Settled (Γ.mark name true) := by
  cases Γ with
  | nil => exact h
  | cons t outer =>
    intro u hu other hfalse
    rcases List.mem_cons.mp hu with rfl | hu
    · rw [NameTable.find?_insert] at hfalse
      split at hfalse
      · cases hfalse
      · exact h t List.mem_cons_self other hfalse
    · exact h u (List.mem_cons_of_mem t hu) other hfalse

theorem Settled.cons {Γ : Scopes} (ht : ∀ name, t.find? name ≠ some false) (h : Settled Γ) :
    Settled (t :: Γ) :=
  List.forall_mem_cons.mpr ⟨ht, h⟩

namespace Tidy

variable {Γ : Scopes}

theorem nil : Tidy [] where
  settled := fun _ h => nomatch h
  this_defined := fun _ h => nomatch h
  no_super := fun _ h => nomatch h
  paired := fun _ _ h => nomatch h

/-- A declaration keeps the form of the scopes. -/
theorem mark (h : Tidy Γ) {name : Token} (hname : name.IsFree) (b : Bool) :
    Tidy (Γ.mark name.lexeme b) := by
  cases Γ with
  | nil => exact .nil
  | cons t outer =>
    have hthis : (t.insert name.lexeme b).find? "this" = t.find? "this" := by
      rw [NameTable.find?_insert, if_neg hname.1.symm]
    have hsuper : (t.insert name.lexeme b).contains "super" = t.contains "super" := by
      rw [NameTable.contains, NameTable.find?_insert, if_neg hname.2.symm, ← NameTable.contains]
    refine ⟨h.settled, fun u hu => ?_, fun u hu => ?_, fun d u hu hcontains => ?_⟩
    · cases hu
      rw [hthis]
      exact h.this_defined t rfl
    · cases hu
      rw [hsuper]
      exact h.no_super t rfl
    · obtain ⟨t', ht', hfind⟩ := h.paired d u hu hcontains
      cases d with
      | zero =>
        cases ht'
        exact ⟨t.insert name.lexeme b, rfl, by rw [hthis]; exact hfind⟩
      | succ d => exact ⟨t', ht', hfind⟩

/-- Entering a scope without `super` keeps the form of the scopes. -/
theorem push (h : Tidy Γ) (hs : Settled Γ) (hthis : t.find? "this" ≠ some false)
    (hsuper : t.contains "super" = false) : Tidy (t :: Γ) := by
  refine ⟨hs, fun u hu => ?_, fun u hu => ?_, fun d u hu hcontains => ?_⟩
  · cases hu; exact hthis
  · cases hu; exact hsuper
  · cases d with
    | zero =>
      have hhead : Γ.head? = some u := by rw [List.head?_eq_getElem?]; exact hu
      rw [h.no_super u hhead] at hcontains
      cases hcontains
    | succ d => exact h.paired d u hu hcontains

/-- Entering the scopes of `super` and `this` keeps the form of the scopes. -/
theorem pushSuper (h : Tidy Γ) (hs : Settled Γ) :
    Tidy (Resolver.synthetic "this" :: Resolver.synthetic "super" :: Γ) := by
  refine ⟨.cons ?_ hs, fun u hu => ?_, fun u hu => ?_, fun d u hu hcontains => ?_⟩
  · intro name
    rw [Resolver.synthetic, NameTable.find?_insert]
    split <;> exact fun hf => nomatch hf
  · cases hu; decide
  · cases hu; decide
  · cases d with
    | zero => exact ⟨_, rfl, by decide⟩
    | succ d =>
      cases d with
      | zero =>
        have hhead : Γ.head? = some u := by rw [List.head?_eq_getElem?]; exact hu
        rw [h.no_super u hhead] at hcontains
        cases hcontains
      | succ d => exact h.paired d u hu hcontains

end Tidy

end Scopes

namespace Resolver

theorem find?_introduced (params : List Token) (t : NameTable Bool) (name : String) :
    (params.foldl (fun t p => t.insert p.lexeme true) t).find? name =
      if name ∈ params.map Token.lexeme then some true else t.find? name := by
  induction params generalizing t with
  | nil => simp
  | cons p rest ih =>
    rw [List.foldl_cons, ih, NameTable.find?_insert]
    by_cases hp : name = p.lexeme <;> simp [hp]

/-- The scope of a function holds its parameters, all of them defined. -/
theorem find?_paramScope (params : List Token) (name : String) :
    (paramScope params).find? name = if name ∈ params.map Token.lexeme then some true else none :=
  find?_introduced params ∅ name

theorem find?_paramScope_ne (params : List Token) (name : String) :
    (paramScope params).find? name ≠ some false := by
  rw [find?_paramScope]
  split <;> exact fun h => nomatch h

theorem super_notMem_paramScope {params : List Token} (h : ∀ p ∈ params, p.IsFree) :
    (paramScope params).contains "super" = false := by
  rw [NameTable.contains, find?_paramScope, if_neg]
  · rfl
  · intro hmem
    obtain ⟨p, hp, hlexeme⟩ := List.mem_map.mp hmem
    exact (h p hp).2 hlexeme

end Resolver

theorem Stmt.Formed.isFree {name : Token} (h : s.Formed) (hname : s.declares? = some name) :
    name.IsFree := by
  cases s <;> cases hname
  · exact h.1
  · next d =>
    obtain ⟨name, params, body⟩ := d
    exact h.1
  · exact h.1

namespace Visit

/-! ## The form of the scopes -/

/-- The scopes at a visit are tidy, and at a statement no name waits for its initial value. -/
def Placed (v : Visit) : Prop :=
  Scopes.Tidy v.resolver.scopes ∧
    match v.node with
    | .expr _ | .exprs _ => True
    | _ => Scopes.Settled v.resolver.scopes

/-- After a statement the scopes are of the same form. -/
theorem placed_after {r : Resolver} (hs : s.Formed) (htidy : Scopes.Tidy r.scopes)
    (hsettled : Scopes.Settled r.scopes) :
    Scopes.Tidy (s.resolve r).scopes ∧ Scopes.Settled (s.resolve r).scopes := by
  rw [Stmt.scopes_resolve hs, Stmt.scopesAfter]
  split
  · next name hname => exact ⟨htidy.mark (hs.isFree hname) true, hsettled.mark name.lexeme⟩
  · exact ⟨htidy, hsettled⟩

theorem placed_stmt_part {r : Resolver} (hs : s.Formed) (htidy : Scopes.Tidy r.scopes)
    (hsettled : Scopes.Settled r.scopes) : ∀ w ∈ s.parts r, Placed w := by
  cases s with
  | expression value => simpa [Stmt.parts, Placed] using htidy
  | print value => simpa [Stmt.parts, Placed] using htidy
  | var name initializer =>
    cases initializer with
    | none => simp [Stmt.parts]
    | some value => simpa [Stmt.parts, Placed] using htidy.mark hs.1 false
  | block body =>
    have hpush : Scopes.Tidy (∅ :: r.scopes) := htidy.push hsettled (by decide) (by decide)
    have hpush' : Scopes.Settled (∅ :: r.scopes) := .cons (fun _ hf => by cases hf) hsettled
    simpa [Stmt.parts, Placed] using ⟨hpush, hpush'⟩
  | ifThen condition thenBranch => simpa [Stmt.parts, Placed] using ⟨htidy, hsettled⟩
  | ifThenElse condition thenBranch elseBranch =>
    obtain ⟨-, ⟨-, hthen⟩, -⟩ := hs
    have helse :=
      placed_after (r := condition.resolve r) hthen (by simpa using htidy) (by simpa using hsettled)
    simpa [Stmt.parts, Placed] using ⟨htidy, ⟨htidy, hsettled⟩, helse⟩
  | whileLoop condition body => simpa [Stmt.parts, Placed] using ⟨htidy, hsettled⟩
  | function decl =>
    have hname : decl.name.IsFree := hs.isFree rfl
    simpa [Stmt.parts, Placed, Scopes.mark_mark] using
      ⟨htidy.mark hname true, hsettled.mark decl.name.lexeme⟩
  | returnWith word value =>
    cases value with
    | none => simp [Stmt.parts]
    | some value => simpa [Stmt.parts, Placed, Resolver.atReturn] using htidy
  | classDef name superclass methods =>
    have hinner := htidy.mark hs.1 true
    have hinner' := hsettled.mark name.lexeme
    have hthis : ∀ other, (Resolver.synthetic "this").find? other ≠ some false := fun other => by
      rw [Resolver.synthetic, NameTable.find?_insert]
      split <;> exact fun hf => by cases hf
    cases superclass with
    | none =>
      have hpush := hinner.push hinner' (t := Resolver.synthetic "this") (by decide) (by decide)
      simpa [Stmt.parts, Placed, Resolver.scopes_enterClass, Resolver.classScopes] using
        ⟨hpush, .cons hthis hinner'⟩
    | some e =>
      have hpush := hinner.pushSuper hinner'
      simpa [Stmt.parts, Placed, Resolver.scopes_enterClass, Resolver.classScopes,
        Resolver.scopes_atSuperclass] using ⟨hinner, hpush, .cons hthis hpush.settled⟩

/-- Each part of a visit has scopes of that form too. -/
theorem Placed.part {v : Visit} (h : v.Placed) (hformed : v.node.Formed) :
    ∀ w ∈ v.parts, Placed w := by
  obtain ⟨node, r⟩ := v
  obtain ⟨htidy, hsettled⟩ := h
  cases node with
  | expr e => cases e <;> simp [parts, Expr.parts, Placed, htidy]
  | exprs es => cases es <;> simp [parts, Placed, htidy]
  | stmt s => exact placed_stmt_part hformed htidy hsettled
  | stmts body =>
    cases body with
    | nil => simp [parts]
    | cons s rest =>
      simpa [parts, Placed] using ⟨⟨htidy, hsettled⟩, placed_after hformed.1 htidy hsettled⟩
  | function kind d =>
    obtain ⟨name, params, body⟩ := d
    have hpush : Scopes.Tidy (Resolver.paramScope params :: r.scopes) :=
      htidy.push hsettled (Resolver.find?_paramScope_ne params "this")
        (Resolver.super_notMem_paramScope hformed.2.1)
    have hpush' : Scopes.Settled (Resolver.paramScope params :: r.scopes) :=
      .cons (Resolver.find?_paramScope_ne params) hsettled
    simpa [parts, Placed, Resolver.scopes_enterFunction] using ⟨hpush, hpush'⟩
  | methods ds =>
    cases ds with
    | nil => simp [parts]
    | cons d rest =>
      simpa [parts, Placed, Stmt.scopes_resolveFunction hformed.1] using ⟨htidy, hsettled⟩

end Visit

/-! ## Distances -/

/-- The id and the name of the variable that a node reads. -/
def Expr.reads? : Expr → Option (NodeId × String)
  | .variable id name => some (id, name.lexeme)
  | .thisRef id _ => some (id, "this")
  | .superRef id _ _ => some (id, "super")
  | _ => none

/-- The id and the name of the variable that a node reads or assigns to. -/
def Expr.names? : Expr → Option (NodeId × String)
  | .assign id name _ => some (id, name.lexeme)
  | e => e.reads?

theorem Expr.names?_of_reads? (h : e.reads? = some (id, name)) : e.names? = some (id, name) := by
  cases e <;> cases h <;> rfl

namespace Resolver

variable {r : Resolver}

/-- A rule that is not reported is not broken. -/
theorem reportIf_clean {broken : Bool} {t : Token} {fault : StaticFault}
    (h : (r.reportIf broken t fault).errors = []) : broken = false := by
  cases broken with
  | false => rfl
  | true => simp [reportIf, report] at h

/-- The distance recorded for a new id is what the scopes say. -/
theorem getElem?_record {r₁ : Resolver} {ids : List NodeId} (h : Touches ids r r₁) (hid : id ∉ ids)
    (hfresh : r.distances[id]? = none) (hscopes : r₁.scopes = r.scopes) (name : String) :
    (r₁.record id name).distances[id]? = Scopes.distance? r.scopes name := by
  rw [← hscopes]
  unfold record
  split
  · next d hd => exact Std.HashMap.getElem?_insert_self.trans hd.symm
  · next hd => exact ((h.distances id hid).trans hfresh).trans hd.symm

/-- A name that is found at a distance, and not in the middle of its own declaration, is defined
there. -/
theorem defined_of_distance? {d : Nat} (htidy : Scopes.Tidy r.scopes)
    (hhere : r.isUndefinedHere name = false) (hd : Scopes.distance? r.scopes name = some d) :
    ∃ t, r.scopes[d]? = some t ∧ t.find? name = some true := by
  obtain ⟨hlt, hcontains, -⟩ := List.findIdx?_eq_some_iff_getElem.mp hd
  obtain ⟨b, hb⟩ := NameTable.contains_iff.mp hcontains
  refine ⟨r.scopes[d], List.getElem?_eq_getElem hlt, ?_⟩
  cases b with
  | true => exact hb
  | false =>
    exfalso
    obtain ⟨scopes, _⟩ := r
    cases scopes with
    | nil => cases hlt
    | cons t outer =>
      cases d with
      | zero =>
        have hb' : t.find? name = some false := hb
        simp [isUndefinedHere, hb'] at hhere
      | succ d => exact htidy.settled _ (List.getElem_mem (Nat.lt_of_succ_lt_succ hlt)) name hb

/-- A name in the middle of its own declaration is found in the innermost scope. -/
theorem distance?_of_isUndefinedHere (h : r.isUndefinedHere name = true) :
    ∃ t outer, r.scopes = t :: outer ∧ t.find? name = some false ∧
      Scopes.distance? r.scopes name = some 0 := by
  unfold isUndefinedHere at h
  split at h
  · next t outer hscopes =>
    have hfind : t.find? name = some false := by simpa using h
    refine ⟨t, outer, hscopes, hfind, ?_⟩
    rw [hscopes, Scopes.distance?, List.findIdx?_cons, NameTable.contains, hfind]
    rfl
  · cases h

end Resolver

namespace Visit

variable {D : Distances} {r : Resolver}

open Resolver (Touches)

/-- The distance of a node is what the scopes at its place say. -/
theorem Accepted.distance (h : Accepted D ⟨.expr e, r⟩) (hname : e.names? = some (id, name)) :
    D[id]? = Scopes.distance? r.scopes name := by
  obtain ⟨hformed, hclean, hnodup, hfresh, hkept⟩ := h
  -- In each case the walk ends with recording the distance, and nothing before that records one for
  -- the same id.
  cases e with
  | «variable» _ token =>
    cases hname
    rw [hkept id List.mem_cons_self]
    exact Resolver.getElem?_record
      ((r.touches_reportIf _ _ _).trans (Resolver.touches_reportIf _ _ _ _)) (by simp)
      (hfresh id List.mem_cons_self) (by simp) token.lexeme
  | assign _ token value =>
    cases hname
    have hmem : id ∈ (Node.expr (.assign id token value)).ids :=
      List.mem_append_right _ List.mem_cons_self
    have hapart : id ∉ value.ids := fun hid =>
      (List.nodup_append.mp hnodup).2.2 id hid id List.mem_cons_self rfl
    rw [hkept id hmem]
    exact Resolver.getElem?_record (value.touches_resolve r) hapart (hfresh id hmem) (by simp)
      token.lexeme
  | thisRef _ word =>
    cases hname
    rw [hkept id List.mem_cons_self]
    simp only [after, Node.resolve, Expr.resolve] at hclean ⊢
    split at hclean
    · simp [Resolver.report] at hclean
    · rw [hformed]
      exact Resolver.getElem?_record .refl (by simp) (hfresh id List.mem_cons_self) rfl "this"
  | superRef _ word method =>
    cases hname
    rw [hkept id List.mem_cons_self, ← hformed]
    exact Resolver.getElem?_record
      ((r.touches_reportIf _ _ _).trans (Resolver.touches_reportIf _ _ _ _)) (by simp)
      (hfresh id List.mem_cons_self) (by simp) word.lexeme
  | _ => cases hname

/-- A variable that is read is not in the middle of its own declaration. -/
theorem Accepted.isUndefinedHere (h : Accepted D ⟨.expr e, r⟩) (htidy : Scopes.Tidy r.scopes)
    (hname : e.reads? = some (id, name)) : r.isUndefinedHere name = false := by
  cases e with
  | «variable» _ token =>
    cases hname
    have hclean := (Resolver.touches_record _ id token.lexeme).clean h.clean
    exact Resolver.reportIf_clean ((Resolver.touches_reportIf _ _ _ _).clean hclean)
  | thisRef _ word =>
    cases hname
    unfold Resolver.isUndefinedHere
    split
    · next t outer hscopes => simpa using htidy.this_defined t (by rw [hscopes]; rfl)
    · rfl
  | superRef _ word method =>
    cases hname
    unfold Resolver.isUndefinedHere
    split
    · next t outer hscopes =>
      have hnot := htidy.no_super t (by rw [hscopes]; rfl)
      cases hfind : t.find? "super" with
      | none => rfl
      | some b => rw [NameTable.contains, hfind] at hnot; cases hnot
    · rfl
  | _ => cases hname

end Visit

end Lox
