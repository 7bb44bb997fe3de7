import Lox.Proofs.Renaming.Trees

/-!
# Looking at a renamed tree

The walk over a renamed tree knows the same scopes, with the variables of marked scopes under their
new name. A name is searched for from the innermost scope outwards. The new name is found where the
old one was: no scope on the way has it, because it occurs nowhere in the program
(`NameTable.Renames.other`). And where the old name stays, it passes by the marked scopes, in which
only the renamed variable had it. So the same distances are recorded, and no rule is broken that was
not broken before (`Stmt.resolveAll_renamed`).
-/

namespace Lox

variable {R : Renaming} {marks : Marks} {here : Bool} {n : String} {name : Token}
  {t : NameTable Bool} {r : Resolver} {e : Expr} {s : Stmt} {Γ : Scopes} {body : List Stmt}

/-! ## Scopes -/

/-- A scope of the walk and the one with its variable renamed. -/
structure NameTable.Renames (R : Renaming) (here : Bool) (t t' : NameTable Bool) : Prop where
  find : ∀ n, n ≠ R.new → t'.find? (R.name here n) = t.find? n
  /-- The scope does not have the name that the old one would have on the other side of the mark. -/
  other : t'.find? (R.name (!here) R.old) = none

namespace NameTable.Renames

variable {t t' : NameTable Bool}

theorem empty : Renames R here ∅ ∅ :=
  ⟨fun _ _ => rfl, rfl⟩

theorem self (h : t.find? R.new = none) : Renames R false t t :=
  ⟨fun _ _ => rfl, by simpa using h⟩

theorem insert (h : Renames R here t t') (hR : R.new ≠ R.old) (hn : n ≠ R.new) (b : Bool) :
    Renames R here (t.insert n b) (t'.insert (R.name here n) b) := by
  constructor
  · intro m hm
    simp only [find?_insert, Renaming.name_inj hm hn, h.find m hm]
  · rw [find?_insert, if_neg (Renaming.name_ne_other hR hn).symm]
    exact h.other

/-- What a name becomes elsewhere is not found in a scope that does not have the name. -/
theorem find?_eq_none (h : Renames R here t t') (hn : n ≠ R.new) (hnone : t.find? n = none)
    (elsewhere : Bool) : t'.find? (R.name elsewhere n) = none := by
  have hsame := (h.find n hn).trans hnone
  by_cases hold : n = R.old
  · subst hold
    by_cases heq : elsewhere = here
    · rw [heq]
      exact hsame
    · rw [Bool.eq_not_of_ne heq]
      exact h.other
  · rw [Renaming.name_of_ne _ hold] at hsame ⊢
    exact hsame

end NameTable.Renames

/-- Scopes and those with their variables renamed. -/
inductive Scopes.Renamed (R : Renaming) : Marks → Scopes → Scopes → Prop where
  | top : Renamed R [false] [] []
  | scope {here : Bool} {t t' : NameTable Bool} {marks : Marks} {Γ Γ' : Scopes}
      (ht : t.Renames R here t') (h : Renamed R marks Γ Γ') :
      Renamed R (here :: marks) (t :: Γ) (t' :: Γ')

namespace Scopes.Renamed

variable {Γ Γ' : Scopes}

theorem ne_nil (h : Renamed R marks Γ Γ') : marks ≠ [] := by
  cases h <;> simp

theorem tail (h : Renamed R (here :: marks) Γ Γ') (hne : marks ≠ []) :
    Renamed R marks Γ.tail Γ'.tail := by
  cases h with
  | top => exact absurd rfl hne
  | scope _ h => exact h

theorem mark (h : Renamed R marks Γ Γ') (hR : R.new ≠ R.old) (hn : n ≠ R.new) (b : Bool) :
    Renamed R marks (Γ.mark n b) (Γ'.mark (R.name marks.here n) b) := by
  cases h with
  | top => exact .top
  | scope ht h => exact .scope (ht.insert hR hn b) h

/-- **A name is found where it was found before.** -/
theorem distance?_eq (h : Renamed R marks Γ Γ') (hn : n ≠ R.new) :
    distance? Γ' (R.name (marks.at? (distance? Γ n)) n) = distance? Γ n := by
  induction h with
  | top => rfl
  | @scope here t t' marks Γ Γ' ht _ ih =>
    simp only [distance?, List.findIdx?_cons] at ih ⊢
    cases hfind : t.find? n with
    | some b =>
      have hhere : t'.find? (R.name here n) = some b := (ht.find n hn).trans hfind
      simp [NameTable.contains, hfind, hhere, Marks.at?]
    | none =>
      -- This scope has neither the name nor what it becomes, so both searches go on outside.
      have hnot : t.contains n = false := by simp [NameTable.contains, hfind]
      have hnot' (elsewhere : Bool) : t'.contains (R.name elsewhere n) = false := by
        simp [NameTable.contains, ht.find?_eq_none hn hfind]
      have hat (d? : Option Nat) : Marks.at? (here :: marks) (d?.map (· + 1)) = marks.at? d? := by
        cases d? <;> simp [Marks.at?]
      simp only [hnot, Bool.false_eq_true, if_false, hat, hnot', ih]

end Scopes.Renamed

/-! ## What is known -/

namespace Resolver

/-- What is known at a place, and what is known there in the renamed tree. -/
structure Renamed (R : Renaming) (marks : Marks) (r r' : Resolver) : Prop where
  scopes : Scopes.Renamed R marks r.scopes r'.scopes
  rest : r' = { r with scopes := r'.scopes }
  initializing : r.initializing ≠ some R.new

variable {r r' : Resolver}

theorem mark_eq (r : Resolver) (n : String) (b : Bool) :
    r.mark n b = { r with scopes := Scopes.mark r.scopes n b } := by
  obtain ⟨scopes, _⟩ := r
  cases scopes <;> rfl

namespace Renamed

variable (h : Renamed R marks r r')

include h

theorem mark (hR : R.new ≠ R.old) (hn : n ≠ R.new) (b : Bool) :
    Renamed R marks (r.mark n b) (r'.mark (R.name marks.here n) b) := by
  refine ⟨?_, ?_, ?_⟩
  · rw [scopes_mark, scopes_mark]
    exact h.scopes.mark hR hn b
  · rw [mark_eq, mark_eq, h.rest]
  · rw [mark_eq]
    exact h.initializing

theorem isDeclaredHere_eq (hn : n ≠ R.new) :
    r'.isDeclaredHere (R.name marks.here n) = r.isDeclaredHere n := by
  have hscopes := h.scopes
  unfold isDeclaredHere
  generalize r.scopes = Γ at hscopes
  generalize r'.scopes = Γ' at hscopes
  cases hscopes with
  | top => rfl
  | scope ht _ => simp only [NameTable.contains, Marks.here, List.headD_cons, ht.find n hn]

/-- A declaration that breaks no rule breaks none in the renamed tree. -/
theorem declare (hR : R.new ≠ R.old) (hname : name.lexeme ≠ R.new)
    (hclean : (r.declare name).errors = []) :
    Renamed R marks (r.declare name) (r'.declare (R.token marks.here name)) := by
  have hbroken := reportIf_clean hclean
  have hbroken' := (h.isDeclaredHere_eq hname).trans hbroken
  rw [Resolver.declare, Resolver.declare, hbroken, Renaming.lexeme_token, hbroken']
  exact h.mark hR hname false

/-- In both trees the place is at the top level, or in both it is not. -/
theorem depth_cases : (marks = [false] ∧ r.scopes = [] ∧ r'.scopes = []) ∨
    (∃ t Γ, r.scopes = t :: Γ) ∧ ∃ t' Γ', r'.scopes = t' :: Γ' := by
  have hscopes := h.scopes
  generalize r.scopes = Γ at hscopes
  generalize r'.scopes = Γ' at hscopes
  cases hscopes with
  | top => exact .inl ⟨rfl, rfl, rfl⟩
  | scope _ _ => exact .inr ⟨⟨_, _, rfl⟩, _, _, rfl⟩

theorem define (hR : R.new ≠ R.old) (hname : name.lexeme ≠ R.new) :
    Renamed R marks (r.define name) (r'.define (R.token marks.here name)) := by
  rcases h.depth_cases with ⟨rfl, htop, htop'⟩ | ⟨⟨t, Γ, hr⟩, t', Γ', hr'⟩
  · have heq : r.define name =
        { r with defined := name.lexeme :: r.defined } := by simp [Resolver.define, htop]
    have heq' : r'.define name =
        { r' with defined := name.lexeme :: r'.defined } := by simp [Resolver.define, htop']
    rw [heq]
    refine ⟨?_, ?_, h.initializing⟩
    · show Scopes.Renamed R [false] r.scopes (r'.define name).scopes
      rw [heq']
      exact h.scopes
    · show r'.define name =
        { r with scopes := (r'.define name).scopes, defined := name.lexeme :: r.defined }
      rw [heq', h.rest]
  · simp only [Resolver.define, hr, hr']
    exact h.mark hR hname true

/-- Parameters with a name and with the renamed one. -/
theorem introduce (hR : R.new ≠ R.old) {names : List Token}
    (hnames : ∀ name ∈ names, name.lexeme ≠ R.new) (hclean : (r.introduce names).errors = []) :
    Renamed R marks (r.introduce names) (r'.introduce (names.map (R.token marks.here))) := by
  induction names generalizing r r' with
  | nil => exact h
  | cons name rest ih =>
    have hname := hnames name List.mem_cons_self
    have hrest : (((r.declare name).define name).introduce rest).errors = [] := hclean
    have hfirst := (touches_define _ name).clean ((touches_introduce _ rest).clean hrest)
    exact ih ((h.declare hR hname hfirst).define hR hname)
      (fun n hn => hnames n (List.mem_cons_of_mem _ hn)) hrest

theorem beginInitializer (hn : n ≠ R.new) :
    Renamed R marks (r.beginInitializer n) (r'.beginInitializer (R.name marks.here n)) := by
  rcases h.depth_cases with ⟨rfl, htop, htop'⟩ | ⟨⟨t, Γ, hr⟩, t', Γ', hr'⟩
  · have hknows : r'.knowsGlobal n = r.knowsGlobal n := by rw [h.rest]; rfl
    have hempty : r'.scopes.isEmpty = r.scopes.isEmpty := by rw [htop, htop']
    simp only [Resolver.beginInitializer, Marks.here, List.headD_cons, Renaming.name_false, hempty,
      hknows]
    split
    · refine ⟨h.scopes, ?_, by simpa using hn⟩
      rw [h.rest]
    · exact h
  · simpa [Resolver.beginInitializer, hr, hr'] using h

theorem endInitializer : Renamed R marks r.endInitializer r'.endInitializer := by
  refine ⟨h.scopes, ?_, by simp [Resolver.endInitializer]⟩
  rw [h.rest]
  rfl

theorem push {t' : NameTable Bool} (ht : t.Renames R here t') :
    Renamed R (here :: marks) (r.push t) (r'.push t') := by
  refine ⟨.scope ht h.scopes, ?_, h.initializing⟩
  rw [h.rest]
  rfl

/-- Where nothing of the renaming shows, both trees are reported alike. -/
theorem reportIf (broken : Bool) (t : Token) (fault : StaticFault) :
    Renamed R marks (r.reportIf broken t fault) (r'.reportIf broken t fault) := by
  cases broken with
  | false => exact h
  | true =>
    refine ⟨h.scopes, ?_, h.initializing⟩
    rw [h.rest]
    rfl

/-- Both trees record the same distance. -/
theorem record (id : NodeId) {n' : String} (hd : r'.distance? n' = r.distance? n) :
    Renamed R marks (r.record id n) (r'.record id n') := by
  rw [Resolver.record, Resolver.record, hd]
  split
  · refine ⟨h.scopes, ?_, h.initializing⟩
    rw [h.rest]
  · exact h

theorem withFunctionKind (kind : FunctionKind) :
    Renamed R marks { r with functionKind := kind } { r' with functionKind := kind } := by
  refine ⟨h.scopes, ?_, h.initializing⟩
  rw [h.rest]

theorem withClassKind (kind : ClassKind) :
    Renamed R marks { r with classKind := kind } { r' with classKind := kind } := by
  refine ⟨h.scopes, ?_, h.initializing⟩
  rw [h.rest]

/-- A name that is used in its own initial value is so in both trees. -/
theorem isUndefinedHere_eq (hn : n ≠ R.new) :
    r'.isUndefinedHere (R.name (marks.at? (Scopes.distance? r.scopes n)) n) =
      r.isUndefinedHere n := by
  have hscopes := h.scopes
  unfold isUndefinedHere
  generalize r.scopes = Γ at hscopes
  generalize r'.scopes = Γ' at hscopes
  cases hscopes with
  | top => rfl
  | @scope _ t _ _ _ _ ht _ =>
    cases hfind : t.find? n with
    | none => simp only [ht.find?_eq_none hn hfind, hfind]
    | some b =>
      have hcontains : t.contains n = true := by simp [NameTable.contains, hfind]
      simp only [Scopes.distance?, List.findIdx?_cons, hcontains, if_true, Marks.at?,
        List.getElem?_cons_zero, Option.getD_some, ht.find n hn, hfind]

omit h in
theorem pop (h : Renamed R (here :: marks) r r') (hne : marks ≠ []) :
    Renamed R marks r.pop r'.pop := by
  refine ⟨h.scopes.tail hne, ?_, h.initializing⟩
  rw [h.rest]
  rfl

end Renamed

end Resolver

/-! ## Expressions -/

namespace Expr

/-- A use of a variable: it finds what it found, and is no use in an initial value if it was
none. -/
theorem variable_renamed {r' : Resolver} {id : NodeId} (hname : name.lexeme ≠ R.new)
    (hacc : Visit.Accepted R.distances ⟨.expr (.variable id name), r⟩)
    (h : Resolver.Renamed R marks r r') :
    Resolver.Renamed R marks ((Expr.variable id name).resolve r)
      ((Expr.variable id (R.token (marks.at? R.distances[id]?) name)).resolve r') := by
  have hclean := (Resolver.touches_record _ id name.lexeme).clean hacc.clean
  have hlocal := Resolver.reportIf_clean ((Resolver.touches_reportIf _ _ _ _).clean hclean)
  have hglobal : (r.initializing == some name.lexeme) = false := by
    have hbroken := Resolver.reportIf_clean hclean
    rwa [hlocal] at hbroken
  have hdistance := hacc.distance rfl
  have hlocal' : r'.isUndefinedHere (R.name (marks.at? R.distances[id]?) name.lexeme) = false := by
    rw [hdistance, h.isUndefinedHere_eq hname, hlocal]
  have hglobal' : (r'.initializing == some (R.name (marks.at? R.distances[id]?) name.lexeme)) =
      false := by
    have hsame : r'.initializing = r.initializing := by rw [h.rest]
    rw [hsame, Renaming.name]
    split
    · simpa using h.initializing
    · exact hglobal
  have hrecord : Resolver.Renamed R marks (r.record id name.lexeme)
      (r'.record id (R.name (marks.at? R.distances[id]?) name.lexeme)) := by
    refine h.record id ?_
    rw [hdistance]
    exact h.scopes.distance?_eq hname
  simpa [resolve, Resolver.reportIf, hlocal, hglobal, hlocal', hglobal'] using hrecord

/-- `this` and `super` are found where they were found, since they are not renamed. -/
theorem record_renamed (id : NodeId) {word : String} {r' : Resolver} (hold : word ≠ R.old)
    (hnew : word ≠ R.new) (h : Resolver.Renamed R marks r r') :
    Resolver.Renamed R marks (r.record id word) (r'.record id word) := by
  refine h.record id ?_
  have hdistance := h.scopes.distance?_eq hnew
  rwa [Renaming.name_of_ne _ hold] at hdistance

mutual

/-- Looking at a renamed expression leads to what is known in the renamed tree. -/
theorem resolve_renamed (hR : R.Proper) : ∀ {e e' : Expr} {r r' : Resolver}, e.Renamed R marks e' →
    Visit.Accepted R.distances ⟨.expr e, r⟩ → Resolver.Renamed R marks r r' →
    Resolver.Renamed R marks (e.resolve r) (e'.resolve r')
  | .literal _, _, _, _, .literal _, _, h => h
  | .grouping _, _, _, _, .grouping he, hacc, h | .unary _ _, _, _, _, .unary he, hacc, h
  | .get _ _, _, _, _, .get he, hacc, h => by
    have hinner := resolve_renamed hR he hacc.part h
    exact hinner
  | .binary _ _ _, _, _, _, .binary hl hr, hacc, h
  | .logical _ _ _, _, _, _, .logical hl hr, hacc, h => by
    have hleft := resolve_renamed hR hl hacc.part h
    have hright := resolve_renamed hR hr hacc.part hleft
    exact hright
  | .variable _ _, _, _, _, .variable hname, hacc, h => variable_renamed hname hacc h
  | .assign id name value, _, r, r', .assign hname he, hacc, h => by
    have hvalue := resolve_renamed hR he hacc.part h
    refine hvalue.record id ?_
    have hdistance := hvalue.scopes.distance?_eq hname
    rw [scopes_resolve value r] at hdistance
    rw [hacc.distance rfl]
    exact hdistance.trans (by rw [Resolver.distance?, scopes_resolve]; rfl)
  | .call _ _ _, _, _, _, .call he hs, hacc, h => by
    have hcallee := resolve_renamed hR he hacc.part h
    have harguments := resolveAll_renamed hR hs hacc.part hcallee
    exact harguments
  | .set _ _ _, _, _, _, .set ho hv, hacc, h => by
    have hvalue := resolve_renamed hR hv hacc.part h
    have hobject := resolve_renamed hR ho hacc.part hvalue
    exact hobject
  | .thisRef id word, _, r, r', .thisRef _ hword, _, h => by
    have hkind : r'.classKind = r.classKind := by rw [h.rest]
    have hrecord := record_renamed id hR.old.1.symm hR.new.1.symm h
    simp only [resolve, hkind, hword]
    split
    · exact h.reportIf true word .thisOutsideClass
    · exact hrecord
  | .superRef id word _, _, r, r', .superRef _ hword _, _, h => by
    have hkind : r'.classKind = r.classKind := by rw [h.rest]
    have hreported :=
      (h.reportIf (r.classKind == .none) word .superOutsideClass).reportIf
        (r.classKind == .plain) word .superWithoutSuperclass
    have hrecord := record_renamed id hR.old.2.symm hR.new.2.symm hreported
    have hkept (r : Resolver) (broken : Bool) (fault : StaticFault) :
        (r.reportIf broken word fault).classKind = r.classKind := by cases broken <;> rfl
    simpa only [resolve, hkept, hkind, hword] using hrecord

theorem resolveAll_renamed (hR : R.Proper) :
    ∀ {es es' : List Expr} {r r' : Resolver}, RenamedAll R marks es es' →
      Visit.Accepted R.distances ⟨.exprs es, r⟩ → Resolver.Renamed R marks r r' →
    Resolver.Renamed R marks (resolveAll es r) (resolveAll es' r')
  | [], _, _, _, .nil, _, h => h
  | _ :: _, _, _, _, .cons he hs, hacc, h => by
    have hfirst := resolve_renamed hR he hacc.part h
    have hrest := resolveAll_renamed hR hs hacc.part hfirst
    exact hrest

end

end Expr

/-! ## Declarations -/

theorem Renaming.Keeps.token_eq {t : Token} (h : R.Keeps marks t.lexeme) :
    R.token marks.here t = t := by
  rw [token, h.name_eq]

theorem Renaming.Keeps.of_unmarked (hmarks : marks.Unmarked) (hn : n ≠ R.new) :
    R.Keeps marks n := by
  refine ⟨hn, fun hhere => ?_⟩
  rw [hmarks.here_eq] at hhere
  cases hhere

theorem NameTable.Renames.synthetic {word : String} (h : R.new ≠ word) :
    Renames R false (Resolver.synthetic word) (Resolver.synthetic word) := by
  refine .self ?_
  rw [Resolver.synthetic, find?_insert, if_neg h]
  rfl

/-- Where the superclass of a class is looked at without error, the class has been declared without
error. -/
theorem Resolver.declare_clean_of_atSuperclass (h : (r.atSuperclass name e).errors = []) :
    (({ r with classKind := .plain }.declare name).define name).errors = [] := by
  cases e with
  | «variable» id superName => exact (touches_reportIf _ _ _ _).clean h
  | _ => exact h

namespace Resolver.Renamed

variable {r r' : Resolver}

variable (h : Renamed R marks r r')

include h

/-- A function or a class is declared under its name. -/
theorem declareKept (hR : R.new ≠ R.old) (hname : R.Keeps marks name.lexeme)
    (hclean : ((r.declare name).define name).errors = []) :
    Renamed R marks ((r.declare name).define name) ((r'.declare name).define name) := by
  have hdeclared :=
    (h.declare hR hname.fresh ((touches_define _ name).clean hclean)).define hR hname.fresh
  rwa [hname.token_eq] at hdeclared

theorem enterFunction (hR : R.new ≠ R.old) (kind : FunctionKind) {params : List Token}
    (hparams : ∀ p ∈ params, p.lexeme ≠ R.new)
    (hclean : (r.enterFunction kind params).errors = []) :
    Renamed R (here :: marks) (r.enterFunction kind params) (r'.enterFunction kind
      (params.map (R.token here))) :=
  ((h.withFunctionKind kind).push .empty).introduce hR hparams hclean

theorem enterPlainClass (hR : R.Proper) (hname : R.Keeps marks name.lexeme)
    (hclean : (r.enterClass name none).errors = []) :
    Renamed R (false :: marks) (r.enterClass name none) (r'.enterClass name none) :=
  ((h.withClassKind .plain).declareKept hR.ne hname hclean).push (.synthetic hR.new.1)

/-- A class that does not inherit from itself does not do so in the renamed tree, where a renamed
superclass has a name that no class has. -/
theorem atSuperclass (hR : R.Proper) (hname : R.Keeps marks name.lexeme) {e' : Expr}
    (he : e.Renamed R marks e') (hvar : ∃ id superName, e = .variable id superName)
    (hclean : (r.atSuperclass name e).errors = []) :
    Renamed R marks (r.atSuperclass name e) (r'.atSuperclass name e') := by
  obtain ⟨id, superName, rfl⟩ := hvar
  cases he with
  | «variable» hsuper =>
    have hflag : (superName.lexeme == name.lexeme) = false := reportIf_clean hclean
    have hflag' : (R.name (marks.at? R.distances[id]?) superName.lexeme == name.lexeme) =
        false := by
      rw [Renaming.name]
      split
      · simpa using hname.fresh.symm
      · exact hflag
    have hbefore := declare_clean_of_atSuperclass hclean
    have hdeclared :=
      ((h.withClassKind .plain).declareKept hR.ne hname hbefore).withClassKind .subclass
    simpa only [Resolver.atSuperclass, Renaming.lexeme_token, hflag, hflag', Resolver.reportIf,
      Bool.false_eq_true, if_false] using hdeclared

theorem enterSubclass (hR : R.Proper) (hname : R.Keeps marks name.lexeme) {e' : Expr}
    (he : e.Renamed R marks e') (hvar : ∃ id superName, e = .variable id superName)
    (hacc : Visit.Accepted R.distances ⟨.expr e, r.atSuperclass name e⟩) :
    Renamed R (false :: false :: marks) (r.enterClass name (some e))
      (r'.enterClass name (some e')) := by
  have hat := h.atSuperclass hR hname he hvar ((Expr.touches_resolve e _).clean hacc.clean)
  have hlooked := Expr.resolve_renamed hR he hacc hat
  rw [enterClass_some, enterClass_some]
  exact (hlooked.push (.synthetic hR.new.2)).push (.synthetic hR.new.1)

theorem atReturn (word : Token) (value : Option Expr) {value' : Option Expr}
    (hvalue : value'.isSome = value.isSome) :
    Renamed R marks (r.atReturn word value) (r'.atReturn word value') := by
  have hkind : r'.functionKind = r.functionKind := by rw [h.rest]
  have hkept (r : Resolver) (broken : Bool) (fault : StaticFault) :
      (r.reportIf broken word fault).functionKind = r.functionKind := by cases broken <;> rfl
  simp only [Resolver.atReturn, hkept, hkind, hvalue]
  exact (h.reportIf _ word _).reportIf _ word _

end Resolver.Renamed

/-! ## Statements -/

namespace Stmt

mutual

/-- Looking at a renamed statement leads to what is known in the renamed tree. -/
theorem resolve_renamed (hR : R.Proper) :
    ∀ {marks : Marks} (s : Stmt) {s' : Stmt} {r r' : Resolver}, s.Renamed R marks s' →
      Visit.Accepted R.distances ⟨.stmt s, r⟩ → Resolver.Renamed R marks r r' →
    Resolver.Renamed R marks (s.resolve r) (s'.resolve r')
  | _, .expression _, _, _, _, hs, hacc, h => by
    cases hs with
    | expression he => exact Expr.resolve_renamed hR he hacc.part h
  | _, .print _, _, _, _, hs, hacc, h => by
    cases hs with
    | print he => exact Expr.resolve_renamed hR he hacc.part h
  | _, .var name none, _, _, _, hs, hacc, h => by
    cases hs with
    | var hname =>
      have hclean := (Resolver.touches_define _ name).clean hacc.clean
      exact (h.declare hR.ne hname hclean).define hR.ne hname
  | _, .var name (some e), _, r, _, hs, hacc, h => by
    cases hs with
    | initialized hname he =>
      -- A walk only adds reports, so if there is none at its end, there is none where it declares
      -- the name.
      have hpart :
          Visit.Accepted R.distances ⟨.expr e, (r.declare name).beginInitializer name.lexeme⟩ :=
        hacc.part
      have hclean :=
        (Resolver.touches_beginInitializer _ _).clean ((Expr.touches_resolve e _).clean hpart.clean)
      have hvalue :=
        Expr.resolve_renamed hR he hpart ((h.declare hR.ne hname hclean).beginInitializer hname)
      exact hvalue.endInitializer.define hR.ne hname
  | _, .block body, _, _, _, hs, hacc, h => by
    cases hs with
    | block _ hbody =>
      have hinside := resolveAll_renamed hR body hbody hacc.part (h.push .empty)
      exact hinside.pop h.scopes.ne_nil
  | _, .ifThen _ s, _, _, _, hs, hacc, h => by
    cases hs with
    | ifThen he hs =>
      have hcondition := Expr.resolve_renamed hR he hacc.part h
      have hbody := resolve_renamed hR s hs hacc.part hcondition
      exact hbody
  | _, .ifThenElse _ s t, _, _, _, hs, hacc, h => by
    cases hs with
    | ifThenElse he hs ht =>
      have hcondition := Expr.resolve_renamed hR he hacc.part h
      have hthen := resolve_renamed hR s hs hacc.part hcondition
      have helse := resolve_renamed hR t ht hacc.part hthen
      exact helse
  | _, .whileLoop _ s, _, _, _, hs, hacc, h => by
    cases hs with
    | whileLoop he hs =>
      have hcondition := Expr.resolve_renamed hR he hacc.part h
      have hbody := resolve_renamed hR s hs hacc.part hcondition
      exact hbody
  | _, .function d, _, r, _, hs, hacc, h => by
    cases hs with
    | function hname hd =>
      have hpart : Visit.Accepted R.distances ⟨.function .function d,
          (r.declare d.name).define d.name⟩ := hacc.part
      have hclean := (touches_resolveFunction .function d _).clean hpart.clean
      have hinside :=
        resolveFunction_renamed hR .function d hd hpart (h.declareKept hR.ne hname hclean)
      simpa only [resolve, hd.name_eq] using hinside
  | _, .returnWith word none, _, r, r', hs, _, h => by
    cases hs with
    | returnNothing => exact h.atReturn word none rfl
  | _, .returnWith word (some e), _, _, _, hs, hacc, h => by
    cases hs with
    | returnValue he =>
      have hvalue := Expr.resolve_renamed hR he hacc.part
        (h.atReturn word (some e) rfl)
      exact hvalue
  | _, .classDef name none ds, _, r, r', hs, hacc, h => by
    cases hs with
    | plainClass hname hds =>
      have hpart : Visit.Accepted R.distances ⟨.methods ds, r.enterClass name none⟩ := hacc.part
      have hentered := h.enterPlainClass hR hname ((touches_resolveMethods ds _).clean hpart.clean)
      have hinside := resolveMethods_renamed hR ds hds hpart hentered
      have hkind : r'.classKind = r.classKind := by rw [h.rest]
      rw [resolve, resolve, hkind]
      exact (hinside.pop h.scopes.ne_nil).withClassKind _
  | _, .classDef name (some e) ds, _, r, r', hs, hacc, h => by
    cases hs with
    | subclass hname he hds =>
      have hentered := h.enterSubclass hR hname he (hacc.formed.2.1 e rfl) hacc.part
      have hinside := resolveMethods_renamed hR ds hds hacc.part hentered
      have hkind : r'.classKind = r.classKind := by rw [h.rest]
      rw [resolve, resolve, hkind]
      exact ((hinside.pop (List.cons_ne_nil _ _)).pop h.scopes.ne_nil).withClassKind _
termination_by structural _ s => s

theorem resolveFunction_renamed (hR : R.Proper) :
    ∀ {marks : Marks} (kind : FunctionKind) (d : FunctionDecl) {d' : FunctionDecl}
      {r r' : Resolver}, RenamedFunction R marks d d' →
    Visit.Accepted R.distances ⟨.function kind d, r⟩ → Resolver.Renamed R marks r r' →
    Resolver.Renamed R marks (resolveFunction kind d r) (resolveFunction kind d' r')
  | _, kind, ⟨_, params, body⟩, _, r, r', hd, hacc, h => by
    cases hd with
    | mk here hparams hbody =>
      have hpart : Visit.Accepted R.distances ⟨.stmts body, r.enterFunction kind params⟩ :=
        hacc.part
      have hclean := (touches_resolveAll body _).clean hpart.clean
      have hinside :=
        resolveAll_renamed hR body hbody hpart (h.enterFunction hR.ne kind hparams hclean)
      have hkind : r'.functionKind = r.functionKind := by rw [h.rest]
      rw [resolveFunction, resolveFunction, hkind]
      exact (hinside.pop h.scopes.ne_nil).withFunctionKind _
termination_by structural _ _ d => d

theorem resolveAll_renamed (hR : R.Proper) :
    ∀ {marks : Marks} (body : List Stmt) {body' : List Stmt} {r r' : Resolver},
      RenamedAll R marks body body' → Visit.Accepted R.distances ⟨.stmts body, r⟩ →
    Resolver.Renamed R marks r r' →
      Resolver.Renamed R marks (resolveAll body r) (resolveAll body' r')
  | _, [], _, _, _, hbody, _, h => by
    cases hbody
    exact h
  | _, s :: rest, _, _, _, hbody, hacc, h => by
    cases hbody with
    | cons hs hrest =>
      have hfirst := resolve_renamed hR s hs hacc.part h
      have hlater := resolveAll_renamed hR rest hrest hacc.part hfirst
      exact hlater
termination_by structural _ body => body

theorem resolveMethods_renamed (hR : R.Proper) :
    ∀ {marks : Marks} (ds : List FunctionDecl) {ds' : List FunctionDecl} {r r' : Resolver},
      RenamedMethods R marks ds ds' → Visit.Accepted R.distances ⟨.methods ds, r⟩ →
    Resolver.Renamed R marks r r' →
      Resolver.Renamed R marks (resolveMethods ds r) (resolveMethods ds' r')
  | _, [], _, _, _, hds, _, h => by
    cases hds
    exact h
  | _, d :: rest, _, _, _, hds, hacc, h => by
    cases hds with
    | cons hd hrest =>
      have hfirst := resolveFunction_renamed hR (Resolver.methodKind d.name) d hd hacc.part h
      have hlater := resolveMethods_renamed hR rest hrest hacc.part hfirst
      simpa only [resolveMethods, hd.name_eq] using hlater
termination_by structural _ ds => ds

end

end Stmt

/-! ## One local variable -/

namespace Visit.Accepted

variable {D : Distances} {r : Resolver}

/-- A local name is declared once. -/
theorem isDeclaredHere_eq (h : Accepted D ⟨.stmt s, r⟩) (hname : s.declares? = some name) :
    r.isDeclaredHere name.lexeme = false := by
  have hdeclare (r : Resolver) (hclean : (r.declare name).errors = []) :
      r.isDeclaredHere name.lexeme = false :=
    Resolver.reportIf_clean hclean
  cases s with
  | var _ initializer =>
    cases hname
    refine hdeclare r ?_
    cases initializer with
    | none => exact (Resolver.touches_define _ name).clean h.clean
    | some e =>
      have hvalue : Accepted D ⟨.expr e, (r.declare name).beginInitializer name.lexeme⟩ := h.part
      exact (Resolver.touches_beginInitializer _ _).clean
        ((Expr.touches_resolve e _).clean hvalue.clean)
  | function d =>
    cases hname
    have hinside : Accepted D ⟨.function .function d, (r.declare d.name).define d.name⟩ := h.part
    exact hdeclare r
      ((Resolver.touches_define _ _).clean
        ((Stmt.touches_resolveFunction _ d _).clean hinside.clean))
  | classDef _ superclass ds =>
    cases hname
    refine hdeclare { r with classKind := .plain } ((Resolver.touches_define _ name).clean ?_)
    cases superclass with
    | none =>
      have hinside : Accepted D ⟨.methods ds, r.enterClass name none⟩ := h.part
      have hentered := (Stmt.touches_resolveMethods ds _).clean hinside.clean
      exact hentered
    | some e =>
      have hvalue : Accepted D ⟨.expr e, r.atSuperclass name e⟩ := h.part
      exact Resolver.declare_clean_of_atSuperclass ((Expr.touches_resolve e _).clean hvalue.clean)
  | _ => cases hname

/-- A local statement leaves a scope that has what the scope had before, and the name that it
declares. -/
theorem scope_after (h : Accepted D ⟨.stmt s, r⟩) (hscopes : r.scopes = t :: Γ) :
    ∃ t', (s.resolve r).scopes = t' :: Γ ∧
      (∀ n, t.contains n = true → t'.contains n = true) ∧
      ∀ name, s.declares? = some name → t'.contains name.lexeme = true := by
  rw [Stmt.scopes_resolve h.formed, hscopes, Stmt.scopesAfter]
  cases s.declares? with
  | none => exact ⟨t, rfl, fun _ hn => hn, fun _ hname => nomatch hname⟩
  | some name =>
    have hfind (n : String) : (t.insert name.lexeme true).contains n =
        (decide (n = name.lexeme) || t.contains n) := by
      by_cases heq : n = name.lexeme <;> simp [NameTable.contains, NameTable.find?_insert, heq]
    refine ⟨t.insert name.lexeme true, rfl, fun n hn => ?_, fun other hother => ?_⟩
    · rw [hfind, hn, Bool.or_true]
    · cases hother
      simp [hfind]

/-- A name that the innermost scope has is not declared again. -/
theorem notMem_declared (h : Accepted D ⟨.stmts body, r⟩) (hscopes : r.scopes = t :: Γ)
    (hn : t.contains n = true) : n ∉ Stmt.declared body := by
  induction body generalizing r t with
  | nil => simp [Stmt.declared]
  | cons s rest ih =>
    have hs : Accepted D ⟨.stmt s, r⟩ := h.part
    obtain ⟨t', hscopes', hkept, -⟩ := hs.scope_after hscopes
    have hrest := ih h.part hscopes' (hkept n hn)
    cases hname : s.declares? with
    | none => simpa [Stmt.declared, hname] using hrest
    | some name =>
      have hne : n ≠ name.lexeme := by
        intro heq
        have hnot := hs.isDeclaredHere_eq hname
        simp only [Resolver.isDeclaredHere, hscopes, ← heq, hn] at hnot
        cases hnot
      have hdeclared : Stmt.declared (s :: rest) =
          name.lexeme :: Stmt.declared rest := by simp [Stmt.declared, hname]
      rw [hdeclared, List.mem_cons, not_or]
      exact ⟨hne, hrest⟩

end Visit.Accepted

namespace Stmt

variable {D : Distances} {d : FunctionDecl}

theorem declares?_of_varName? (h : s.varName? = some n) :
    s.definition? = none ∧ ∃ name, s.declares? = some name ∧ name.lexeme = n := by
  cases s <;> cases h
  exact ⟨rfl, _, rfl, rfl⟩

theorem declares?_of_definition? (h : s.definition? = some n) :
    ∃ name, s.declares? = some name ∧ name.lexeme = n := by
  cases s <;> cases h <;> exact ⟨_, rfl, rfl⟩

theorem mem_declared_of_varNames (h : n ∈ varNames body) : n ∈ declared body := by
  obtain ⟨s, hs, hn⟩ := List.mem_filterMap.mp h
  obtain ⟨-, name, hname, rfl⟩ := declares?_of_varName? hn
  exact mem_declared hs hname

theorem mem_declared_of_definitions (h : n ∈ definitions body) : n ∈ declared body := by
  obtain ⟨s, hs, hn⟩ := List.mem_filterMap.mp h
  obtain ⟨name, hname, rfl⟩ := declares?_of_definition? hn
  exact mem_declared hs hname

/-- **In a local scope, no function and no class has the name of a variable.** -/
theorem notMem_definitions (h : Visit.Accepted D ⟨.stmts body, r⟩) (hscopes : r.scopes = t :: Γ)
    (hn : n ∈ varNames body) : n ∉ definitions body := by
  induction body generalizing r t with
  | nil => cases hn
  | cons s rest ih =>
    have hs : Visit.Accepted D ⟨.stmt s, r⟩ := h.part
    have hrest : Visit.Accepted D ⟨.stmts rest, s.resolve r⟩ := h.part
    obtain ⟨t', hscopes', -, hdeclared⟩ := hs.scope_after hscopes
    have honce (name : Token) (hname : s.declares? = some name) : name.lexeme ∉ declared rest :=
      hrest.notMem_declared hscopes' (hdeclared name hname)
    intro hdef
    have hvar : s.varName? = some n ∨ n ∈ varNames rest := by
      simpa [varNames] using hn
    have hdef : s.definition? = some n ∨ n ∈ definitions rest := by
      simpa [definitions] using hdef
    rcases hvar with hvar | hvar <;> rcases hdef with hdef | hdef
    · rw [(declares?_of_varName? hvar).1] at hdef
      cases hdef
    · obtain ⟨-, name, hname, rfl⟩ := declares?_of_varName? hvar
      exact honce name hname (mem_declared_of_definitions hdef)
    · obtain ⟨name, hname, rfl⟩ := declares?_of_definition? hdef
      exact honce name hname (mem_declared_of_varNames hvar)
    · exact ih hrest hscopes' hvar hdef

/-- In the scope of a function, no function and no class has the name of a parameter or a
variable. -/
theorem notMem_definitions_function {kind : FunctionKind}
    (h : Visit.Accepted D ⟨.function kind d, r⟩) (hn : n ∈ d.varNames) :
    n ∉ definitions d.body := by
  have hbody : Visit.Accepted D ⟨.stmts d.body, r.enterFunction kind d.params⟩ := h.part
  have hscopes := r.scopes_enterFunction kind d.params
  rcases List.mem_append.mp hn with hparam | hvar
  · have hcontains : (Resolver.paramScope d.params).contains n = true := by
      rw [NameTable.contains, Resolver.find?_paramScope, if_pos hparam]
      rfl
    exact fun hdef => hbody.notMem_declared hscopes hcontains (mem_declared_of_definitions hdef)
  · exact notMem_definitions hbody hscopes hvar

/-- Statements of which one is changed. -/
theorem renamedAll_append (hmarks : marks.Unmarked) {before after : List Stmt} {s' : Stmt}
    (h : Visit.Accepted D ⟨.stmts (before ++ s :: after), r⟩)
    (hnew : R.new ∉ namesAll (before ++ s :: after))
    (hs : ∀ r, Visit.Accepted D ⟨.stmt s, r⟩ → R.new ∉ s.names → s.Renamed R marks s') :
    RenamedAll R marks (before ++ s :: after) (before ++ s' :: after) := by
  induction before generalizing r with
  | nil =>
    simp only [List.nil_append, namesAll, List.mem_append, not_or] at hnew
    exact .cons (hs r (h.part (.head _)) hnew.1) (renamedAll_self hmarks h.formed.2 hnew.2)
  | cons t rest ih =>
    simp only [List.cons_append, namesAll, List.mem_append, not_or] at hnew
    exact .cons (renamed_self hmarks h.formed.1 hnew.1) (ih (h.part (.tail _ (.head _))) hnew.2)

/-- Methods of which one is changed. -/
theorem renamedMethods_append (hmarks : marks.Unmarked) {before after : List FunctionDecl}
    {d' : FunctionDecl} (h : Visit.Accepted D ⟨.methods (before ++ d :: after), r⟩)
    (hnew : R.new ∉ methodNames (before ++ d :: after))
    (hd : ∀ kind r, Visit.Accepted D ⟨.function kind d, r⟩ → R.new ∉ functionNames d →
      RenamedFunction R marks d d') :
    RenamedMethods R marks (before ++ d :: after) (before ++ d' :: after) := by
  induction before generalizing r with
  | nil =>
    simp only [List.nil_append, methodNames, List.mem_append, not_or] at hnew
    exact .cons (hd _ r (h.part (.head _)) hnew.1) (renamedMethods_self hmarks h.formed.2 hnew.2)
  | cons t rest ih =>
    simp only [List.cons_append, methodNames, List.mem_append, not_or] at hnew
    exact .cons (renamedFunction_self hmarks h.formed.1 hnew.1)
      (ih (h.part (.tail _ (.head _))) hnew.2)

/-- A class of which one method is changed. -/
theorem renamed_classDef (hmarks : marks.Unmarked) {superclass : Option Expr}
    {before after : List FunctionDecl} {d' : FunctionDecl}
    (h : Visit.Accepted D ⟨.stmt (.classDef name superclass (before ++ d :: after)), r⟩)
    (hnew : R.new ∉ (classDef name superclass (before ++ d :: after)).names)
    (hd : ∀ kind r, Visit.Accepted D ⟨.function kind d, r⟩ → R.new ∉ functionNames d →
      RenamedFunction R (marks.inClass superclass) d d') :
    Renamed R marks (.classDef name superclass (before ++ d :: after))
      (.classDef name superclass (before ++ d' :: after)) := by
  cases superclass with
  | none =>
    simp only [names, List.mem_cons, not_or] at hnew
    refine .plainClass (.of_unmarked hmarks (Ne.symm hnew.1)) ?_
    exact renamedMethods_append hmarks.cons (h.part (.head _)) hnew.2 hd
  | some e =>
    simp only [names, List.mem_cons, List.mem_append, not_or] at hnew
    have he : e.Formed := by
      obtain ⟨id, superName, rfl⟩ := h.formed.2.1 e rfl
      trivial
    refine .subclass (.of_unmarked hmarks (Ne.symm hnew.1)) (Expr.renamed_self hmarks he hnew.2.1)
      ?_
    exact renamedMethods_append hmarks.cons.cons (h.part (.tail _ (.head _))) hnew.2.2 hd

mutual

/-- **Renaming one local variable renames the variables of marked scopes.** -/
theorem RenamesLocal.renamed {D : Distances} : ∀ {marks : Marks} {s s' : Stmt} {r : Resolver},
    RenamesLocal R marks s s' → marks.Unmarked → Visit.Accepted D ⟨.stmt s, r⟩ → R.new ∉ s.names →
    s.Renamed R marks s'
  | _, _, _, _, .here h, _, hacc, hnew =>
    .block true
      (renamedAll_renameAll hacc.formed hnew fun _ =>
        notMem_definitions (hacc.part (.head _)) rfl h)
  | _, _, _, _, .block h, hmarks, hacc, hnew =>
    .block false (renamedAll_append hmarks.cons (hacc.part (.head _)) hnew
      fun _ hs hnames => h.renamed hmarks.cons hs hnames)
  | _, _, _, _, .ifThen h, hmarks, hacc, hnew => by
    simp only [names, List.mem_append, not_or] at hnew
    exact .ifThen (Expr.renamed_self hmarks hacc.formed.1 hnew.1)
      (h.renamed hmarks (hacc.part (.tail _ (.head _))) hnew.2)
  | _, _, _, _, .thenBranch h, hmarks, hacc, hnew => by
    simp only [names, List.mem_append, not_or] at hnew
    exact .ifThenElse (Expr.renamed_self hmarks hacc.formed.1 hnew.1)
      (h.renamed hmarks (hacc.part (.tail _ (.head _))) hnew.2.1)
      (renamed_self hmarks hacc.formed.2.2.2 hnew.2.2)
  | _, _, _, _, .elseBranch h, hmarks, hacc, hnew => by
    simp only [names, List.mem_append, not_or] at hnew
    exact .ifThenElse (Expr.renamed_self hmarks hacc.formed.1 hnew.1)
      (renamed_self hmarks hacc.formed.2.1.2 hnew.2.1)
      (h.renamed hmarks (hacc.part (.tail _ (.tail _ (.head _)))) hnew.2.2)
  | _, _, _, _, .whileLoop h, hmarks, hacc, hnew => by
    simp only [names, List.mem_append, not_or] at hnew
    exact .whileLoop (Expr.renamed_self hmarks hacc.formed.1 hnew.1)
      (h.renamed hmarks (hacc.part (.tail _ (.head _))) hnew.2)
  | _, _, _, _, .function h, hmarks, hacc, hnew => by
    simp only [names, List.mem_cons, not_or] at hnew
    exact .function (.of_unmarked hmarks (Ne.symm hnew.1))
      (h.renamed hmarks (hacc.part (.head _)) hnew.2)
  | _, _, _, _, .method h, hmarks, hacc, hnew =>
    renamed_classDef hmarks hacc hnew fun _ _ hd hnames => h.renamed (hmarks.inClass _) hd hnames

theorem RenamesLocalFunction.renamed {D : Distances} :
    ∀ {marks : Marks} {d d' : FunctionDecl} {kind : FunctionKind} {r : Resolver},
      RenamesLocalFunction R marks d d' → marks.Unmarked → Visit.Accepted D ⟨.function kind d, r⟩ →
    R.new ∉ functionNames d → RenamedFunction R marks d d'
  | _, _, _, _, _, .here h, _, hacc, hnew =>
    renamedFunction_renameFunction hacc.formed hnew fun _ => notMem_definitions_function hacc h
  | _, ⟨name, params, _⟩, _, _, _, .body h, hmarks, hacc, hnew => by
    simp only [functionNames, List.mem_append, not_or] at hnew
    have hparams : params.map (R.token false) = params := List.map_id params
    have hbody := renamedAll_append hmarks.cons (hacc.part (.head _)) hnew.2
      fun _ hs hnames => h.renamed hmarks.cons hs hnames
    have hfunction : RenamedFunction R _ ⟨name, params, _⟩ ⟨name, params.map (R.token false), _⟩ :=
      .mk false (fun p hp heq => hnew.1 (heq ▸ List.mem_map_of_mem hp)) hbody
    rwa [hparams] at hfunction

end

end Stmt

end Lox
