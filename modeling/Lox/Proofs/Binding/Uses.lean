import Lox.Proofs.Binding.Rules
import Lox.Proofs.Pieces.Walk

/-!
# Uses follow the outline

What the walk over a program knows at a use of a name is what the marks before it say: its scopes
are those around the place with the names declared so far (`Outline.Describes`), the kinds of
function and class are those of the nearest ones (`Resolver.KindsAt`), and it knows in the initial
value of which variable it is (`Resolver.AtUse`). So at each use in an expression it reports and
records what the rules ask for (`Expr.atUse_resolve`).
-/

namespace Lox

namespace Outline

/-! ## Scopes -/

/-- The scopes are those around the place, with the names declared before it. -/
structure Describes (A : List Mark) (Γ : Scopes) : Prop where
  depth : ∀ d, d < Γ.length ↔ ∃ o, Around A d o
  declared : ∀ d name, Declared A d name ↔ ∃ t, Γ[d]? = some t ∧ t.contains name = true

namespace Describes

variable {A M : List Mark} {Γ : Scopes} {m : Mark} {name : String}

theorem nil : Describes [] [] where
  depth d := by simp [Around, behind_nil]
  declared d name := by simp [Declared, Around, behind_nil]

variable (h : Describes A Γ)

include h

/-- No scope is open exactly at the top. -/
theorem nil_iff : Γ = [] ↔ AtTop A := by
  constructor
  · rintro rfl d o ho
    exact absurd ((h.depth d).mpr ⟨o, ho⟩) (Nat.not_lt_zero d)
  · intro htop
    refine List.eq_nil_of_length_eq_zero (Nat.eq_zero_of_not_pos fun hpos => ?_)
    obtain ⟨o, ho⟩ := (h.depth 0).mp hpos
    exact htop 0 o ho

theorem beside (hm : ∀ d, m.move d = some d) (hname : m.name? = none) : Describes (A ++ [m]) Γ where
  depth d := by simp only [around_beside hm, h.depth]
  declared d name := by simp [declared_beside hm, hname, h.declared]

theorem append_uses (hM : ∀ m ∈ M, m.use?.isSome = true) : Describes (A ++ M) Γ := by
  induction M using List.reverseRecOn with
  | nil => simpa using h
  | append_singleton M m ih =>
    obtain ⟨hmove, hname, -⟩ := Mark.beside_of_use? (hM m (by simp))
    rw [← List.append_assoc]
    exact (ih fun n hn => hM n (by simp [hn])).beside hmove hname

/-- A declaration marks its name in the innermost scope. -/
theorem mark (hm : ∀ d, m.move d = some d) (hname : m.name? = some name) (b : Bool) :
    Describes (A ++ [m]) (Γ.mark name b) where
  depth d := by simp only [around_beside hm, Scopes.length_mark, h.depth]
  declared d other := by
    rw [declared_beside hm, h.declared, hname, ← h.depth 0]
    cases Γ with
    | nil => simp [Scopes.mark]
    | cons t Γ =>
      cases d with
      | zero =>
        by_cases hother : other = name
        · simp [Scopes.mark, NameTable.contains, NameTable.find?_insert, hother]
        · simp [Scopes.mark, NameTable.contains, NameTable.find?_insert, hother, Ne.symm hother]
      | succ d => simp [Scopes.mark]

/-- A new scope holds no names. -/
theorem opens (o : Opening) : Describes (A ++ [Mark.opens o]) (∅ :: Γ) where
  depth d := by
    cases d with
    | zero => simp [around_opens]
    | succ d => simpa [around_opens] using h.depth d
  declared d name := by
    cases d with
    | zero =>
      simp [declared_opens, NameTable.contains, EmptyCollection.emptyCollection,
        NameTable.find?_empty]
    | succ d => simpa [declared_opens] using h.declared d name

/-- Leaving a scope drops its names. -/
theorem closes : Describes (A ++ [Mark.closes]) Γ.tail where
  depth d := by
    simp only [around_closes, ← h.depth, List.length_tail]
    omega
  declared d name := by simp [declared_closes, h.declared]

/-- The distance that the walk finds is the address. -/
theorem distance?_eq_some_iff {d : Nat} :
    Scopes.distance? Γ name = some d ↔ IsAddress A name d := by
  rw [Scopes.distance?, List.findIdx?_eq_some_iff_getElem, IsAddress]
  simp only [h.declared]
  constructor
  · rintro ⟨hlt, hd, hlow⟩
    refine ⟨⟨Γ[d], List.getElem?_eq_getElem hlt, hd⟩, ?_⟩
    rintro d' hd' ⟨t, ht, hcontains⟩
    obtain ⟨hlt', rfl⟩ := List.getElem?_eq_some_iff.mp ht
    exact hlow d' hd' hcontains
  · rintro ⟨⟨t, ht, hd⟩, hlow⟩
    obtain ⟨hlt, rfl⟩ := List.getElem?_eq_some_iff.mp ht
    exact ⟨hlt, hd, fun d' hd' hcontains =>
      hlow d' hd' ⟨Γ[d'], List.getElem?_eq_getElem (Nat.lt_trans hd' hlt), hcontains⟩⟩

end Describes

end Outline

open Outline

/-! ## Kinds -/

namespace Opening

/-- The kind of the nearest function. -/
def functionKind : Option Opening → FunctionKind
  | some (.function _) => .function
  | some (.method name) => Resolver.methodKind name
  | _ => .none

/-- The kind of the nearest class. -/
def classKind : Option Opening → ClassKind
  | some (.methods true) => .subclass
  | some (.methods false) => .plain
  | _ => .none

end Opening

namespace Outline.Nearest

variable {A : List Mark} {x : Option Opening}

theorem functionKind_eq_none (h : Nearest Opening.isFunction A x) :
    Opening.functionKind x = .none ↔ x = none := by
  cases x with
  | none => simp [Opening.functionKind]
  | some o =>
    cases o with
    | function => simp [Opening.functionKind]
    | method name =>
      by_cases hname : name.lexeme = "init" <;>
        simp [Opening.functionKind, Resolver.methodKind, hname]
    | _ => cases h.1

/-- The walk is in an initializer exactly in a method named `init`. -/
theorem functionKind_eq_initializer :
    Opening.functionKind x = .initializer ↔ ∃ name, x = some (.method name) ∧
      name.lexeme = "init" := by
  cases x with
  | none => simp [Opening.functionKind]
  | some o =>
    cases o with
    | method name =>
      by_cases hname : name.lexeme = "init" <;>
        simp [Opening.functionKind, Resolver.methodKind, hname]
    | _ => simp [Opening.functionKind]

theorem classKind_eq_none (h : Nearest Opening.isClass A x) :
    Opening.classKind x = .none ↔ x = none := by
  cases x with
  | none => simp [Opening.classKind]
  | some o =>
    cases o with
    | methods inherits => cases inherits <;> simp [Opening.classKind]
    | _ => cases h.1

/-- The walk is in a plain class exactly where the nearest class does not inherit. -/
theorem classKind_eq_plain : Opening.classKind x = .plain ↔ x = some (.methods false) := by
  cases x with
  | none => simp [Opening.classKind]
  | some o =>
    cases o with
    | methods inherits => cases inherits <;> simp [Opening.classKind]
    | _ => simp [Opening.classKind]

end Outline.Nearest

namespace Resolver

/-- The kinds of function and class are those of the nearest ones. -/
structure KindsAt (A : List Mark) (r : Resolver) : Prop where
  functionKind : ∃ x, Nearest Opening.isFunction A x ∧ r.functionKind = Opening.functionKind x
  classKind : ∃ x, Nearest Opening.isClass A x ∧ r.classKind = Opening.classKind x

variable {isGlobal : String → Bool} {D : Distances} {A M : List Mark} {m : Mark} {r r' : Resolver}

/-- Balanced marks keep the kinds. -/
theorem KindsAt.balanced (h : KindsAt A r) (hM : Balanced M) (hr : SameKinds r r') :
    KindsAt (A ++ M) r' := by
  obtain ⟨x, hx, hfunction⟩ := h.functionKind
  obtain ⟨y, hy, hclass⟩ := h.classKind
  exact ⟨⟨x, hM.nearest.mpr hx, hr.functionKind.trans hfunction⟩,
    ⟨y, hM.nearest.mpr hy, hr.classKind.trans hclass⟩⟩

/-! ## Uses -/

theorem errors_record (r : Resolver) (id : NodeId) (name : String) :
    (r.record id name).errors = r.errors := by
  unfold record
  split <;> rfl

theorem distances_reportIf (r : Resolver) (broken : Bool) (t : Token) (fault : StaticFault) :
    (r.reportIf broken t fault).distances = r.distances := by
  cases broken <;> rfl

theorem initializing_reportIf (r : Resolver) (broken : Bool) (t : Token) (fault : StaticFault) :
    (r.reportIf broken t fault).initializing = r.initializing := by
  cases broken <;> rfl

/-- What is known inside an expression agrees with the marks before the place. -/
structure AtUse (isGlobal : String → Bool) (D : Distances) (A : List Mark) (r : Resolver) :
    Prop where
  scopes : Describes A r.scopes
  ownLocal : ∀ name, r.isUndefinedHere name = true ↔ InOwnLocal A name
  ownGlobal : ∀ name, r.initializing = some name ↔ InOwnGlobal isGlobal A name
  onTop : ∀ name, r.initializing = some name → r.scopes = []
  errors : Faults isGlobal A r.errors
  distances : Records D A r.distances

namespace AtUse

variable (h : AtUse isGlobal D A r)

include h

/-- A use changes neither the scopes nor which variable is getting its initial value. -/
theorem step (hm : m.use?.isSome = true) (hscopes : r'.scopes = r.scopes)
    (hinitializing : r'.initializing = r.initializing)
    (herrors : Faults isGlobal (A ++ [m]) r'.errors)
    (hdistances : Records D (A ++ [m]) r'.distances) : AtUse isGlobal D (A ++ [m]) r' := by
  obtain ⟨hmove, hname, -⟩ := Mark.beside_of_use? hm
  have hsame (before : List Mark) (t : Token) : Initializing (A ++ [m]) before t ↔
      Initializing A before t :=
    initializing_append_uses (by simpa using hm)
  refine ⟨hscopes ▸ h.scopes.beside hmove hname, fun name => ?_, fun name => ?_, ?_, herrors,
    hdistances⟩
  · have hhere : r'.isUndefinedHere name =
        r.isUndefinedHere name := by rw [isUndefinedHere, isUndefinedHere, hscopes]
    simp only [InOwnLocal, hsame, hhere]
    exact h.ownLocal name
  · simp only [InOwnGlobal, hsame, hinitializing]
    exact h.ownGlobal name
  · rw [hinitializing, hscopes]
    exact h.onTop

/-- Whatever is reported at a use first, its distance is recorded. -/
theorem record {id : NodeId} {name : String} (hm : m.use? = some (id, name))
    (hclass : ∀ word, m = .usesThis id word → ¬Nearest Opening.isClass A none)
    (hscopes : r'.scopes = r.scopes) (hinitializing : r'.initializing = r.initializing)
    (hdistances : r'.distances = r.distances) (herrors : Faults isGlobal (A ++ [m]) r'.errors) :
    AtUse isGlobal D (A ++ [m]) (r'.record id name) := by
  refine h.step (by rw [hm]; rfl) ((scopes_record r' id name).trans hscopes)
    (((aloof_record id name).initializing r').trans hinitializing)
    (errors_record r' id name ▸ herrors) ?_
  have hrecords : Records D A r'.distances := hdistances ▸ h.distances
  refine hrecords.record hm hclass fun d => ?_
  have hdescribes : Describes A r'.scopes := hscopes ▸ h.scopes
  exact hdescribes.distance?_eq_some_iff

theorem reads (id : NodeId) (name : Token) :
    AtUse isGlobal D (A ++ [Mark.reads id name]) ((Expr.variable id name).resolve r) := by
  let r₁ := r.reportIf (r.isUndefinedHere name.lexeme) name .localInOwnInitializer
  have hinitializing : r₁.initializing = r.initializing := initializing_reportIf _ _ _ _
  have hone : InOwnLocal A name.lexeme → ¬InOwnGlobal isGlobal A name.lexeme := by
    intro hlocal hglobal
    have htop := h.onTop _ ((h.ownGlobal _).mpr hglobal)
    have hhere := (h.ownLocal _).mpr hlocal
    simp [isUndefinedHere, htop] at hhere
  have hglobal : (r₁.initializing == some name.lexeme) = true ↔
      InOwnGlobal isGlobal A name.lexeme := by
    rw [beq_iff_eq, hinitializing]
    exact h.ownGlobal _
  refine h.record rfl (fun _ hm => by cases hm) ?_ ?_ ?_
    (h.errors.reportIf_reportIf (h.ownLocal _) hglobal (fun _ => breaks_reads) hone)
  · rw [scopes_reportIf, scopes_reportIf]
  · rw [initializing_reportIf, initializing_reportIf]
  · rw [distances_reportIf, distances_reportIf]

theorem assigns (id : NodeId) (name : Token) :
    AtUse isGlobal D (A ++ [Mark.assigns id name]) (r.record id name.lexeme) :=
  h.record rfl (fun _ hm => by cases hm) rfl rfl rfl
    (h.errors.clean fun e he => by cases he; contradiction)

theorem usesThis (hkinds : KindsAt A r) (id : NodeId) {word : Token}
    (hword : word.lexeme = "this") :
    AtUse isGlobal D (A ++ [Mark.usesThis id word]) ((Expr.thisRef id word).resolve r) := by
  obtain ⟨x, hx, hclass⟩ := hkinds.classKind
  unfold Expr.resolve
  split
  · next hnone =>
    obtain rfl : x = none := hx.classKind_eq_none.mp (hclass.symm.trans hnone)
    refine h.step rfl rfl rfl ?_ ?_
    · exact h.errors.fault fun e => (breaks_usesThis hx).trans (and_iff_right rfl)
    · refine h.distances.missing fun id' d hd => ?_
      obtain ⟨name, hm, -⟩ := hd.address
      cases hm
      exact hd.inClass word rfl hx
  · next hsome =>
    rw [hword]
    have hx' : x ≠ none := fun hnone => hsome (hclass.trans (hx.classKind_eq_none.mpr hnone))
    exact h.record rfl (fun _ _ hnone => hx' (hx.unique hnone)) rfl rfl rfl
      (h.errors.clean fun e he => hx' ((breaks_usesThis hx).mp he).1)

theorem usesSuper (hkinds : KindsAt A r) (id : NodeId) {word : Token} (method : Token)
    (hword : word.lexeme = "super") :
    AtUse isGlobal D (A ++ [Mark.usesSuper id word]) ((Expr.superRef id word method).resolve
      r) := by
  obtain ⟨x, hx, hclass⟩ := hkinds.classKind
  let r₁ := r.reportIf (r.classKind == .none) word .superOutsideClass
  have hclass₁ : r₁.classKind = r.classKind := (r.kinds_reportIf _ _ _).classKind
  have hnone : (r.classKind == .none) = true ↔ x = none := by
    rw [beq_iff_eq, hclass]
    exact hx.classKind_eq_none
  have hplain : (r₁.classKind == .plain) = true ↔ x = some (.methods false) := by
    rw [beq_iff_eq, hclass₁, hclass]
    exact Nearest.classKind_eq_plain
  have hone : x = none → ¬x = some (.methods false) := by
    rintro rfl
    simp
  have hresolve : (Expr.superRef id word method).resolve r =
      (r₁.reportIf (r₁.classKind == .plain) word .superWithoutSuperclass).record id "super" := by
    rw [← hword]
    rfl
  rw [hresolve]
  refine h.record rfl (fun _ hm => by cases hm) ?_ ?_ ?_
    (h.errors.reportIf_reportIf hnone hplain (fun _ => breaks_usesSuper hx) hone)
  · rw [scopes_reportIf, scopes_reportIf]
  · rw [initializing_reportIf, initializing_reportIf]
  · rw [distances_reportIf, distances_reportIf]

end AtUse

end Resolver

namespace Expr

variable {isGlobal : String → Bool} {D : Distances}

open Resolver (AtUse KindsAt)

mutual

/-- The walk over an expression goes along its outline. -/
theorem atUse_resolve :
    ∀ (e : Expr) {A : List Mark} {r : Resolver}, e.Formed → AtUse isGlobal D A r → KindsAt A r →
      AtUse isGlobal D (A ++ e.outline) (e.resolve r)
  | .literal _, _, _, _, h, _ => by simpa [outline, resolve] using h
  | .grouping e, _, _, he, h, hk | .unary _ e, _, _, he, h, hk | .get e _, _, _, he, h, hk =>
    atUse_resolve e he h hk
  | .binary a _ b, _, r, ⟨ha, hb⟩, h, hk | .logical a _ b, _, r, ⟨ha, hb⟩, h, hk
  | .set b _ a, _, r, ⟨hb, ha⟩, h, hk => by
    rw [outline, ← List.append_assoc]
    exact atUse_resolve b hb (atUse_resolve a ha h hk)
      (hk.balanced a.balanced_outline (a.kinds_resolve r))
  | .variable id name, _, _, _, h, _ => h.reads id name
  | .assign id name value, _, _, he, h, hk => by
    rw [outline, ← List.append_assoc]
    exact (atUse_resolve value he h hk).assigns id name
  | .call callee _ arguments, _, r, ⟨hc, ha⟩, h, hk => by
    rw [outline, ← List.append_assoc]
    exact atUse_resolveAll arguments ha (atUse_resolve callee hc h hk)
      (hk.balanced callee.balanced_outline (callee.kinds_resolve r))
  | .thisRef id _, _, _, hword, h, hk => h.usesThis hk id hword
  | .superRef id _ method, _, _, hword, h, hk => h.usesSuper hk id method hword

theorem atUse_resolveAll : ∀ (es : List Expr) {A : List Mark} {r : Resolver}, FormedAll es →
      AtUse isGlobal D A r →
    KindsAt A r → AtUse isGlobal D (A ++ outlineAll es) (resolveAll es r)
  | [], _, _, _, h, _ => by simpa [outlineAll, resolveAll] using h
  | e :: rest, _, r, ⟨he, hrest⟩, h, hk => by
    rw [outlineAll, ← List.append_assoc]
    exact atUse_resolveAll rest hrest (atUse_resolve e he h hk)
      (hk.balanced e.balanced_outline (e.kinds_resolve r))

end

end Expr

end Lox
