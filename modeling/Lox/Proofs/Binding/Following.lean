import Lox.Proofs.Binding.Uses

/-!
# The walk follows the outline

What the walk over a program knows between two statements is what the marks before the place say
(`Resolver.AtStatement`). Each operation of the walk goes along with a mark: declaring a name,
entering a scope and leaving it again. So over a whole program it reports and records what the rules
ask for, mark by mark (`Stmt.atStatement_resolveAll`).

Inside an initial value the walk knows something else, as the variable is declared there and not
defined yet. That is left behind when the initial value is over
(`Resolver.AtStatement.initialized`).
-/

namespace Lox

open Outline

namespace Resolver

/-! ## Between statements -/

/-- What is known between statements agrees with the marks before the place. -/
structure AtStatement (isGlobal : String → Bool) (D : Distances) (A : List Mark) (r : Resolver) :
    Prop where
  scopes : Describes A r.scopes
  settled : Scopes.Settled r.scopes
  quiet : ∀ before t, ¬Initializing A before t
  defined : ∀ name, name ∈ r.defined ↔ DeclaredOnTop A name
  globals : r.isGlobal = isGlobal
  initializing : r.initializing = none
  errors : Faults isGlobal A r.errors
  distances : Records D A r.distances

theorem errors_mark (r : Resolver) (name : String) (b : Bool) :
    (r.mark name b).errors = r.errors := by
  unfold mark
  split <;> rfl

theorem distances_mark (r : Resolver) (name : String) (b : Bool) :
    (r.mark name b).distances = r.distances := by
  unfold mark
  split <;> rfl

theorem errors_define (r : Resolver) (name : Token) : (r.define name).errors = r.errors := by
  unfold define
  split
  · rfl
  · exact r.errors_mark _ _

theorem distances_define (r : Resolver) (name : Token) :
    (r.define name).distances = r.distances := by
  unfold define
  split
  · rfl
  · exact r.distances_mark _ _

theorem distances_declare (r : Resolver) (name : Token) :
    (r.declare name).distances = r.distances := by
  rw [declare, distances_reportIf, distances_mark]

theorem errors_beginInitializer (r : Resolver) (name : String) :
    (r.beginInitializer name).errors = r.errors := by
  unfold beginInitializer
  split <;> rfl

theorem distances_beginInitializer (r : Resolver) (name : String) :
    (r.beginInitializer name).distances = r.distances := by
  unfold beginInitializer
  split <;> rfl

namespace AtStatement

variable {isGlobal : String → Bool} {D : Distances} {A M : List Mark} {m : Mark} {r r' : Resolver}
  {t : Token}

variable (h : AtStatement isGlobal D A r)

include h

/-- The walk finds a name declared here exactly if a mark declares it here. -/
theorem isDeclaredHere_iff (name : String) : r.isDeclaredHere name = true ↔ Declared A 0 name := by
  rw [h.scopes.declared, isDeclaredHere]
  cases r.scopes <;> simp

/-- Between statements every name is defined. -/
theorem isUndefinedHere_eq (name : String) : r.isUndefinedHere name = false := by
  unfold isUndefinedHere
  split
  · next scope outer hscopes =>
    exact beq_false_of_ne (h.settled scope (hscopes ▸ List.mem_cons_self) name)
  · rfl

/-- Between statements a variable can be used. -/
theorem atUse : AtUse isGlobal D A r where
  scopes := h.scopes
  ownLocal name := by simp [h.isUndefinedHere_eq, InOwnLocal, h.quiet]
  ownGlobal name := by simp [h.initializing, InOwnGlobal, h.quiet]
  onTop name hname := by simp [h.initializing] at hname
  errors := h.errors
  distances := h.distances

/-- The kinds do not matter. -/
theorem withFunctionKind (kind : FunctionKind) :
    AtStatement isGlobal D A { r with functionKind := kind } :=
  ⟨h.scopes, h.settled, h.quiet, h.defined, h.globals, h.initializing, h.errors, h.distances⟩

theorem withClassKind (kind : ClassKind) : AtStatement isGlobal D A { r with classKind := kind } :=
  ⟨h.scopes, h.settled, h.quiet, h.defined, h.globals, h.initializing, h.errors, h.distances⟩

/-- After uses. -/
theorem of_atUse (hM : ∀ m ∈ M, m.use?.isSome = true) (hscopes : r'.scopes = r.scopes)
    (hgains : Gains [] r r') (h' : AtUse isGlobal D (A ++ M) r') :
    AtStatement isGlobal D (A ++ M) r' where
  scopes := h'.scopes
  settled := hscopes ▸ h.settled
  quiet before t := by
    rw [initializing_append_uses hM]
    exact h.quiet before t
  defined name := by
    rw [hgains.defined, List.nil_append, declaredOnTop_append_uses hM]
    exact h.defined name
  globals := hgains.isGlobal.trans h.globals
  initializing := hgains.initializing h.initializing
  errors := h'.errors
  distances := h'.distances

/-- After a mark that declares nothing. -/
theorem idle (hname : m.name? = none) (hscopes : Describes (A ++ [m]) r'.scopes)
    (hsettled : Scopes.Settled r'.scopes) (hgains : Gains [] r r')
    (herrors : Faults isGlobal (A ++ [m]) r'.errors)
    (hdistances : Records D (A ++ [m]) r'.distances) : AtStatement isGlobal D (A ++ [m]) r' where
  scopes := hscopes
  settled := hsettled
  quiet before t := by
    rw [initializing_concat]
    rintro (⟨rfl, -⟩ | ⟨ht, -⟩)
    · cases hname
    · exact h.quiet before t ht
  defined name := by
    rw [hgains.defined, List.nil_append, declaredOnTop_concat, hname]
    simpa using h.defined name
  globals := hgains.isGlobal.trans h.globals
  initializing := hgains.initializing h.initializing
  errors := herrors
  distances := hdistances

/-- After a declaration with its initial value, if it has one. -/
theorem declared {B : List Mark} (hscopes : r'.scopes = Scopes.mark r.scopes t.lexeme true)
    (hgains : Gains (gained r.scopes [t.lexeme]) r r')
    (hdescribes : Describes B (Scopes.mark r.scopes t.lexeme true))
    (hquiet : ∀ before u, ¬Initializing B before u)
    (htop : ∀ name, DeclaredOnTop B name ↔ DeclaredOnTop A name ∨ t.lexeme = name ∧ AtTop A)
    (herrors : Faults isGlobal B r'.errors) (hdistances : Records D B r'.distances) :
    AtStatement isGlobal D B r' where
  scopes := hscopes ▸ hdescribes
  settled := hscopes ▸ h.settled.mark t.lexeme
  quiet := hquiet
  defined name := by
    rw [hgains.defined, htop, List.mem_append, h.defined, ← h.scopes.nil_iff, gained]
    by_cases hnil : r.scopes = []
    · simp [hnil, or_comm, eq_comm]
    · simp [hnil]
  globals := hgains.isGlobal.trans h.globals
  initializing := hgains.initializing h.initializing
  errors := herrors
  distances := hdistances

/-- A declaration breaks a rule only by declaring a name again. -/
theorem faults_declare (hm : m.declaration? = some t) :
    Faults isGlobal (A ++ [m]) (r.declare t).errors := by
  have herrors : Faults isGlobal A (r.mark t.lexeme false).errors := r.errors_mark _ _ ▸ h.errors
  exact herrors.reportIf (h.isDeclaredHere_iff t.lexeme) fun e => breaks_declaration hm

/-- After a declaration. -/
theorem declares (t : Token) :
    AtStatement isGlobal D (A ++ [Mark.declares t]) ((r.declare t).define t) := by
  refine h.declared (r.scopes_define_declare t) (gains_declaration r t)
    (h.scopes.mark (fun _ => rfl) rfl true) ?_ ?_ ?_ ?_
  · intro before u
    simp [initializing_concat, h.quiet]
  · intro name
    simp [declaredOnTop_concat, Mark.name?]
  · rw [errors_define]
    exact h.faults_declare rfl
  · rw [distances_define, distances_declare]
    exact h.distances.idle rfl

/-- After parameters. -/
theorem introduce (names : List Token) :
    AtStatement isGlobal D (A ++ names.map .declares) (r.introduce names) := by
  induction names generalizing A r with
  | nil => simpa [Resolver.introduce] using h
  | cons name rest ih =>
    have hrest := ih (h.declares name)
    rw [List.append_assoc] at hrest
    exact hrest

/-- At the initial value of a variable. -/
theorem initializes (t : Token) :
    AtUse isGlobal D (A ++ [Mark.initializes t]) ((r.declare t).beginInitializer t.lexeme) := by
  have hsame (before : List Mark) (u : Token) :
      Initializing (A ++ [Mark.initializes t]) before u ↔ t = u ∧ before = A := by
    simp [initializing_concat, h.quiet]
  have hscopes : ((r.declare t).beginInitializer t.lexeme).scopes =
      Scopes.mark r.scopes t.lexeme false := by
    rw [scopes_beginInitializer, scopes_declare]
  have hempty : (Scopes.mark r.scopes t.lexeme false).isEmpty = r.scopes.isEmpty := by
    cases r.scopes <;> rfl
  have hknown : (r.declare t).knowsGlobal t.lexeme = r.knowsGlobal t.lexeme := by
    rw [knowsGlobal, knowsGlobal, (aloof_declare t).defined, (aloof_declare t).isGlobal]
  have hinitializing : ((r.declare t).beginInitializer t.lexeme).initializing =
      if r.scopes.isEmpty && !r.knowsGlobal t.lexeme then some t.lexeme else none := by
    rw [beginInitializer, scopes_declare, hempty, hknown]
    split
    · rfl
    · exact ((aloof_declare t).initializing r).trans h.initializing
  have hnew : (r.scopes.isEmpty && !r.knowsGlobal t.lexeme) = true ↔
      AtTop A ∧ ¬DeclaredOnTop A t.lexeme ∧ isGlobal t.lexeme = false := by
    rw [Bool.and_eq_true, List.isEmpty_iff, h.scopes.nil_iff, Bool.not_eq_true', knowsGlobal,
      Bool.or_eq_false_iff, h.globals, List.contains_eq_mem, decide_eq_false_iff_not, h.defined]
  refine ⟨?_, fun name => ?_, fun name => ?_, fun name hname => ?_, ?_, ?_⟩
  · rw [hscopes]
    exact h.scopes.mark (fun _ => rfl) rfl false
  · have hown : InOwnLocal (A ++ [Mark.initializes t]) name ↔ t.lexeme = name ∧ ¬r.scopes = [] := by
      simp [InOwnLocal, hsame, h.scopes.nil_iff]
    rw [hown, isUndefinedHere, hscopes]
    cases hs : r.scopes with
    | nil => simp [Scopes.mark]
    | cons scope outer =>
      have hsettled := h.settled scope (hs ▸ List.mem_cons_self) name
      simp only [Scopes.mark, NameTable.find?_insert, beq_iff_eq, reduceCtorEq, not_false_eq_true,
        and_true]
      split
      · next heq => simp [heq]
      · next hne => simp [hsettled, Ne.symm hne]
  · have hown : InOwnGlobal isGlobal (A ++ [Mark.initializes t]) name ↔
        t.lexeme = name ∧ AtTop A ∧ ¬DeclaredOnTop A t.lexeme ∧ isGlobal t.lexeme = false := by
      simp only [InOwnGlobal, hsame]
      constructor
      · rintro ⟨_, _, ⟨rfl, rfl⟩, rfl, hrest⟩
        exact ⟨rfl, hrest⟩
      · rintro ⟨rfl, hrest⟩
        exact ⟨A, t, ⟨rfl, rfl⟩, rfl, hrest⟩
    rw [hinitializing, hown, ← hnew]
    split
    · next hcond => simp [hcond]
    · next hcond => simp [hcond]
  · rw [hinitializing] at hname
    split at hname
    · next hcond =>
      rw [hscopes, List.isEmpty_iff.mp (Bool.and_eq_true_iff.mp hcond).1]
      rfl
    · cases hname
  · rw [errors_beginInitializer]
    exact h.faults_declare rfl
  · rw [distances_beginInitializer, distances_declare]
    exact h.distances.idle rfl

/-- After a variable with its initial value. -/
theorem initialized (hkinds : KindsAt A r) (t : Token) {value : Expr} (hvalue : value.Formed) :
    AtStatement isGlobal D (A ++ .initializes t :: (value.outline ++ [Mark.initialized]))
      ((value.resolve ((r.declare t).beginInitializer t.lexeme)).endInitializer.define t) := by
  have hkinds' : KindsAt (A ++ [Mark.initializes t]) ((r.declare t).beginInitializer t.lexeme) :=
    hkinds.balanced (.single fun _ => rfl) ((r.kinds_declare t).trans (kinds_beginInitializer _ _))
  have huse := value.atUse_resolve hvalue (h.initializes t) hkinds'
  have hM := value.use?_of_mem_outline
  have hassoc : A ++ .initializes t :: (value.outline ++ [Mark.initialized]) =
      A ++ [Mark.initializes t] ++ value.outline ++ [Mark.initialized] := by simp
  have hscopes : (value.resolve ((r.declare t).beginInitializer t.lexeme)).endInitializer.scopes =
      Scopes.mark r.scopes t.lexeme false := by
    show (value.resolve _).scopes = _
    rw [value.scopes_resolve, scopes_beginInitializer, scopes_declare]
  have hgains := (gains_initializer r t value).trans (gains_define _ t)
  rw [hscopes, gained_mark, List.append_nil] at hgains
  rw [hassoc]
  refine h.declared (by rw [scopes_define, hscopes, Scopes.mark_mark]) hgains ?_ ?_ ?_ ?_ ?_
  · have hdescribes := h.scopes.mark (m := .initializes t) (fun _ => rfl) rfl true
    exact (hdescribes.append_uses hM).beside (fun _ => rfl) rfl
  · intro before u
    rw [initializing_concat]
    simp
  · intro name
    rw [declaredOnTop_concat, declaredOnTop_append_uses hM, declaredOnTop_concat]
    simp [Mark.name?]
  · rw [errors_define]
    exact huse.errors.clean fun e he => by cases he; contradiction
  · rw [distances_define]
    exact huse.distances.idle rfl

/-! ## Entering and leaving scopes -/

/-- Just inside a scope. -/
theorem opens (o : Opening) : AtStatement isGlobal D (A ++ [Mark.opens o]) (r.push ∅) :=
  h.idle rfl (h.scopes.opens o) (.cons (fun _ hf => by cases hf) h.settled) ((aloof_push ∅).gains r)
    (h.errors.clean fun e he => by cases he; contradiction) (h.distances.idle rfl)

/-- Behind a scope. -/
theorem closes : AtStatement isGlobal D (A ++ [Mark.closes]) r.pop :=
  h.idle rfl h.scopes.closes (fun t ht => h.settled t (List.mem_of_mem_tail ht)) (aloof_pop.gains r)
    (h.errors.clean fun e he => by cases he; contradiction) (h.distances.idle rfl)

/-- A scope with a word of the language. -/
theorem provides (o : Opening) (word : String) :
    AtStatement isGlobal D (A ++ [Mark.opens o, .provides word]) (r.push (synthetic word)) := by
  have hopen := h.opens o
  have haround : Around (A ++ [Mark.opens o]) 0 o := around_opens.mpr (.inl ⟨rfl, rfl⟩)
  have hdescribes := hopen.scopes.mark (m := .provides word) (fun _ => rfl) rfl true
  have hassoc : A ++ [Mark.opens o, .provides word] =
      A ++ [Mark.opens o] ++ [Mark.provides word] := by simp
  rw [hassoc]
  refine ⟨hdescribes, hopen.settled.mark word, fun before u => ?_, fun name => ?_, hopen.globals,
    hopen.initializing, ?_, ?_⟩
  · rw [initializing_concat]
    simp [hopen.quiet]
  · have htop : ¬AtTop (A ++ [Mark.opens o]) := fun htop => htop 0 o haround
    simp only [declaredOnTop_concat (A := A ++ [Mark.opens o]), htop, and_false, or_false]
    exact hopen.defined name
  · exact hopen.errors.clean fun e he => by cases he; contradiction
  · exact hopen.distances.idle rfl

/-- After a return statement. -/
theorem returns (hkinds : KindsAt A r) (word : Token) (value : Option Expr) :
    AtStatement isGlobal D (A ++ [Mark.returns word value.isSome]) (r.atReturn word value) := by
  obtain ⟨x, hx, hfunction⟩ := hkinds.functionKind
  let r₁ := r.reportIf (r.functionKind == .none) word .returnAtTopLevel
  have hfunction₁ : r₁.functionKind = r.functionKind := (r.kinds_reportIf _ _ _).functionKind
  have hnone : (r.functionKind == .none) = true ↔ x = none := by
    rw [beq_iff_eq, hfunction]
    exact hx.functionKind_eq_none
  have hinitializer : (value.isSome && r₁.functionKind == .initializer) = true ↔
      value.isSome = true ∧ ∃ name, x = some (.method name) ∧ name.lexeme = "init" := by
    rw [Bool.and_eq_true, beq_iff_eq, hfunction₁, hfunction, Nearest.functionKind_eq_initializer]
  have hone : x = none →
      ¬(value.isSome = true ∧ ∃ name, x = some (.method name) ∧ name.lexeme = "init") := by
    rintro rfl ⟨-, name, hname, -⟩
    cases hname
  have hscopes : (r.atReturn word value).scopes = r.scopes :=
    (scopes_reportIf _ _ _ _).trans (scopes_reportIf _ _ _ _)
  refine h.idle rfl ?_ ?_ ((aloof_atReturn word value).gains r)
    (h.errors.reportIf_reportIf hnone hinitializer (fun _ => breaks_returns hx) hone) ?_
  · rw [hscopes]
    exact h.scopes.beside (fun _ => rfl) rfl
  · rw [hscopes]
    exact h.settled
  · have hdistances : (r.atReturn word value).distances = r.distances :=
      (distances_reportIf _ _ _ _).trans (distances_reportIf _ _ _ _)
    rw [hdistances]
    exact h.distances.idle rfl

/-- After the name of a superclass. -/
theorem inherits (name superName : Token) :
    AtStatement isGlobal D (A ++ [Mark.inherits name superName])
      (r.reportIf (superName.lexeme == name.lexeme) superName .inheritsFromItself) := by
  refine h.idle rfl ?_ ?_
    ((aloof_reportIf (fun _ => superName.lexeme == name.lexeme) (fun _ _ _ => rfl) superName
      .inheritsFromItself).gains r) (h.errors.reportIf beq_iff_eq fun _ => breaks_inherits) ?_
  · rw [scopes_reportIf]
    exact h.scopes.beside (fun _ => rfl) rfl
  · rw [scopes_reportIf]
    exact h.settled
  · rw [distances_reportIf]
    exact h.distances.idle rfl

theorem enterFunction (o : Opening) (kind : FunctionKind) (params : List Token) :
    AtStatement isGlobal D (A ++ .opens o :: params.map .declares)
      (r.enterFunction kind params) := by
  rw [List.append_cons]
  exact ((h.withFunctionKind kind).opens o).introduce params

/-- At the methods of a class. -/
theorem enterClass (name : Token) {superclass : Option Expr}
    (hsuper : ∀ e, superclass = some e → ∃ id superName, e = .variable id superName) :
    AtStatement isGlobal D (A ++ Stmt.classEntry name superclass)
      (r.enterClass name superclass) := by
  have hdecl := (h.withClassKind .plain).declares name
  cases superclass with
  | none =>
    have hthis := hdecl.provides (.methods false) "this"
    rw [List.append_assoc] at hthis
    exact hthis
  | some e =>
    obtain ⟨id, superName, rfl⟩ := hsuper e rfl
    have hinherits := (hdecl.inherits name superName).withClassKind .subclass
    have hread := hinherits.of_atUse (by simp [Mark.use?]) (Expr.scopes_resolve _ _)
      ((Expr.variable id superName).aloof_resolve.gains _) (hinherits.atUse.reads id superName)
    have hwords := hread.provides .superclass "super"
    have hthis := hwords.provides (.methods true) "this"
    simp only [List.append_assoc, List.cons_append, List.nil_append] at hthis
    exact hthis

end AtStatement

namespace KindsAt

variable {A : List Mark} {r : Resolver}

theorem enterFunction (h : KindsAt A r) {o : Opening} (ho : o.isFunction = true)
    (params : List Token) :
    KindsAt (A ++ .opens o :: params.map .declares)
      (r.enterFunction (Opening.functionKind (some o)) params) := by
  obtain ⟨x, hx, hclass⟩ := h.classKind
  obtain ⟨hfunction', hclass'⟩ := r.kinds_enterFunction (Opening.functionKind (some o)) params
  have ho' : o.isClass = false := by
    cases o <;> first | rfl | cases ho
  rw [List.append_cons]
  exact ⟨⟨some o, (Stmt.balanced_params params).nearest.mpr (nearest_opens_self ho), hfunction'⟩,
    ⟨x, (Stmt.balanced_params params).nearest.mpr (hx.opens ho'), hclass'.trans hclass⟩⟩

/-- The scopes of a class are no functions, and the innermost of them is the nearest class. -/
theorem nearest_classEntry (name : Token) (superclass : Option Expr) {x : Option Opening}
    (hx : Nearest Opening.isFunction A x) :
    Nearest Opening.isFunction (A ++ Stmt.classEntry name superclass) x ∧
      Nearest Opening.isClass (A ++ Stmt.classEntry name superclass)
      (some (.methods superclass.isSome)) := by
  have hmethods (B : List Mark) (b : Bool) (hB : Nearest Opening.isFunction B x) :
      Nearest Opening.isFunction (B ++ [Mark.opens (.methods b)] ++ [Mark.provides "this"]) x ∧
        Nearest Opening.isClass (B ++ [Mark.opens (.methods b)] ++ [Mark.provides "this"])
        (some (.methods b)) := by
    have hbalanced : Balanced [.provides "this"] := .single fun _ => rfl
    exact ⟨hbalanced.nearest.mpr (hB.opens rfl), hbalanced.nearest.mpr (nearest_opens_self rfl)⟩
  have hname : Nearest Opening.isFunction (A ++ [Mark.declares name]) x :=
    (Balanced.single fun _ => rfl).nearest.mpr hx
  cases superclass with
  | none => simpa [Stmt.classEntry] using hmethods _ false hname
  | some e =>
    have hsuper : Nearest Opening.isFunction
        (A ++ [Mark.declares name] ++ e.superclassOutline name ++ [Mark.opens .superclass] ++
          [Mark.provides "super"]) x :=
      (Balanced.single fun _ => rfl).nearest.mpr
        (((e.balanced_superclassOutline name).nearest.mpr hname).opens rfl)
    simpa [Stmt.classEntry] using hmethods _ true hsuper

theorem enterClass (h : KindsAt A r) (name : Token) (superclass : Option Expr) :
    KindsAt (A ++ Stmt.classEntry name superclass) (r.enterClass name superclass) := by
  obtain ⟨x, hx, hfunction⟩ := h.functionKind
  obtain ⟨hx', hclass⟩ := nearest_classEntry name superclass hx
  refine ⟨⟨x, hx', (r.functionKind_enterClass name superclass).trans hfunction⟩, ⟨_, hclass, ?_⟩⟩
  rw [r.classKind_enterClass name superclass]
  cases superclass <;> rfl

end KindsAt

end Resolver

/-! ## Statements -/

namespace Stmt

variable {isGlobal : String → Bool} {D : Distances}

open Resolver (AtStatement KindsAt)

theorem atStatement_expression {A : List Mark} {r : Resolver} (h : AtStatement isGlobal D A r)
    (hk : KindsAt A r) {e : Expr} (he : e.Formed) :
    AtStatement isGlobal D (A ++ e.outline) (e.resolve r) :=
  h.of_atUse e.use?_of_mem_outline (e.scopes_resolve r) (e.aloof_resolve.gains r)
    (e.atUse_resolve he h.atUse hk)

mutual

/-- The walk over one statement goes along its outline. -/
theorem atStatement_resolve :
    ∀ (s : Stmt) {A : List Mark} {r : Resolver}, s.Formed → AtStatement isGlobal D A r →
      KindsAt A r → AtStatement isGlobal D (A ++ s.outline) (s.resolve r)
  | .expression value, _, _, hs, h, hk | .print value, _, _, hs, h, hk =>
    atStatement_expression h hk hs
  | .var name none, _, _, _, h, _ => h.declares name
  | .var name (some value), _, _, ⟨_, hvalue⟩, h, hk => h.initialized hk name (hvalue value rfl)
  | .block body, A, r, hs, h, hk => by
    have hin : KindsAt (A ++ [Mark.opens .block]) (r.push ∅) := by
      obtain ⟨x, hx, hfunction⟩ := hk.functionKind
      obtain ⟨y, hy, hclass⟩ := hk.classKind
      exact ⟨⟨x, hx.opens rfl, hfunction⟩, ⟨y, hy.opens rfl, hclass⟩⟩
    have hbody := (atStatement_resolveAll body hs (h.opens .block) hin).closes
    rw [outline, List.append_cons, ← List.append_assoc]
    exact hbody
  | .ifThen condition branch, A, r, ⟨hc, _, hs⟩, h, hk
  | .whileLoop condition branch, A, r, ⟨hc, _, hs⟩, h, hk => by
    rw [outline, ← List.append_assoc]
    exact atStatement_resolve branch hs (atStatement_expression h hk hc)
      (hk.balanced condition.balanced_outline (condition.kinds_resolve r))
  | .ifThenElse condition thenBranch elseBranch, A, r, ⟨hc, ⟨_, hthen⟩, _, helse⟩, h, hk => by
    have hk₁ := hk.balanced condition.balanced_outline (condition.kinds_resolve r)
    have hk₂ := hk₁.balanced thenBranch.balanced_outline (thenBranch.kinds_resolve _)
    rw [outline, ← List.append_assoc, ← List.append_assoc]
    have hthen' := atStatement_resolve thenBranch hthen (atStatement_expression h hk hc) hk₁
    exact atStatement_resolve elseBranch helse hthen' hk₂
  | .function decl, A, r, hs, h, hk => by
    have hk' : KindsAt (A ++ [Mark.declares decl.name]) ((r.declare decl.name).define decl.name) :=
      hk.balanced (.single fun _ => rfl) ((r.kinds_declare _).trans (Resolver.kinds_define _ _))
    rw [outline, List.append_cons]
    exact atStatement_resolveFunction (.function decl.name) rfl decl hs (h.declares decl.name) hk'
  | .returnWith word value, A, r, hs, h, hk => by
    have hreturn := h.returns hk word value
    have hk' :=
      hk.balanced (M := [.returns word value.isSome]) (.single fun _ => rfl)
        (r.kinds_atReturn word value)
    rw [outline, List.append_cons]
    cases value with
    | none =>
      rw [Expr.outline?, List.append_nil]
      exact hreturn
    | some e => exact atStatement_expression hreturn hk' (hs e rfl)
  | .classDef name superclass methods, A, r, ⟨_, hsuper, hmethods⟩, h, hk => by
    have hin :=
      atStatement_resolveMethods methods hmethods (h.enterClass name hsuper)
        (hk.enterClass name superclass)
    rw [outline, ← List.append_assoc, ← List.append_assoc]
    cases superclass with
    | none => exact hin.closes.withClassKind r.classKind
    | some e =>
      have hout := hin.closes.closes.withClassKind r.classKind
      rw [List.append_assoc] at hout
      exact hout

theorem atStatement_resolveFunction :
    ∀ (o : Opening), o.isFunction = true → ∀ (d : FunctionDecl) {A : List Mark} {r : Resolver},
      FormedFunction d → AtStatement isGlobal D A r → KindsAt A r →
    AtStatement isGlobal D (A ++ functionOutline o d)
      (resolveFunction (Opening.functionKind (some o)) d r)
  | o, ho, ⟨_, params, body⟩, A, r, ⟨_, _, hbody⟩, h, hk => by
    have hin :=
      atStatement_resolveAll body hbody (h.enterFunction o (Opening.functionKind (some o)) params)
        (hk.enterFunction ho params)
    have hout := hin.closes.withFunctionKind r.functionKind
    rw [functionOutline, ← List.cons_append, ← List.cons_append, ← List.append_assoc,
      ← List.append_assoc]
    exact hout

/-- **The walk over statements goes along their outline.** -/
theorem atStatement_resolveAll :
    ∀ (body : List Stmt) {A : List Mark} {r : Resolver}, FormedAll body →
      AtStatement isGlobal D A r → KindsAt A r →
      AtStatement isGlobal D (A ++ outlineAll body) (resolveAll body r)
  | [], _, _, _, h, _ => by simpa [outlineAll, resolveAll] using h
  | s :: rest, A, r, ⟨hs, hrest⟩, h, hk => by
    rw [outlineAll, ← List.append_assoc]
    exact atStatement_resolveAll rest hrest (atStatement_resolve s hs h hk)
      (hk.balanced s.balanced_outline (s.kinds_resolve r))

theorem atStatement_resolveMethods :
    ∀ (ds : List FunctionDecl) {A : List Mark} {r : Resolver}, FormedMethods ds →
      AtStatement isGlobal D A r → KindsAt A r →
      AtStatement isGlobal D (A ++ methodsOutline ds) (resolveMethods ds r)
  | [], _, _, _, h, _ => by simpa [methodsOutline, resolveMethods] using h
  | d :: rest, A, r, ⟨hd, hrest⟩, h, hk => by
    rw [methodsOutline, ← List.append_assoc]
    exact atStatement_resolveMethods rest hrest
      (atStatement_resolveFunction (.method d.name) rfl d hd h hk)
      (hk.balanced (balanced_functionOutline _ d) (kinds_resolveFunction _ d r))

end

end Stmt

end Lox
