import Lox.Proofs.Syntax.Unrolling.Expression

/-!
# The recursion of the rules of statements

As for expressions, `Stmt.Rules.step` writes each rule once and without a bound, in terms of the
rules that it calls; expressions are read by `Expr.read`, whose recursion ends. The loops of the
grammar are rules too: the methods of a class, the parameters of a function, the declarations of a
block and those of a program.

The loop over declarations ends since a declaration takes a token where there is one, whether it can
be read or not (`Stmt.readDeclaration_shorter`): one that cannot be read is dropped with at least a
token. So the recursion ends as a whole (`Stmt.unroll_program`).
-/

namespace Lox

namespace Stmt

open Reader

variable {depth count : Nat} {c c' : Cursor} {program : List Stmt}

/-- Readers for the rules of statements. -/
structure Rules where
  declaration : Reader (Option Stmt)
  classDef : Reader Stmt
  methods : Reader (List FunctionDecl)
  function : Callable → Reader FunctionDecl
  paramList : Nat → Reader (List Token)
  block : Reader (List Stmt)
  declarations : Reader (List Stmt)
  statement : Reader Stmt
  forLoop : Reader Stmt
  ifThen : Reader Stmt
  whileLoop : Reader Stmt
  program : Reader (List Stmt)

namespace Rules

/-- What follows the first token of a statement that is not an expression. -/
def statementOf (rules : Rules) (t : Token) : Reader Stmt :=
  match t.kind with
  | .keyword .forWord => rules.forLoop
  | .keyword .ifWord => rules.ifThen
  | .keyword .whileWord => rules.whileLoop
  | .keyword .returnWord => readReturn t
  | .symbol .leftBrace => do
    let body ← rules.block
    return .block body
  | _ => readPrint

/-- A declaration that is not followed by recovery. -/
def declarationOnce (rules : Rules) : Reader Stmt := do
  match ← acceptKeyword .classWord with
  | some _ => rules.classDef
  | none =>
    match ← acceptKeyword .funWord with
    | some _ =>
      let decl ← rules.function .function
      return .function decl
    | none =>
      match ← acceptKeyword .varWord with
      | some _ => readVar
      | none => rules.statement

/-- The parameters of a function, if there are any. -/
def params (rules : Rules) : Reader (List Token) := do
  if ← check (Kind.isSymbol .rightParen) then
    return []
  rules.paramList 0

/-- Each rule, with its calls to the rules given. -/
def step (rules : Rules) : Rules where
  declaration := recovering rules.declarationOnce
  classDef := do
    let name ← expectName .className
    let superclass ← readSuperclass
    let _ ← expectSymbol .leftBrace .classOpen
    let methods ← rules.methods
    let _ ← expectSymbol .rightBrace .classClose
    return .classDef name superclass methods
  methods := do
    if (← check (Kind.isSymbol .rightBrace)) || (← atEnd) then
      return []
    let method ← rules.function .method
    let rest ← rules.methods
    return method :: rest
  function callable := do
    let name ← expectName (.callableName callable)
    let _ ← expectSymbol .leftParen (.paramsOpen callable)
    let params ← rules.params
    let _ ← expectSymbol .rightParen .paramsClose
    let _ ← expectSymbol .leftBrace (.bodyOpen callable)
    let body ← rules.block
    return ⟨name, params, body⟩
  paramList count := do
    if Expr.maxArity ≤ count then
      reportHere .tooManyParams
    commaList (expectName .paramName) (rules.paramList (count + 1))
  block := do
    let body ← rules.declarations
    let _ ← expectSymbol .rightBrace .blockClose
    return body
  declarations := do
    if (← check (Kind.isSymbol .rightBrace)) || (← atEnd) then
      return []
    let first ← rules.declaration
    let rest ← rules.declarations
    return first.toList ++ rest
  statement := do
    match ← accept startsStatement with
    | none => readExpression
    | some t => rules.statementOf t
  forLoop := do
    let _ ← expectSymbol .leftParen .forOpen
    let initializer ← readForInitializer
    let condition ← readUnless .semicolon
    let _ ← expectSymbol .semicolon .forCondition
    let increment ← readUnless .rightParen
    let _ ← expectSymbol .rightParen .forClose
    let body ← rules.statement
    return Stmt.forLoop initializer condition increment body
  ifThen := do
    let _ ← expectSymbol .leftParen .ifOpen
    let condition ← Expr.read
    let _ ← expectSymbol .rightParen .ifClose
    let thenBranch ← rules.statement
    match ← acceptKeyword .elseWord with
    | some _ =>
      let elseBranch ← rules.statement
      return .ifThenElse condition thenBranch elseBranch
    | none => return .ifThen condition thenBranch
  whileLoop := do
    let _ ← expectSymbol .leftParen .whileOpen
    let condition ← Expr.read
    let _ ← expectSymbol .rightParen .whileClose
    let body ← rules.statement
    return .whileLoop condition body
  program := do
    if ← atEnd then
      return []
    let first ← rules.declaration
    let rest ← rules.program
    return first.toList ++ rest

/-- The rules over the rules given, unrolled to a depth of calls. -/
def unroll (rules : Rules) : Nat → Rules
  | 0 => rules
  | depth + 1 => (rules.unroll depth).step

end Rules

/-- The rules with a bound on the depth of calls. -/
def bounded (depth : Nat) : Rules where
  declaration := readDeclaration depth
  classDef := readClass depth
  methods := readMethods depth
  function := readFunction depth
  paramList count := fun c => readParamList (c.rest.length + 1) count c
  block := readBlock depth
  declarations := readDeclarations depth
  statement := readStatement depth
  forLoop := readFor depth
  ifThen := readIf depth
  whileLoop := readWhile depth
  program := readProgram

/-! ## Parts of statements -/

theorem built_readParamList (depth count : Nat) : Reader.Built (readParamList depth count) := by
  induction depth generalizing count with
  | zero => exact .failHere _
  | succ depth ih =>
    have hlist := (Reader.Built.expect Kind.isIdentifier .paramName).commaList (ih (count + 1))
    unfold readParamList
    split
    · exact (Reader.Built.reportHere _).bind fun _ => hlist
    · exact hlist

/-- A bound that is larger than the number of tokens makes no difference. -/
theorem readParamList_agree {n m m' : Nat} (count : Nat) (hm : n + 1 ≤ m) (hm' : n + 1 ≤ m') :
    AgreeOn n (readParamList m count) (readParamList m' count) := by
  induction m generalizing n m' count with
  | zero => exact absurd hm (Nat.not_succ_le_zero n)
  | succ m ih =>
    cases m' with
    | zero => exact absurd hm' (Nat.not_succ_le_zero n)
    | succ m' =>
      have hlist : AgreeOn n (commaList (expectName .paramName) (readParamList m (count + 1)))
          (commaList (expectName .paramName) (readParamList m' (count + 1))) := by
        refine .commaList (.expect _ _) (built_readParamList _ _) .refl ?_
        rintro k rfl
        exact ih (count + 1) (by omega) (by omega)
      unfold readParamList
      split
      · exact AgreeOn.refl.bind (.reportHere _) fun _ => hlist
      · exact hlist

theorem built_paramList (count : Nat) :
    Reader.Built fun c => readParamList (c.rest.length + 1) count c :=
  .sized (r := fun n => readParamList (n + 1) count) (fun n => built_readParamList (n + 1) count)
    fun _ _ c hc h => readParamList_agree count (Nat.le_refl _) (Nat.succ_le_succ h) c hc

theorem built_readUnless (s : Symbol) : Reader.Built (readUnless s) :=
  .checkThen (.pure _) (Expr.built_read.bind fun _ => .pure _)

theorem built_readExpression : Reader.Built readExpression :=
  Expr.built_read.bind fun _ => .expectThen fun _ => .pure _

theorem built_readPrint : Reader.Built readPrint :=
  Expr.built_read.bind fun _ => .expectThen fun _ => .pure _

theorem built_readInitializer : Reader.Built readInitializer :=
  .acceptThen (.pure _) fun _ => Expr.built_read.bind fun _ => .pure _

theorem built_readVar : Reader.Built readVar :=
  .expectThen fun _ => built_readInitializer.bind fun _ => .expectThen fun _ => .pure _

theorem built_readReturn (word : Token) : Reader.Built (readReturn word) :=
  (built_readUnless _).bind fun _ => .expectThen fun _ => .pure _

theorem built_readForInitializer : Reader.Built readForInitializer := by
  refine .acceptThen (.acceptThen ?_ fun _ => ?_) fun _ => .pure _
  · exact built_readExpression.bind fun _ => .pure _
  · exact built_readVar.bind fun _ => .pure _

theorem built_readSuperclass : Reader.Built readSuperclass :=
  .acceptThen (.pure _) fun _ => .expectThen fun _ => Reader.Built.fresh.bind fun _ => .pure _

theorem readExpression_takes : Takes readExpression :=
  .bind_right Expr.built_read fun _ => Takes.expect.bind_left fun _ => .pure _

/-! ## The rules go forward -/

namespace Rules

variable {rules rules' : Rules} {bound n : Nat}

/-- All rules are put together from the basic readers. Statements and functions take a token, and so
does a declaration where there is one, whether it can be read or not. -/
structure Built (rules : Rules) : Prop where
  declaration : Reader.Built rules.declaration
  classDef : Reader.Built rules.classDef
  methods : Reader.Built rules.methods
  function : ∀ callable, Reader.Built (rules.function callable)
  paramList : ∀ count, Reader.Built (rules.paramList count)
  block : Reader.Built rules.block
  declarations : Reader.Built rules.declarations
  statement : Reader.Built rules.statement
  forLoop : Reader.Built rules.forLoop
  ifThen : Reader.Built rules.ifThen
  whileLoop : Reader.Built rules.whileLoop
  statement_takes : Takes rules.statement
  function_takes : ∀ callable, Takes (rules.function callable)
  declaration_shorter : ∀ c : Cursor, c.rest ≠ [] →
    (rules.declaration c).cursor.rest.length < c.rest.length

namespace Built

variable (h : rules.Built)

include h

theorem declarationOnce : Reader.Built rules.declarationOnce := by
  refine .acceptThen (.acceptThen (.acceptThen h.statement fun _ => built_readVar) fun _ => ?_)
    fun _ => h.classDef
  exact (h.function _).bind fun _ => .pure _

theorem declarationOnce_takes : Takes rules.declarationOnce := by
  refine .accept (.accept (.accept h.statement_takes fun _ => built_readVar) fun _ => ?_) fun _ =>
    h.classDef
  exact (h.function _).bind fun _ => .pure _

theorem params : Reader.Built rules.params :=
  .checkThen (.pure _) (h.paramList 0)

/-- The statement that a token starts is read by steps. -/
theorem statementOf (t : Token) : Reader.Built (rules.statementOf t) := by
  unfold Rules.statementOf
  split
  · exact h.forLoop
  · exact h.ifThen
  · exact h.whileLoop
  · exact built_readReturn t
  · exact h.block.bind fun _ => .pure _
  · exact built_readPrint

/-- What follows the name of a function. -/
theorem functionBody (callable : Callable) (name : Token) : Reader.Built (do
    let _ ← expectSymbol .leftParen (.paramsOpen callable)
    let params ← rules.params
    let _ ← expectSymbol .rightParen .paramsClose
    let _ ← expectSymbol .leftBrace (.bodyOpen callable)
    let body ← rules.block
    return (⟨name, params, body⟩ : FunctionDecl)) :=
  .expectThen fun _ => h.params.bind fun _ => .expectThen fun _ => .expectThen fun _ =>
    h.block.bind fun _ => .pure _

omit h in
/-- Rules that go on up to a closing brace or the end. -/
theorem untilBrace {α : Type} {item : Reader (List α)} (hitem : Reader.Built item) :
    Reader.Built (do
    if (← check (Kind.isSymbol .rightBrace)) || (← atEnd) then
      return []
    item) := by
  refine (Reader.Built.check _).bind fun b => Reader.Built.atEnd.bind fun b' => ?_
  cases b || b' with
  | true => exact .pure _
  | false => exact hitem

/-- One step further the readers are built of steps. -/
theorem step : rules.step.Built where
  declaration := h.declarationOnce.recovering
  classDef := by
    refine .expectThen fun _ => built_readSuperclass.bind fun _ => .expectThen fun _ => ?_
    exact h.methods.bind fun _ => .expectThen fun _ => .pure _
  methods := untilBrace ((h.function _).bind fun _ => h.methods.bind fun _ => .pure _)
  function callable := .expectThen fun name => h.functionBody callable name
  paramList count := by
    have hlist :=
      (Reader.Built.expect Kind.isIdentifier .paramName).commaList (h.paramList (count + 1))
    dsimp only [Rules.step]
    split
    · exact (Reader.Built.reportHere _).bind fun _ => hlist
    · exact hlist
  block := h.declarations.bind fun _ => .expectThen fun _ => .pure _
  declarations := untilBrace (h.declaration.bind fun _ => h.declarations.bind fun _ => .pure _)
  statement := .acceptThen built_readExpression h.statementOf
  forLoop := by
    refine .expectThen fun _ => built_readForInitializer.bind fun _ => (built_readUnless _).bind
      fun _ => ?_
    refine .expectThen fun _ => (built_readUnless _).bind fun _ => .expectThen fun _ => ?_
    exact h.statement.bind fun _ => .pure _
  ifThen := by
    refine .expectThen fun _ => Expr.built_read.bind fun _ => .expectThen fun _ => h.statement.bind
      fun _ => ?_
    exact .acceptThen (.pure _) fun _ => h.statement.bind fun _ => .pure _
  whileLoop := by
    refine .expectThen fun _ => Expr.built_read.bind fun _ => .expectThen fun _ => ?_
    exact h.statement.bind fun _ => .pure _
  statement_takes := .accept readExpression_takes h.statementOf
  function_takes callable := Takes.expect.bind_left fun name => h.functionBody callable name
  declaration_shorter _ hc := length_recovering_lt h.declarationOnce h.declarationOnce_takes hc

end Built

/-! ## The recursion ends -/

/-- Rules that do the same wherever a bound on the depth of calls is enough for the tokens left. The
loop over a program is left out. -/
structure Agree (bound : Nat) (rules rules' : Rules) : Prop where
  declaration : ∀ n, 8 * n + 2 ≤ bound → AgreeOn n rules.declaration rules'.declaration
  classDef : ∀ n, 8 * n + 1 ≤ bound → AgreeOn n rules.classDef rules'.classDef
  methods : ∀ n, 8 * n + 2 ≤ bound → AgreeOn n rules.methods rules'.methods
  function : ∀ callable n, 8 * n + 1 ≤ bound →
    AgreeOn n (rules.function callable) (rules'.function callable)
  paramList : ∀ count n, 8 * n + 1 ≤ bound →
    AgreeOn n (rules.paramList count) (rules'.paramList count)
  block : ∀ n, 8 * n + 4 ≤ bound → AgreeOn n rules.block rules'.block
  declarations : ∀ n, 8 * n + 3 ≤ bound → AgreeOn n rules.declarations rules'.declarations
  statement : ∀ n, 8 * n + 1 ≤ bound → AgreeOn n rules.statement rules'.statement
  forLoop : ∀ n, 8 * n + 1 ≤ bound → AgreeOn n rules.forLoop rules'.forLoop
  ifThen : ∀ n, 8 * n + 1 ≤ bound → AgreeOn n rules.ifThen rules'.ifThen
  whileLoop : ∀ n, 8 * n + 1 ≤ bound → AgreeOn n rules.whileLoop rules'.whileLoop

theorem Agree.params (h : Agree bound rules rules') (hn : 8 * n + 1 ≤ bound) :
    AgreeOn n rules.params rules'.params := by
  refine AgreeOn.refl.bind (.check _) fun b => ?_
  cases b with
  | true => exact .refl
  | false => exact h.paramList 0 n hn

/-- One step further the rules agree on more tokens. -/
theorem Agree.step (h : Agree bound rules rules') (hb : rules.Built) :
    Agree (bound + 1) rules.step rules'.step where
  declaration n hn := by
    refine .recovering (.accept (.accept (.accept (h.statement n (by omega)) ?_) ?_) ?_)
    · exact fun _ _ _ => .refl
    · rintro word m rfl
      exact (h.function _ m (by omega)).bind (hb.function _) fun _ => .refl
    · rintro word m rfl
      exact h.classDef m (by omega)
  classDef n hn := by
    refine .expect ?_
    rintro name m rfl
    refine AgreeOn.refl.bind built_readSuperclass fun superclass => .expect ?_
    rintro brace m rfl
    exact (h.methods m (by omega)).bind hb.methods fun _ => .refl
  methods n hn := by
    refine AgreeOn.refl.bind (.check _) fun b => AgreeOn.refl.bind .atEnd fun b' => ?_
    cases b || b' with
    | true => exact .refl
    | false =>
      -- A method takes a token, so the methods after it have one less.
      refine (h.function _ n (by omega)).bind_takes (hb.function_takes _) ?_
      rintro method m rfl
      exact (h.methods m (by omega)).bind hb.methods fun _ => .refl
  function callable n hn := by
    refine .expect ?_
    rintro name m rfl
    refine .expect ?_
    rintro paren m rfl
    refine (h.params (by omega)).bind hb.params fun params => .expect ?_
    rintro close m rfl
    refine .expect ?_
    rintro brace m rfl
    exact (h.block m (by omega)).bind hb.block fun _ => .refl
  paramList count n hn := by
    have hlist : AgreeOn n (commaList (expectName .paramName) (rules.paramList (count + 1)))
        (commaList (expectName .paramName) (rules'.paramList (count + 1))) := by
      refine .commaList (.expect _ _) (hb.paramList _) .refl ?_
      rintro m rfl
      exact h.paramList (count + 1) m (by omega)
    dsimp only [Rules.step]
    split
    · exact AgreeOn.refl.bind (.reportHere _) fun _ => hlist
    · exact hlist
  block n hn := (h.declarations n (by omega)).bind hb.declarations fun _ => .refl
  declarations n hn := by
    refine AgreeOn.refl.bind (.check _) fun b => .atEnd ?_ fun c hc hlength => ?_
    · cases b <;> exact .refl
    · cases b with
      | true => rfl
      | false =>
        -- Before the end a declaration leaves fewer tokens to those after it.
        refine bind_congr_at (h.declaration n (by omega) c hlength) fun first c₁ hr => ?_
        have hshorter := hb.declaration_shorter c hc
        rw [hr] at hshorter
        change c₁.rest.length < c.rest.length at hshorter
        refine bind_congr_at (h.declarations c₁.rest.length (by omega) c₁ (Nat.le_refl _))
          fun _ _ _ => rfl
  statement n hn := by
    refine .accept .refl ?_
    rintro t m rfl
    show AgreeOn m (rules.statementOf t) (rules'.statementOf t)
    unfold statementOf
    split
    · exact h.forLoop m (by omega)
    · exact h.ifThen m (by omega)
    · exact h.whileLoop m (by omega)
    · exact .refl
    · exact (h.block m (by omega)).bind hb.block fun _ => .refl
    · exact .refl
  forLoop n hn := by
    refine .expect ?_
    rintro paren m rfl
    refine AgreeOn.refl.bind built_readForInitializer fun initializer =>
      AgreeOn.refl.bind (built_readUnless _) fun condition => .expect ?_
    rintro semicolon m rfl
    refine AgreeOn.refl.bind (built_readUnless _) fun increment => .expect ?_
    rintro close m rfl
    exact (h.statement m (by omega)).bind hb.statement fun _ => .refl
  ifThen n hn := by
    refine .expect ?_
    rintro paren m rfl
    refine AgreeOn.refl.bind Expr.built_read fun condition => .expect ?_
    rintro close m rfl
    refine (h.statement m (by omega)).bind hb.statement fun thenBranch => .accept .refl ?_
    rintro word m rfl
    exact (h.statement m (by omega)).bind hb.statement fun _ => .refl
  whileLoop n hn := by
    refine .expect ?_
    rintro paren m rfl
    refine AgreeOn.refl.bind Expr.built_read fun condition => .expect ?_
    rintro close m rfl
    exact (h.statement m (by omega)).bind hb.statement fun _ => .refl

end Rules

theorem built_bounded (depth : Nat) : (bounded depth).Built := by
  induction depth with
  | zero =>
    exact ⟨.recovering (.failHere _), .failHere _, .failHere _, fun _ => .failHere _,
      built_paramList, .failHere _, .failHere _, .failHere _, .failHere _, .failHere _, .failHere _,
      .failHere, fun _ => .failHere, fun _ hc => length_recovering_lt (.failHere _) .failHere hc⟩
  | succ depth ih => exact { ih.step with paramList := built_paramList }

/-- The parameters of a function in terms of those after the first. -/
theorem paramList_agree (depth count n : Nat) :
    AgreeOn n ((bounded depth).paramList count) ((bounded depth).step.paramList count) := by
  intro c _
  have hlist : AgreeOn c.rest.length
      (commaList (expectName .paramName) (readParamList c.rest.length (count + 1)))
      (commaList (expectName .paramName) ((bounded depth).paramList (count + 1))) := by
    refine .commaList (.expect _ _) (built_readParamList _ _) .refl fun m hm c' hc' => ?_
    exact readParamList_agree (count + 1) (by omega) (Nat.le_refl _) c' (Nat.le_refl _)
  show readParamList (c.rest.length + 1) count c = _
  unfold readParamList
  dsimp only [Rules.step]
  split
  · exact AgreeOn.refl.bind (.reportHere _) (fun _ => hlist) c (Nat.le_refl _)
  · exact hlist c (Nat.le_refl _)

/-- Unrolled deep enough, the rules over any rules do what the bounded ones do. -/
theorem bounded_agree (rules : Rules) {bound depth' : Nat} (hdepth : bound ≤ depth)
    (hdepth' : bound ≤ depth') : Rules.Agree bound (bounded depth) (rules.unroll depth') := by
  induction bound generalizing depth depth' with
  | zero =>
    constructor <;> intros <;> omega
  | succ bound ih =>
    obtain ⟨k, rfl⟩ := Nat.exists_eq_add_of_le' hdepth
    obtain ⟨k', rfl⟩ := Nat.exists_eq_add_of_le' hdepth'
    have h : Rules.Agree (bound + 1) (bounded (k + bound)).step (rules.unroll (k' + bound)).step :=
      (ih (by omega) (by omega)).step (built_bounded _)
    rw [← Nat.add_assoc, ← Nat.add_assoc, Rules.unroll]
    exact { h with
      paramList := fun count n hn c hc =>
        (paramList_agree (k + bound) count n c hc).trans (h.paramList count n hn c hc) }

/-- **A declaration takes a token where there is one, whether it can be read or not.** -/
theorem readDeclaration_shorter (depth : Nat) (hc : c.rest ≠ []) :
    (readDeclaration depth c).cursor.rest.length < c.rest.length :=
  (built_bounded depth).declaration_shorter c hc

/-! ## Programs -/

/-- A declaration that cannot be read is followed by recovery. -/
theorem readDeclaration_eq (depth : Nat) : ∃ once, readDeclaration depth = recovering once := by
  cases depth with
  | zero => exact ⟨failHere .expression, rfl⟩
  | succ depth => exact ⟨(bounded depth).declarationOnce, rfl⟩

theorem readDeclaration_done (depth : Nat) (c : Cursor) :
    ∃ s? c', readDeclaration depth c = .done s? c' := by
  obtain ⟨once, honce⟩ := readDeclaration_eq depth
  rw [honce]
  rcases recovering_cases once c with ⟨s, c₁, -, heq⟩ | ⟨e, c₁, -, heq⟩ <;> exact ⟨_, _, heq⟩

theorem readToEnd_nil (depth count : Nat) (h : c.rest = []) :
    readToEnd depth count c = .done [] c := by
  cases count with
  | zero => rfl
  | succ count =>
    rw [readToEnd, bind_of_done (atEnd_of_nil h)]
    rfl

theorem readToEnd_cons (depth count : Nat) {c₁ : Cursor} {first : Option Stmt} {rest : List Stmt}
    (h : c.rest ≠ []) (hfirst : readDeclaration depth c = .done first c₁)
    (hrest : readToEnd depth count c₁ = .done rest c') :
    readToEnd depth (count + 1) c = .done (first.toList ++ rest) c' := by
  rw [readToEnd, bind_of_done (atEnd_of_ne_nil h)]
  exact (bind_of_done hfirst).trans (bind_of_done hrest)

/-- A program before the end is a declaration, and then a program. -/
theorem exists_of_readToEnd (hc : c.rest ≠ [])
    (h : readToEnd depth (count + 1) c = .done program c') :
    ∃ first c₁ rest, readDeclaration depth c = .done first c₁ ∧
      readToEnd depth count c₁ = .done rest c' ∧
      program = first.toList ++ rest := by
  rw [readToEnd, bind_of_done (atEnd_of_ne_nil hc)] at h
  obtain ⟨first, c₁, hfirst, h⟩ := done_of_bind h
  obtain ⟨rest, c₂, hrest, h⟩ := done_of_bind h
  cases h
  exact ⟨first, c₁, rest, hfirst, hrest, rfl⟩

/-- A program is read to the end, and does not fail as a whole. -/
theorem readToEnd_done (depth : Nat) (hcount : c.rest.length ≤ count) :
    ∃ program c', readToEnd depth count c = .done program c' ∧ c'.rest = [] := by
  induction count generalizing c with
  | zero =>
    have hc : c.rest = [] := List.length_eq_zero_iff.mp (Nat.le_zero.mp hcount)
    exact ⟨[], c, readToEnd_nil depth 0 hc, hc⟩
  | succ count ih =>
    by_cases hc : c.rest = []
    · exact ⟨[], c, readToEnd_nil depth (count + 1) hc, hc⟩
    · have hshorter := readDeclaration_shorter depth hc
      obtain ⟨first, c₁, hfirst⟩ := readDeclaration_done depth c
      rw [hfirst] at hshorter
      obtain ⟨rest, c', hrest, hend⟩ := ih (Nat.le_of_lt_succ (Nat.lt_of_lt_of_le hshorter hcount))
      exact ⟨_, c', readToEnd_cons depth count hc hfirst hrest, hend⟩

/-- Reading a program always ends, at the end of the tokens. -/
theorem readProgram_done (c : Cursor) :
    ∃ program c', readProgram c = .done program c' ∧ c'.rest = [] :=
  readToEnd_done _ (Nat.le_refl _)

/-- With bounds that are large enough, a program is read as the unrolled rules read it. -/
theorem readToEnd_eq_unroll (rules : Rules) {k : Nat} (hcount : c.rest.length ≤ count)
    (hdepth : 8 * c.rest.length + 2 ≤ depth) (hk : 8 * c.rest.length + 3 ≤ k) :
    readToEnd depth count c = (rules.unroll k).program c := by
  induction count generalizing k c with
  | zero =>
    obtain ⟨k, rfl⟩ := Nat.exists_eq_add_of_le' (Nat.le_trans (Nat.le_add_left 1 _) hk)
    have hrest : c.rest = [] := List.length_eq_zero_iff.mp (Nat.le_zero.mp hcount)
    rw [Rules.unroll]
    dsimp only [Rules.step]
    rw [bind_of_done (atEnd_of_nil hrest)]
    rfl
  | succ count ih =>
    obtain ⟨k, rfl⟩ := Nat.exists_eq_add_of_le' (Nat.le_trans (Nat.le_add_left 1 _) hk)
    rw [readToEnd, Rules.unroll]
    refine bind_congr_at rfl fun b c₁ hb => ?_
    cases hb
    cases hrest : c.rest with
    | nil => rfl
    | cons t rest =>
      have hagree := bounded_agree rules (show 8 * c.rest.length + 2 ≤ depth from hdepth)
        (show 8 * c.rest.length + 2 ≤ k by omega)
      refine bind_congr_at (hagree.declaration c.rest.length (Nat.le_refl _) c (Nat.le_refl _))
        fun first c₁ hr => ?_
      have hshorter := readDeclaration_shorter depth (c := c) (by simp [hrest])
      rw [hr] at hshorter
      change c₁.rest.length < c.rest.length at hshorter
      exact bind_congr_at (ih (by omega) (by omega) (by omega)) fun _ _ _ => rfl

/-- **The recursion of the rules of statements ends**: below the depth that the number of tokens
gives, no rule is called. -/
theorem unroll_program (rules : Rules) (c : Cursor) :
    (rules.unroll (readDepth c.rest.length)).program c = readProgram c :=
  (readToEnd_eq_unroll rules (Nat.le_refl _) (by simp only [readDepth]; omega)
    (by simp only [readDepth]; omega)).symm

/-- Larger bounds make no difference. -/
theorem readToEnd_stable (hcount : c.rest.length ≤ count)
    (hdepth : readDepth c.rest.length ≤ depth) : readToEnd depth count c = readProgram c := by
  rw [← unroll_program (bounded 0)]
  exact readToEnd_eq_unroll (bounded 0) hcount (by simp only [readDepth] at hdepth; omega)
    (by simp only [readDepth]; omega)

theorem built_readToEnd (depth count : Nat) : Reader.Built (readToEnd depth count) := by
  induction count with
  | zero => exact .pure _
  | succ count ih =>
    refine Reader.Built.atEnd.bind fun b => ?_
    cases b with
    | true => exact .pure _
    | false => exact (built_bounded depth).declaration.bind fun _ => ih.bind fun _ => .pure _

theorem built_readProgram : Reader.Built readProgram :=
  .sized (r := fun n => readToEnd (readDepth n) n) (fun n => built_readToEnd (readDepth n) n)
    fun n m c hc h => by
    have hstable {k : Nat} (hk : c.rest.length ≤ k) : readToEnd (readDepth k) k c = readProgram c :=
      readToEnd_stable hk (by simp only [readDepth]; omega)
    rw [hstable hc, hstable (Nat.le_trans hc h)]

end Stmt

/-- **Parsing notes that it has gone wrong exactly if it reports something.** -/
theorem Parse.hadError_eq (tokens : List Token) (nextId : NodeId) :
    (ofTokens tokens nextId).hadError = !(ofTokens tokens nextId).errors.isEmpty := by
  have hread := Stmt.built_readProgram.flagged (Cursor.ofTokens_flagged tokens nextId)
  unfold ofTokens
  cases hr : Stmt.readProgram (Cursor.ofTokens tokens nextId) with
  | done program c =>
    rw [hr] at hread
    exact hread
  | failed e c => exact c.report_flagged e

theorem Parse.errors_eq_nil_of_hadError {tokens : List Token} {nextId : NodeId}
    (h : (ofTokens tokens nextId).hadError = false) : (ofTokens tokens nextId).errors = [] := by
  simpa [hadError_eq] using h

theorem Parse.exists_eq_of_hadError {tokens : List Token} {nextId : NodeId}
    (h : (ofTokens tokens nextId).hadError = false) : ∃ program next,
      ofTokens tokens nextId = ⟨program, [], next, false⟩ := by
  refine ⟨(ofTokens tokens nextId).program, (ofTokens tokens nextId).nextId, ?_⟩
  rw [← errors_eq_nil_of_hadError h, ← h]

/-- An expression is given only if nothing is reported. -/
theorem ParsedExpr.errors_eq_nil {tokens : List Token} {nextId : NodeId} {e : Expr}
    (h : (ofTokens tokens nextId).expr? = some e) : (ofTokens tokens nextId).errors = [] := by
  have hbuilt : Reader.Built Expr.readWhole := by
    refine Expr.built_read.bind fun e => Reader.Built.atEnd.bind fun b => ?_
    cases b with
    | true => exact .pure e
    | false => exact .failHere _
  have hread := hbuilt.flagged (Cursor.ofTokens_flagged tokens nextId)
  unfold ofTokens at h ⊢
  cases hr : Expr.readWhole (Cursor.ofTokens tokens nextId) with
  | done e' c =>
    rw [hr] at hread h
    change c.hadError = !c.errors.isEmpty at hread
    simp_all
  | failed f c =>
    rw [hr] at h
    cases h

end Lox
