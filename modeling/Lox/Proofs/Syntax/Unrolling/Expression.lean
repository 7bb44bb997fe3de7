import Lox.Proofs.Syntax.Progress

/-!
# The recursion of the rules of expressions

The rules of expressions call each other. `Expr.Rules.step` writes each rule once, in terms of the
rules that it calls, and without a bound. Unrolling the rules `depth` times over any rules at all
gives readers that ask these only below that depth of calls. If the reading does not depend on them,
the recursion ends above (`Expr.unroll_assignment`).

Between two tokens only so many rules can be entered. A rule called with `n` tokens left goes no
deeper than `16 * n` calls and a few more, by the place of the rule in the grammar
(`Expr.Rules.Agree`).
-/

namespace Lox

namespace Expr

open Reader

/-- Readers for the rules of expressions. -/
structure Rules where
  assignment : Reader Expr
  binary : Level → Reader Expr
  operand : Level → Reader Expr
  binaryRest : Level → Expr → Reader Expr
  unary : Reader Expr
  call : Reader Expr
  callRest : Expr → Reader Expr
  arguments : Reader (List Expr)
  argumentList : Nat → Reader (List Expr)
  primary : Reader Expr

/-- What follows the first token of a primary expression. -/
def primaryOf (assignment : Reader Expr) (t : Token) : Reader Expr :=
  match t.kind with
  | .keyword .falseWord => return .literal .false
  | .keyword .trueWord => return .literal .true
  | .keyword .nilWord => return .literal .nil
  | .number x => return .literal (.number x)
  | .string s => return .literal (.string s)
  | .keyword .thisWord => do
    let id ← fresh
    return .thisRef id t
  | .keyword .superWord => do
    let _ ← expectSymbol .dot .superDot
    let method ← expectName .superMethod
    let id ← fresh
    return .superRef id t method
  | .symbol .leftParen => do
    let inner ← assignment
    let _ ← expectSymbol .rightParen .groupClose
    return .grouping inner
  | _ => do
    let id ← fresh
    return .variable id t

namespace Rules

/-- Each rule, with its calls to the rules given. -/
def step (rules : Rules) : Rules where
  assignment := do
    let target ← rules.binary .disjunction
    match ← acceptSymbol .equal with
    | none => return target
    | some equals =>
      let value ← rules.assignment
      assignTo target equals value
  binary level := do
    let left ← rules.operand level
    rules.binaryRest level left
  operand level :=
    match level.tighter? with
    | some next => rules.binary next
    | none => rules.unary
  binaryRest level left := do
    match ← accept level.operators with
    | none => return left
    | some operator =>
      let right ← rules.operand level
      rules.binaryRest level (level.node left operator right)
  unary := do
    match ← accept isUnary with
    | some operator =>
      let right ← rules.unary
      return .unary operator right
    | none => rules.call
  call := do
    let callee ← rules.primary
    rules.callRest callee
  callRest callee := do
    match ← acceptSymbol .leftParen with
    | some _ =>
      let arguments ← rules.arguments
      let paren ← expectSymbol .rightParen .argumentsClose
      rules.callRest (.call callee paren arguments)
    | none =>
      match ← acceptSymbol .dot with
      | some _ =>
        let name ← expectName .propertyName
        rules.callRest (.get callee name)
      | none => return callee
  arguments := do
    if ← check (Kind.isSymbol .rightParen) then
      return []
    rules.argumentList 0
  argumentList count := do
    if maxArity ≤ count then
      reportHere .tooManyArguments
    commaList rules.assignment (rules.argumentList (count + 1))
  primary := do
    match ← accept startsPrimary with
    | none => failHere .expression
    | some t => primaryOf rules.assignment t

/-- The rules over the rules given, unrolled to a depth of calls. -/
def unroll (rules : Rules) : Nat → Rules
  | 0 => rules
  | depth + 1 => (rules.unroll depth).step

end Rules

/-- The rules with a bound on the depth of calls. -/
def bounded (depth : Nat) : Rules :=
  ⟨readAssignment depth, readBinary depth, readOperand depth, readBinaryRest depth, readUnary depth,
    readCall depth, readCallRest depth, readArguments depth, readArgumentList depth, readPrimary
    depth⟩

theorem bounded_succ (depth : Nat) : bounded (depth + 1) = (bounded depth).step := rfl

/-! ## The rules go forward -/

namespace Rules

variable {rules : Rules}

/-- No rule looks for a semicolon or for the end, and a primary expression takes a token. -/
structure Built (rules : Rules) : Prop where
  assignment : Reader.Sparing rules.assignment
  binary : ∀ l, Reader.Sparing (rules.binary l)
  operand : ∀ l, Reader.Sparing (rules.operand l)
  binaryRest : ∀ l left, Reader.Sparing (rules.binaryRest l left)
  unary : Reader.Sparing rules.unary
  call : Reader.Sparing rules.call
  callRest : ∀ callee, Reader.Sparing (rules.callRest callee)
  arguments : Reader.Sparing rules.arguments
  argumentList : ∀ count, Reader.Sparing (rules.argumentList count)
  primary : Reader.Sparing rules.primary
  primary_takes : Takes rules.primary

theorem built_assignTo (target : Expr) (equals : Token) (value : Expr) :
    Reader.Sparing (assignTo target equals value) := by
  cases target with
  | «variable» id name => exact Reader.Sparing.fresh.bind fun _ => .pure _
  | get object name => exact .pure _
  | _ => exact (Reader.Sparing.report _).bind fun _ => .pure _

theorem built_primaryOf {assignment : Reader Expr} (h : Reader.Sparing assignment) (t : Token) :
    Reader.Sparing (primaryOf assignment t) := by
  unfold primaryOf
  split
  · exact .pure _
  · exact .pure _
  · exact .pure _
  · exact .pure _
  · exact .pure _
  · exact Reader.Sparing.fresh.bind fun _ => .pure _
  · exact .expectThen fun _ => .expectThen fun _ => Reader.Sparing.fresh.bind fun _ => .pure _
  · exact h.bind fun _ => .expectThen fun _ => .pure _
  · exact Reader.Sparing.fresh.bind fun _ => .pure _

/-- One step further the readers are built of steps. -/
theorem Built.step (h : rules.Built) : rules.step.Built where
  assignment := (h.binary .disjunction).bind fun target =>
    .acceptThen rfl (.pure _) fun equals => h.assignment.bind fun value => built_assignTo target
      equals value
  binary l := (h.operand l).bind fun left => h.binaryRest l left
  operand l := by
    cases l with
    | factor => exact h.unary
    | _ => exact h.binary _
  binaryRest l left := by
    refine .acceptThen (by cases l <;> rfl) (.pure _) fun operator => ?_
    exact (h.operand l).bind fun right => h.binaryRest l _
  unary := .acceptThen rfl h.call fun operator => h.unary.bind fun _ => .pure _
  call := h.primary.bind fun callee => h.callRest callee
  callRest callee := by
    refine .acceptThen rfl (.acceptThen rfl (.pure _) fun dot => ?_) fun left => ?_
    · exact .expectThen fun name => h.callRest _
    · exact h.arguments.bind fun arguments => .expectThen fun right => h.callRest _
  arguments := by
    refine (Reader.Sparing.check rfl).bind fun b => ?_
    cases b with
    | true => exact .pure _
    | false => exact h.argumentList 0
  argumentList count := by
    have hlist : Reader.Sparing (commaList rules.assignment (rules.argumentList (count + 1))) :=
      h.assignment.bind fun _ => .acceptThen rfl (.pure _) fun _ =>
        (h.argumentList (count + 1)).bind fun _ => .pure _
    dsimp only [Rules.step]
    split
    · exact (Reader.Sparing.reportHere _).bind fun _ => hlist
    · exact hlist
  primary := .acceptThen rfl (.failHere _) fun t => built_primaryOf h.assignment t
  primary_takes := .accept .failHere fun t => (built_primaryOf h.assignment t).built

end Rules

theorem built_bounded (depth : Nat) : (bounded depth).Built := by
  induction depth with
  | zero =>
    exact ⟨.failHere _, fun _ => .failHere _, fun _ => .failHere _, fun _ _ => .failHere _,
      .failHere _, .failHere _, fun _ => .failHere _, .failHere _, fun _ => .failHere _,
      .failHere _, .failHere⟩
  | succ depth ih =>
    rw [bounded_succ]
    exact ih.step

/-! ## The recursion ends -/

end Expr

/-- How loose a level binds. -/
def Level.looseness : Level → Nat
  | disjunction => 5
  | conjunction => 4
  | equality => 3
  | comparison => 2
  | term => 1
  | factor => 0

theorem Level.looseness_le (l : Level) : l.looseness ≤ 5 := by
  cases l <;> decide

namespace Expr

open Reader

namespace Rules

variable {rules rules' : Rules} {bound : Nat}

/-- Rules that do the same wherever a bound on the depth of calls is enough for the tokens left. -/
structure Agree (bound : Nat) (rules rules' : Rules) : Prop where
  assignment : ∀ n, 16 * n + 16 ≤ bound → AgreeOn n rules.assignment rules'.assignment
  binary : ∀ l n, 16 * n + (2 * l.looseness + 5) ≤ bound →
    AgreeOn n (rules.binary l) (rules'.binary l)
  operand : ∀ l n, 16 * n + (2 * l.looseness + 4) ≤ bound →
    AgreeOn n (rules.operand l) (rules'.operand l)
  binaryRest : ∀ l left n, 16 * n + 1 ≤ bound →
    AgreeOn n (rules.binaryRest l left) (rules'.binaryRest l left)
  unary : ∀ n, 16 * n + 3 ≤ bound → AgreeOn n rules.unary rules'.unary
  call : ∀ n, 16 * n + 2 ≤ bound → AgreeOn n rules.call rules'.call
  callRest : ∀ callee n, 16 * n + 3 ≤ bound →
    AgreeOn n (rules.callRest callee) (rules'.callRest callee)
  arguments : ∀ n, 16 * n + 18 ≤ bound → AgreeOn n rules.arguments rules'.arguments
  argumentList : ∀ count n, 16 * n + 17 ≤ bound →
    AgreeOn n (rules.argumentList count) (rules'.argumentList count)
  primary : ∀ n, 16 * n + 1 ≤ bound → AgreeOn n rules.primary rules'.primary

/-- One step further the rules agree on more tokens. -/
theorem Agree.step (h : Agree bound rules rules') (hb : rules.Built) :
    Agree (bound + 1) rules.step rules'.step where
  assignment n hn := by
    refine (h.binary .disjunction n (by simp only [Level.looseness]; omega)).bind
      (hb.binary _).built fun target => ?_
    refine .accept .refl ?_
    rintro equals m rfl
    exact (h.assignment m (by omega)).bind hb.assignment.built fun value => .refl
  binary l n hn :=
    (h.operand l n (by omega)).bind (hb.operand l).built fun left => h.binaryRest l left n
      (by omega)
  operand l n hn := by
    cases l with
    | factor => exact h.unary n (by simp only [Level.looseness] at hn; omega)
    | _ => exact h.binary _ n (by simp only [Level.looseness] at hn ⊢; omega)
  binaryRest l left n hn := by
    refine .accept .refl ?_
    rintro operator m rfl
    have hloose := l.looseness_le
    refine (h.operand l m (by omega)).bind (hb.operand l).built fun right => ?_
    exact h.binaryRest l _ m (by omega)
  unary n hn := by
    refine .accept (h.call n (by omega)) ?_
    rintro operator m rfl
    exact (h.unary m (by omega)).bind hb.unary.built fun right => .refl
  call n hn := by
    -- The callee takes a token, so what follows it has one less.
    refine (h.primary n (by omega)).bind_takes hb.primary_takes ?_
    rintro callee m rfl
    exact h.callRest callee m (by omega)
  callRest callee n hn := by
    refine .accept (.accept .refl ?_) ?_
    · rintro dot m rfl
      refine .expect ?_
      rintro name k rfl
      exact h.callRest _ k (by omega)
    · rintro left m rfl
      refine (h.arguments m (by omega)).bind hb.arguments.built fun arguments => .expect ?_
      rintro right k rfl
      exact h.callRest _ k (by omega)
  arguments n hn := by
    refine AgreeOn.refl.bind (.check _) fun b => ?_
    cases b with
    | true => exact .refl
    | false => exact h.argumentList 0 n (by omega)
  argumentList count n hn := by
    have hlist : AgreeOn n (commaList rules.assignment (rules.argumentList (count + 1)))
        (commaList rules'.assignment (rules'.argumentList (count + 1))) := by
      refine .commaList hb.assignment.built (hb.argumentList _).built (h.assignment n (by omega)) ?_
      rintro m rfl
      exact h.argumentList (count + 1) m (by omega)
    dsimp only [Rules.step]
    split
    · exact AgreeOn.refl.bind (.reportHere _) fun _ => hlist
    · exact hlist
  primary n hn := by
    refine .accept .refl ?_
    rintro t m rfl
    show AgreeOn m (primaryOf rules.assignment t) (primaryOf rules'.assignment t)
    unfold primaryOf
    split
    case h_8 => exact (h.assignment m (by omega)).bind hb.assignment.built fun inner => .refl
    all_goals exact .refl

end Rules

/-- Unrolled deep enough, the rules over any rules do what the bounded ones do. -/
theorem bounded_agree (rules : Rules) {bound depth depth' : Nat} (hdepth : bound ≤ depth)
    (hdepth' : bound ≤ depth') : Rules.Agree bound (bounded depth) (rules.unroll depth') := by
  induction bound generalizing depth depth' with
  | zero =>
    constructor <;> intros <;> omega
  | succ bound ih =>
    obtain ⟨k, rfl⟩ := Nat.exists_eq_add_of_le' hdepth
    obtain ⟨k', rfl⟩ := Nat.exists_eq_add_of_le' hdepth'
    rw [← Nat.add_assoc, ← Nat.add_assoc, bounded_succ, Rules.unroll]
    exact (ih (by omega) (by omega)).step (built_bounded _)

/-- **The recursion of the rules of expressions ends**: below the depth that the number of tokens
gives, no rule is called. -/
theorem unroll_assignment (rules : Rules) (c : Cursor) :
    (rules.unroll (readDepth c.rest.length)).assignment c = read c :=
  ((bounded_agree rules (Nat.le_refl _) (Nat.le_refl _)).assignment c.rest.length
    (by simp only [readDepth]; omega) c (Nat.le_refl _)).symm

/-- A larger bound on the depth of calls makes no difference. -/
theorem readAssignment_stable {n m : Nat} {c : Cursor} (hc : c.rest.length ≤ n) (h : n ≤ m) :
    readAssignment (readDepth n) c = readAssignment (readDepth m) c := by
  have hunroll {k : Nat} (hk : c.rest.length ≤ k) : readAssignment (readDepth k) c =
      ((bounded 0).unroll (readDepth c.rest.length)).assignment c := by
    have hdepth : readDepth c.rest.length ≤ readDepth k := by
      simp only [readDepth]
      omega
    have hagree := bounded_agree (bounded 0) hdepth (Nat.le_refl _)
    exact hagree.assignment c.rest.length (by simp only [readDepth]; omega) c (Nat.le_refl _)
  rw [hunroll hc, hunroll (Nat.le_trans hc h)]

theorem sparing_read : Reader.Sparing read :=
  .sized (r := fun n => readAssignment (readDepth n))
    (fun n => (built_bounded (readDepth n)).assignment) fun _ _ _ hc h => readAssignment_stable hc h

/-- Reading an expression is built of steps. -/
theorem built_read : Reader.Built read :=
  sparing_read.built

end Expr

end Lox
