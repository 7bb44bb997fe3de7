import Lox.Proofs.Syntax.Grammar
import Lox.Proofs.Syntax.Unrolling.Statement

/-!
# What is read without an error is derived

A reader that gives a value and has reported nothing has taken tokens from the front that the
grammar derives, and its value is the tree of the derivation.

`Sound r P` says this of a reader: the tokens taken and the value satisfy `P`. Errors are never
taken back, so that none at the end means none before. Readers are put together by `bind`, and
`Sound` follows them. What the first reader gives is known only once the second is seen to report
nothing, so it stands as a hypothesis inside the predicate of the second.
-/

namespace Lox

variable {e : Expr} {ts : List Token}

/-! ## Kinds -/

namespace Grammar

variable {t operator : Token} {l : Level}

theorem isSymbol_iff {s : Symbol} : t.kind.isSymbol s = true ↔ IsSymbol s t := by
  unfold IsSymbol
  cases t.kind with
  | symbol u => simp only [Kind.isSymbol, beq_iff_eq, Kind.symbol.injEq]; exact eq_comm
  | _ => simp [Kind.isSymbol]

theorem isWord_iff {k : Keyword} : t.kind.isKeyword k = true ↔ IsWord k t := by
  unfold IsWord
  cases t.kind with
  | keyword l => simp only [Kind.isKeyword, beq_iff_eq, Kind.keyword.injEq]; exact eq_comm
  | _ => simp [Kind.isKeyword]

theorem isName_iff : t.kind.isIdentifier = true ↔ IsName t := by
  unfold IsName
  cases t.kind <;> simp [Kind.isIdentifier]

theorem isUnary_iff : Expr.isUnary t.kind = true ↔ IsSymbol .bang t ∨ IsSymbol .minus t := by
  unfold IsSymbol
  constructor
  · intro h
    unfold Expr.isUnary at h
    split at h
    · next hk => exact .inl hk
    · next hk => exact .inr hk
    · cases h
  · rintro (h | h) <;> rw [h] <;> rfl

/-- The operators of a level are those of the grammar, and their node is the one of the grammar. -/
theorem operators_iff {k : Kind} :
    l.operators k = true ↔ LogicalOperator l k ∨ BinaryOperator l k := by
  constructor
  · intro h
    unfold Level.operators at h
    split at h
    · exact .inl .or
    · exact .inl .and
    · exact .inr .bangEqual
    · exact .inr .equalEqual
    · exact .inr .greater
    · exact .inr .greaterEqual
    · exact .inr .less
    · exact .inr .lessEqual
    · exact .inr .minus
    · exact .inr .plus
    · exact .inr .slash
    · exact .inr .star
    · cases h
  · rintro (h | h) <;> cases h <;> rfl

theorem LogicalOperator.node (h : LogicalOperator l operator.kind) (left right : Expr) :
    l.node left operator right = .logical left operator right := by
  generalize operator.kind = k at h
  cases h <;> rfl

theorem BinaryOperator.node (h : BinaryOperator l operator.kind) (left right : Expr) :
    l.node left operator right = .binary left operator right := by
  generalize operator.kind = k at h
  cases h <;> rfl

/-- A level of operators with one more operator and operand. -/
theorem Operation.node {us : List Token} {left right : Expr} (hl : Operation l ts left)
    (ho : l.operators operator.kind = true) (hr : Operand l us right) :
    Operation l (ts ++ operator :: us) (l.node left operator right) := by
  rcases operators_iff.mp ho with h | h
  · rw [h.node]; exact .logical hl h hr
  · rw [h.node]; exact .binary hl h hr

theorem withoutIds_node (l : Level) (left right : Expr) (operator : Token) :
    (l.node left operator right).withoutIds = l.node left.withoutIds operator right.withoutIds := by
  cases l <;> rfl

/-! ## What can be assigned to -/

/-- An expression that no operator stands on top of. -/
def NoOperator : Expr → Prop
  | .unary .. | .binary .. | .logical .. => False
  | _ => True

theorem Operation.operand_of (h : Operation l ts e) (he : NoOperator e) : Operand l ts e := by
  cases h with
  | operand h => exact h
  | logical => exact he.elim
  | binary => exact he.elim

/-- An expression without an operator on top is a call. -/
theorem Operation.call (h : Operation .disjunction ts e) (he : NoOperator e) : Call ts e := by
  have .conjunction h₁ := h.operand_of he
  have .equality h₂ := h₁.operand_of he
  have .comparison h₃ := h₂.operand_of he
  have .term h₄ := h₃.operand_of he
  have .factor h₅ := h₄.operand_of he
  have .unary h₆ := h₅.operand_of he
  cases h₆ with
  | operator => exact he.elim
  | call h => exact h

/-- The expression that is a name is derived from that name only. -/
theorem Operation.name {name : Token} (h : Operation .disjunction ts (.variable 0 name)) :
    ts = [name] ∧ IsName name := by
  cases h.call trivial with
  | primary hp =>
    cases hp with
    | name hn => exact ⟨rfl, hn⟩

/-- The expression that is a property ends in the name of the property. -/
theorem Operation.property {name : Token} {object : Expr}
    (h : Operation .disjunction ts (.get object name)) :
    ∃ us dot, ts = us ++ [dot, name] ∧ Call us object ∧ IsSymbol .dot dot ∧ IsName name := by
  cases h.call trivial with
  | primary h => cases h
  | property ho hd hn => exact ⟨_, _, rfl, ho, hd, hn⟩

end Grammar

/-! ## Sound readers -/

namespace Reader

variable {α β : Type} {r : Reader α} {P Q : List Token → α → Prop} {R : List Token → β → Prop}

/-- If nothing has been reported at the end, nothing was at the start, and the tokens taken and the
value satisfy `P`. -/
def Sound (r : Reader α) (P : List Token → α → Prop) : Prop :=
  ∀ (c c' : Cursor) (a : α), r c = .done a c' → c'.hadError = false →
    c.hadError = false ∧ ∃ ts, c.rest = ts ++ c'.rest ∧ P ts a

namespace Sound

variable {fault : ParseFault} {p : Kind → Bool}

theorem mono (h : Sound r P) (hpq : ∀ ts a, P ts a → Q ts a) : Sound r Q := by
  intro c c' a hr he
  obtain ⟨he', ts, hts, hp⟩ := h c c' a hr he
  exact ⟨he', ts, hts, hpq ts a hp⟩

theorem pure {a : α} (h : P [] a) : Sound (Pure.pure a : Reader α) P := by
  intro c c' b hr he
  cases hr
  exact ⟨he, [], rfl, h⟩

/-- What is read one after the other is derived one after the other. -/
theorem bind {f : α → Reader β} (h : Sound r P)
    (hf : ∀ a, Sound (f a) fun us b => ∀ ts, P ts a → R (ts ++ us) b) : Sound (r >>= f) R := by
  intro c c' b hb he
  obtain ⟨a, c₁, hr, hfa⟩ := done_of_bind hb
  obtain ⟨he₁, us, hus, hq⟩ := hf a c₁ c' b hfa he
  obtain ⟨he', ts, hts, hp⟩ := h c c₁ a hr he₁
  exact ⟨he', ts ++ us, by rw [hts, hus, List.append_assoc], hq ts hp⟩

theorem failHere : Sound (Reader.failHere fault : Reader α) P := by
  intro c c' a hr
  cases hr

/-- A reader that reports something is sound for anything. -/
theorem reportThen {error : ParseError} (h : Sound r P) :
    Sound (Reader.report error >>= fun _ => r) Q := by
  intro c c' a hr he
  have hflag := (h (c.report error) c' a hr he).1
  simp [Cursor.report] at hflag

theorem reportHereThen (h : Sound r P) : Sound (Reader.reportHere fault >>= fun _ => r) Q := by
  intro c c' a hr he
  have hflag := (h (c.report (.at c.here fault)) c' a hr he).1
  simp [Cursor.report] at hflag

/-- An id is taken, but no token. -/
theorem freshThen {f : NodeId → Reader β} (h : ∀ id, Sound (f id) R) :
    Sound (Reader.fresh >>= f) R :=
  fun c c' b hb he => h c.nextId { c with nextId := c.nextId + 1 } c' b hb he

theorem atEndThen {f : Bool → Reader β} (h : ∀ b, Sound (f b) R) : Sound (Reader.atEnd >>= f) R :=
  fun c c' b hb he => h _ c c' b hb he

/-- A look at the next token takes none. -/
theorem checkThen {f : Bool → Reader β} (h : ∀ b, Sound (f b) R) : Sound (Reader.check p >>= f) R :=
  fun c c' b hb he => h _ c c' b hb he

theorem acceptThen {f : Option Token → Reader β} (hnone : Sound (f none) R)
    (hsome : ∀ t, Sound (f (some t)) fun ts b => p t.kind = true → R (t :: ts) b) :
    Sound (Reader.accept p >>= f) R := by
  intro c c' b hb he
  rcases accept_cases p c with heq | ⟨t, rest, hrest, ht, heq⟩
  · rw [bind_of_done heq] at hb
    exact hnone c c' b hb he
  · rw [bind_of_done heq] at hb
    obtain ⟨he', ts, hts, hp⟩ := hsome t _ c' b hb he
    exact ⟨he', t :: ts, hrest.trans (congrArg (t :: ·) hts), hp ht⟩

theorem expect : Sound (Reader.expect p fault) fun ts t => ts = [t] ∧ p t.kind = true := by
  intro c c' t hr he
  rcases expect_cases p fault c with heq | ⟨t, rest, hrest, ht, heq⟩
  · cases heq.symm.trans hr
  · cases heq.symm.trans hr
    exact ⟨he, [t], hrest, rfl, ht⟩

theorem expectThen {f : Token → Reader β}
    (h : ∀ t, Sound (f t) fun ts b => p t.kind = true → R (t :: ts) b) :
    Sound (Reader.expect p fault >>= f) R := by
  refine expect.bind fun t => (h t).mono ?_
  rintro us b hb _ ⟨rfl, ht⟩
  exact hb ht

/-- Reading that recovers has reported nothing only if it did not have to. -/
theorem recovering (h : Sound r P) :
    Sound (Reader.recovering r) fun ts a? => ∃ a, a? = some a ∧ P ts a := by
  intro c c' a hr he
  unfold Reader.recovering at hr
  split at hr
  · next b _ hb =>
    cases hr
    obtain ⟨he', ts, hts, hp⟩ := h c c' b hb he
    exact ⟨he', ts, hts, b, rfl, hp⟩
  · cases hr
    simp [Cursor.report, Cursor.synchronize] at he

/-- One item, or an item before a comma and others. -/
theorem commaList {others : Reader (List α)} {Q R : List Token → List α → Prop} (h : Sound r P)
    (h' : Sound others Q) (hone : ∀ ts a, P ts a → R ts [a])
    (hmore : ∀ ts us comma a as, P ts a → Grammar.IsSymbol .comma comma → Q us as →
      R (ts ++ comma :: us) (a :: as)) : Sound (Reader.commaList r others) R := by
  refine h.bind fun a => .acceptThen (.pure fun ts ha => ?_) fun comma => h'.bind fun as => .pure ?_
  · rw [List.append_nil]
    exact hone ts a ha
  · intro us has hcomma ts ha
    rw [List.append_nil]
    exact hmore ts us comma a as ha (Grammar.isSymbol_iff.mp hcomma) has

end Sound

end Reader

/-! ## Expressions -/

namespace Expr

open Reader Grammar

variable {rules : Rules}

/-- What the rules of expressions read without an error is derived. The rules that go on after an
operand or a callee derive what they add to it. -/
structure Rules.Derives (rules : Rules) : Prop where
  assignment : Sound rules.assignment fun ts e => Assignment ts e.withoutIds
  binary : ∀ l, Sound (rules.binary l) fun ts e => Operation l ts e.withoutIds
  operand : ∀ l, Sound (rules.operand l) fun ts e => Operand l ts e.withoutIds
  binaryRest : ∀ l left, Sound (rules.binaryRest l left) fun us e =>
    ∀ ts, Operation l ts left.withoutIds → Operation l (ts ++ us) e.withoutIds
  unary : Sound rules.unary fun ts e => Unary ts e.withoutIds
  call : Sound rules.call fun ts e => Call ts e.withoutIds
  callRest : ∀ callee, Sound (rules.callRest callee) fun us e =>
    ∀ ts, Call ts callee.withoutIds → Call (ts ++ us) e.withoutIds
  arguments : Sound rules.arguments fun ts es =>
    Arguments ts (withoutIdsAll es) ∧ (withoutIdsAll es).length ≤ 255
  argumentList : ∀ count, Sound (rules.argumentList count) fun ts es =>
    ArgumentList ts (withoutIdsAll es) ∧ count + (withoutIdsAll es).length ≤ 255
  primary : Sound rules.primary fun ts e => Primary ts e.withoutIds

/-- Only a name or a property can be assigned to. -/
theorem assignTo_sound (target : Expr) (equals : Token) (value : Expr) :
    Sound (assignTo target equals value) fun us e =>
      ∀ ts vs, Operation .disjunction ts target.withoutIds →
      IsSymbol .equal equals → Assignment vs value.withoutIds →
      Assignment (ts ++ equals :: (vs ++ us)) e.withoutIds := by
  cases target with
  | «variable» id name =>
    refine .freshThen fun id => .pure ?_
    intro ts vs ht he hv
    obtain ⟨rfl, hn⟩ := ht.name
    simpa [withoutIds] using Assignment.name hn he hv
  | get object name =>
    refine .pure ?_
    intro ts vs ht he hv
    obtain ⟨us, dot, rfl, ho, hd, hn⟩ := ht.property
    simpa [withoutIds] using Assignment.property ho hd hn he hv
  | _ => exact .reportThen (.pure (P := fun _ _ => True) trivial)

theorem primaryOf_sound {assignment : Reader Expr}
    (h : Sound assignment fun ts e => Assignment ts e.withoutIds) (t : Token) :
    Sound (primaryOf assignment t) fun ts e =>
      startsPrimary t.kind = true → Primary (t :: ts) e.withoutIds := by
  unfold primaryOf
  split
  · next hk => exact .pure fun _ => .falseWord hk
  · next hk => exact .pure fun _ => .trueWord hk
  · next hk => exact .pure fun _ => .nilWord hk
  · next hk => exact .pure fun _ => .number hk
  · next hk => exact .pure fun _ => .string hk
  · next hk => exact .freshThen fun id => .pure fun _ => .thisWord hk
  · next hk =>
    refine .expectThen fun dot => .expectThen fun method => .freshThen fun id => .pure ?_
    intro hm hd _
    exact .superMethod hk (isSymbol_iff.mp hd) (isName_iff.mp hm)
  · next hk =>
    refine h.bind fun inner => .expectThen fun right => .pure ?_
    intro hr ts ha _
    exact .group hk ha (isSymbol_iff.mp hr)
  · refine .freshThen fun id => .pure fun hs => .name ?_
    unfold IsName
    unfold startsPrimary at hs
    split at hs <;> simp_all

/-- The calls of a rule derive parts of what the rule derives. -/
theorem Rules.Derives.step (h : rules.Derives) : rules.step.Derives where
  assignment := by
    refine (h.binary .disjunction).bind fun target => .acceptThen (.pure fun ts ht => ?_)
      fun equals => ?_
    · simpa using Assignment.or ht
    · refine h.assignment.bind fun value => (assignTo_sound target equals value).mono ?_
      intro us e ha vs hv he ts ht
      exact ha ts vs ht (isSymbol_iff.mp he) hv
  binary l := (h.operand l).bind fun left => (h.binaryRest l left).mono fun us e hr ts ht =>
    hr ts (.operand ht)
  operand l := by
    cases l with
    | disjunction => exact (h.binary .conjunction).mono fun _ _ => .conjunction
    | conjunction => exact (h.binary .equality).mono fun _ _ => .equality
    | equality => exact (h.binary .comparison).mono fun _ _ => .comparison
    | comparison => exact (h.binary .term).mono fun _ _ => .term
    | term => exact (h.binary .factor).mono fun _ _ => .factor
    | factor => exact h.unary.mono fun _ _ => .unary
  binaryRest l left := by
    refine .acceptThen (.pure fun ts hl => ?_) fun operator => ?_
    · simpa using hl
    · refine (h.operand l).bind fun right => (h.binaryRest l (l.node left operator right)).mono ?_
      intro vs e hrest us hr ho ts hl
      have hn := hrest (ts ++ operator :: us) (by rw [withoutIds_node]; exact hl.node ho hr)
      simpa using hn
  unary := by
    refine .acceptThen (h.call.mono fun _ _ => .call) fun operator => h.unary.bind fun right =>
      .pure ?_
    intro ts hu ho
    simpa [withoutIds] using Unary.operator (isUnary_iff.mp ho) hu
  call := h.primary.bind fun callee => (h.callRest callee).mono fun us e hr ts ht =>
    hr ts (.primary ht)
  callRest callee := by
    refine .acceptThen (.acceptThen (.pure fun ts hc => ?_) fun dot => ?_) fun left => ?_
    · simpa using hc
    · refine .expectThen fun name => (h.callRest (.get callee name)).mono ?_
      intro vs e hrest hn hd ts hc
      have hn := hrest (ts ++ [dot, name]) (.property hc (isSymbol_iff.mp hd) (isName_iff.mp hn))
      simpa using hn
    · refine h.arguments.bind fun arguments => .expectThen fun right =>
        (h.callRest (.call callee right arguments)).mono ?_
      rintro vs e hrest hr us ⟨ha, hm⟩ hl ts hc
      have hn := hrest (ts ++ left :: (us ++ [right]))
        (.call hc (isSymbol_iff.mp hl) ha hm (isSymbol_iff.mp hr))
      simpa using hn
  arguments := by
    refine .checkThen fun b => ?_
    cases b with
    | true => exact .pure ⟨.none, Nat.zero_le _⟩
    | false => exact (h.argumentList 0).mono fun ts es ⟨ha, hm⟩ => ⟨.some ha, by omega⟩
  argumentList count := by
    have hlist : Sound (commaList rules.assignment (rules.argumentList (count + 1))) fun ts es =>
        count < 255 → ArgumentList ts (withoutIdsAll es) ∧
          count + (withoutIdsAll es).length ≤ 255 := by
      refine .commaList h.assignment (h.argumentList (count + 1)) (fun ts e he hc => ⟨.one he, hc⟩)
        ?_
      rintro ts us comma e es he hcomma ⟨hs, hm⟩ -
      refine ⟨.more he hcomma hs, ?_⟩
      rw [withoutIdsAll, List.length_cons]
      omega
    dsimp only [Rules.step]
    split
    · exact .reportHereThen hlist
    · next hc => exact hlist.mono fun _ _ hs => hs (Nat.lt_of_not_le hc)
  primary := .acceptThen .failHere fun t => primaryOf_sound h.assignment t

/-- What the readers of expressions take without an error is derived, whatever the bound on their
calls. -/
theorem derives_bounded (depth : Nat) : (bounded depth).Derives := by
  induction depth with
  | zero =>
    exact ⟨.failHere, fun _ => .failHere, fun _ => .failHere, fun _ _ => .failHere, .failHere,
      .failHere, fun _ => .failHere, .failHere, fun _ => .failHere, .failHere⟩
  | succ depth ih =>
    rw [bounded_succ]
    exact ih.step

/-- What is read as an expression is one by the grammar. -/
theorem read_sound : Sound read fun ts e => Assignment ts e.withoutIds :=
  fun c => (derives_bounded (readDepth c.rest.length)).assignment c

end Expr

/-! ## Declarations without statements in them -/

namespace Stmt

open Reader Grammar

/-- One parameter and, after a comma, the others. -/
theorem paramList_sound {others : Reader (List Token)} {count : Nat}
    (h : Sound others fun ts names =>
    ParamList ts names ∧ count + 1 + names.length ≤ 255) :
    Sound (commaList (expectName .paramName) others) fun ts names =>
      count < 255 → ParamList ts names ∧ count + names.length ≤ 255 := by
  refine .commaList Sound.expect h ?_ ?_
  · rintro _ name ⟨rfl, hn⟩ hc
    exact ⟨.one (isName_iff.mp hn), hc⟩
  · rintro _ us comma name names ⟨rfl, hn⟩ hcomma ⟨hs, hm⟩ -
    refine ⟨.more (isName_iff.mp hn) hcomma hs, ?_⟩
    rw [List.length_cons]
    omega

theorem readParamList_sound (depth count : Nat) :
    Sound (readParamList depth count) fun ts names => ParamList ts names ∧
      count + names.length ≤ 255 := by
  induction depth generalizing count with
  | zero => exact .failHere
  | succ depth ih =>
    unfold readParamList
    split
    · exact .reportHereThen (paramList_sound (ih (count + 1)))
    · next hc =>
        exact (paramList_sound (ih (count + 1))).mono fun _ _ hs => hs (Nat.lt_of_not_le hc)

theorem readUnless_sound (s : Symbol) :
    Sound (readUnless s) fun ts e? => OptionalExpr ts (e?.map Expr.withoutIds) := by
  refine .checkThen fun b => ?_
  cases b with
  | true => exact .pure .none
  | false =>
    refine Expr.read_sound.bind fun e => .pure ?_
    intro ts he
    simpa using OptionalExpr.some he

theorem readExpression_sound : Sound readExpression fun ts s =>
    ∃ e, s = .expression e ∧ ExpressionEnd ts e.withoutIds := by
  refine Expr.read_sound.bind fun e => .expectThen fun semicolon => .pure ?_
  intro hs ts he
  exact ⟨e, rfl, .mk he (isSymbol_iff.mp hs)⟩

theorem readPrint_sound :
    Sound readPrint fun ts s => ∃ e, s = .print e ∧ ExpressionEnd ts e.withoutIds := by
  refine Expr.read_sound.bind fun e => .expectThen fun semicolon => .pure ?_
  intro hs ts he
  exact ⟨e, rfl, .mk he (isSymbol_iff.mp hs)⟩

theorem readInitializer_sound :
    Sound readInitializer fun ts e? => Initializer ts (e?.map Expr.withoutIds) := by
  refine .acceptThen (.pure .none) fun equals => Expr.read_sound.bind fun e => .pure ?_
  intro ts he hq
  simpa using Initializer.some (isSymbol_iff.mp hq) he

theorem readVar_sound : Sound readVar fun ts s => Variable ts s.withoutIds := by
  refine .expectThen fun name => readInitializer_sound.bind fun e? => .expectThen fun semicolon =>
    .pure ?_
  intro hs ts hi hn
  exact .mk (isName_iff.mp hn) hi (isSymbol_iff.mp hs)

theorem readReturn_sound (word : Token) :
    Sound (readReturn word) fun ts s => IsWord .returnWord word →
      Statement false false (word :: ts) s.withoutIds := by
  refine (readUnless_sound .semicolon).bind fun value => .expectThen fun semicolon => .pure ?_
  intro hs ts hv hw
  exact .returnWith hw hv (isSymbol_iff.mp hs)

theorem readForInitializer_sound :
    Sound readForInitializer fun ts s? => ForInitializer ts (s?.map withoutIds) := by
  refine .acceptThen (.acceptThen ?_ fun word => ?_) fun semicolon => .pure fun hs =>
    .none (isSymbol_iff.mp hs)
  · refine readExpression_sound.bind fun s => .pure ?_
    rintro ts ⟨e, rfl, he⟩
    simpa [withoutIds] using ForInitializer.expression he
  · refine readVar_sound.bind fun s => .pure ?_
    intro ts hv hw
    simpa using ForInitializer.var (isWord_iff.mp hw) hv

theorem readSuperclass_sound :
    Sound readSuperclass fun ts e? => Superclass ts (e?.map Expr.withoutIds) := by
  refine .acceptThen (.pure .none) fun less => .expectThen fun name => .freshThen fun id => .pure ?_
  intro hn hl
  exact .some (isSymbol_iff.mp hl) (isName_iff.mp hn)

/-- The loop that is read has the tree of the grammar. -/
theorem withoutIds_forLoop (initializer : Option Stmt) (condition increment : Option Expr)
    (body : Stmt) :
    (forLoop initializer condition increment body).withoutIds = forTree (initializer.map withoutIds)
      (condition.map Expr.withoutIds) (increment.map Expr.withoutIds) body.withoutIds := by
  cases initializer <;> cases condition <;> cases increment <;> rfl

/-! ## Statements -/

/-- What the rules of statements read without an error is derived by the grammar as it is written.
Those that go on after a word of a statement derive what follows it. -/
structure Rules.Derives (rules : Rules) : Prop where
  declaration : Sound rules.declaration fun ts s? => ∃ s, s? = some s ∧
    Declaration false ts s.withoutIds
  classDef : Sound rules.classDef fun ts s => ∀ word, IsWord .classWord word →
    Declaration false (word :: ts) s.withoutIds
  methods : Sound rules.methods fun ts ds => Methods false ts (methodsWithoutIds ds)
  function : ∀ c, Sound (rules.function c) fun ts d => Function false ts (functionWithoutIds d)
  paramList : ∀ count, Sound (rules.paramList count) fun ts names =>
    ParamList ts names ∧ count + names.length ≤ 255
  block : Sound rules.block fun ts body => ∀ left, IsSymbol .leftBrace left →
    Block false (left :: ts) (withoutIdsAll body)
  declarations : Sound rules.declarations fun ts body => Program false ts (withoutIdsAll body)
  statement : Sound rules.statement fun ts s => ∃ o, Statement false o ts s.withoutIds
  forLoop : Sound rules.forLoop fun ts s => ∀ word, IsWord .forWord word →
    ∃ o, Statement false o (word :: ts) s.withoutIds
  ifThen : Sound rules.ifThen fun ts s => ∀ word, IsWord .ifWord word →
    ∃ o, Statement false o (word :: ts) s.withoutIds
  whileLoop : Sound rules.whileLoop fun ts s => ∀ word, IsWord .whileWord word →
    ∃ o, Statement false o (word :: ts) s.withoutIds

namespace Rules.Derives

variable {rules : Rules}

theorem declarationOnce (h : rules.Derives) :
    Sound rules.declarationOnce fun ts s => Declaration false ts s.withoutIds := by
  refine .acceptThen (.acceptThen (.acceptThen ?_ fun word => ?_) fun word => ?_) fun word => ?_
  · exact h.statement.mono fun ts s ⟨o, hs⟩ => .statement hs
  · exact readVar_sound.mono fun ts s hs hw => .var (isWord_iff.mp hw) hs
  · refine (h.function .function).bind fun d => .pure ?_
    intro ts hd hw
    simpa [withoutIds] using Declaration.function (isWord_iff.mp hw) hd
  · exact h.classDef.mono fun ts s hs hw => hs word (isWord_iff.mp hw)

theorem params (h : rules.Derives) :
    Sound rules.params fun ts names => Params ts names ∧ names.length ≤ 255 := by
  refine .checkThen fun b => ?_
  cases b with
  | true => exact .pure ⟨.none, Nat.zero_le _⟩
  | false => exact (h.paramList 0).mono fun ts names ⟨hp, hm⟩ => ⟨.some hp, by omega⟩

theorem statementOf (h : rules.Derives) (t : Token) : Sound (rules.statementOf t) fun ts s =>
    startsStatement t.kind = true → ∃ o, Statement false o (t :: ts) s.withoutIds := by
  unfold Rules.statementOf
  split
  · next hk => exact h.forLoop.mono fun ts s hs _ => hs t hk
  · next hk => exact h.ifThen.mono fun ts s hs _ => hs t hk
  · next hk => exact h.whileLoop.mono fun ts s hs _ => hs t hk
  · next hk => exact (readReturn_sound t).mono fun ts s hs _ => ⟨false, hs hk⟩
  · next hk =>
    refine h.block.bind fun body => .pure ?_
    intro ts hb _
    refine ⟨false, ?_⟩
    simpa [withoutIds] using Statement.block (hb t hk)
  · refine readPrint_sound.mono ?_
    rintro ts _ ⟨e, rfl, he⟩ hp
    refine ⟨false, .print ?_ he⟩
    unfold IsWord
    unfold startsStatement at hp
    split at hp <;> simp_all

/-- Rules that go on up to a closing brace or the end. -/
theorem untilBrace {α : Type} {item : Reader (List α)} {P : List Token → List α → Prop}
    (hnil : P [] []) (h : Sound item P) : Sound (do
      if (← check (Kind.isSymbol .rightBrace)) || (← atEnd) then
        return []
      item) P := by
  refine .checkThen fun b => .atEndThen fun b' => ?_
  cases b || b' with
  | true => exact .pure hnil
  | false => exact h

/-- The calls of a rule derive parts of what the rule derives. -/
theorem step (h : rules.Derives) : rules.step.Derives where
  declaration := h.declarationOnce.recovering
  classDef := by
    refine .expectThen fun name => readSuperclass_sound.bind fun superclass =>
      .expectThen fun left => ?_
    refine h.methods.bind fun methods => .expectThen fun right => .pure ?_
    intro hr ts hm hl ss hs hn word hw
    exact .classDef hw (isName_iff.mp hn) hs (isSymbol_iff.mp hl) hm (isSymbol_iff.mp hr)
  methods := by
    refine untilBrace .nil ((h.function .method).bind fun d => h.methods.bind fun rest => .pure ?_)
    intro us hs ts hd
    simpa [methodsWithoutIds] using Methods.cons hd hs
  function c := by
    refine .expectThen fun name => .expectThen fun left => h.params.bind fun params => ?_
    refine .expectThen fun right => .expectThen fun brace => h.block.bind fun body => .pure ?_
    rintro ts hb hbrace hr ps ⟨hp, hm⟩ hl hn
    have hf := Function.mk (isName_iff.mp hn) (isSymbol_iff.mp hl) hp hm (isSymbol_iff.mp hr)
      (hb brace (isSymbol_iff.mp hbrace))
    simpa [functionWithoutIds] using hf
  paramList count := by
    have hlist := paramList_sound (h.paramList (count + 1))
    dsimp only [Rules.step]
    split
    · exact .reportHereThen hlist
    · next hc => exact hlist.mono fun _ _ hs => hs (Nat.lt_of_not_le hc)
  block := by
    refine h.declarations.bind fun body => .expectThen fun right => .pure ?_
    intro hr ts hb left hl
    exact .mk hl hb (isSymbol_iff.mp hr)
  declarations := by
    refine untilBrace .nil (h.declaration.bind fun first => h.declarations.bind fun rest =>
      .pure ?_)
    rintro us hs ts ⟨s, rfl, hd⟩
    simpa [withoutIdsAll] using Program.cons hd hs
  statement := by
    refine .acceptThen (readExpression_sound.mono ?_) h.statementOf
    rintro ts _ ⟨e, rfl, he⟩
    exact ⟨false, .expression he⟩
  forLoop := by
    refine .expectThen fun left => readForInitializer_sound.bind fun initializer => ?_
    refine (readUnless_sound .semicolon).bind fun condition => .expectThen fun semicolon => ?_
    refine (readUnless_sound .rightParen).bind fun increment => .expectThen fun right => ?_
    refine h.statement.bind fun body => .pure ?_
    rintro ts ⟨o, hb⟩ hr us hu hs cs hc is hi hl word hw
    refine ⟨o, ?_⟩
    rw [withoutIds_forLoop]
    simpa using Statement.forLoop hw (isSymbol_iff.mp hl) hi hc (isSymbol_iff.mp hs) hu
      (isSymbol_iff.mp hr) hb
  ifThen := by
    refine .expectThen fun left => Expr.read_sound.bind fun condition => .expectThen fun right => ?_
    refine h.statement.bind fun thenBranch => .acceptThen (.pure ?_) fun elseWord => ?_
    · rintro ts ⟨o, ht⟩ hr cs hc hl word hw
      refine ⟨true, ?_⟩
      simpa [withoutIds] using Statement.ifThen hw (isSymbol_iff.mp hl) hc (isSymbol_iff.mp hr) ht
    · refine h.statement.bind fun elseBranch => .pure ?_
      rintro us ⟨o', hs⟩ he ts ⟨o, ht⟩ hr cs hc hl word hw
      refine ⟨o', ?_⟩
      simpa [withoutIds] using Statement.ifThenElse hw (isSymbol_iff.mp hl) hc (isSymbol_iff.mp hr)
        ht (fun hf => nomatch hf) (isWord_iff.mp he) hs
  whileLoop := by
    refine .expectThen fun left => Expr.read_sound.bind fun condition => .expectThen fun right => ?_
    refine h.statement.bind fun body => .pure ?_
    rintro ts ⟨o, hb⟩ hr cs hc hl word hw
    refine ⟨o, ?_⟩
    simpa [withoutIds] using Statement.whileLoop hw (isSymbol_iff.mp hl) hc (isSymbol_iff.mp hr) hb

end Rules.Derives

/-- What the readers of statements take without an error is derived, whatever the bound on their
calls. -/
theorem derives_bounded (depth : Nat) : (bounded depth).Derives := by
  have hparams (count : Nat) : Sound (fun c => readParamList (c.rest.length + 1) count c)
      fun ts names =>
      ParamList ts names ∧ count + names.length ≤ 255 :=
    fun c => readParamList_sound (c.rest.length + 1) count c
  induction depth with
  | zero =>
    have hfail : Sound (recovering (Reader.failHere .expression : Reader Stmt)) fun ts s? =>
        ∃ s, s? = some s ∧ Declaration false ts s.withoutIds := .recovering .failHere
    exact ⟨hfail, .failHere, .failHere, fun _ => .failHere, hparams, .failHere, .failHere,
      .failHere, .failHere, .failHere, .failHere⟩
  | succ depth ih => exact { ih.step with paramList := hparams }

/-! ## Whole programs and expressions -/

/-- What is read as a program is one by the grammar. -/
theorem readToEnd_sound (depth count : Nat) : Sound (readToEnd depth count) fun ts body =>
    Program false ts (withoutIdsAll body) := by
  induction count with
  | zero => exact .pure .nil
  | succ count ih =>
    refine .atEndThen fun b => ?_
    cases b with
    | true => exact .pure .nil
    | false =>
      refine (derives_bounded depth).declaration.bind fun first => ih.bind fun rest => .pure ?_
      rintro us hs ts ⟨s, rfl, hd⟩
      simpa [withoutIdsAll] using Program.cons hd hs

end Stmt

/-- The tokens of a program read without an error are derived, and the program is the tree. -/
theorem Parse.program_of_hadError {tokens : List Token} {nextId : NodeId}
    (h : (Parse.ofTokens tokens nextId).hadError = false) :
    Grammar.Program false (tokens.takeWhile fun t => !t.kind.isEof)
      (Stmt.withoutIdsAll (Parse.ofTokens tokens nextId).program) := by
  unfold Parse.ofTokens at h ⊢
  split at h
  · next program c hr =>
    have he : c.hadError = false := h
    obtain ⟨-, ts, hts, hp⟩ := Stmt.readToEnd_sound _ _ _ _ _ hr he
    obtain ⟨_, c', hdone, hrest⟩ := Stmt.readProgram_done (Cursor.ofTokens tokens nextId)
    cases hdone.symm.trans hr
    rw [hrest, List.append_nil] at hts
    rw [← hts] at hp
    exact hp
  · cases h

/-- An expression that takes all tokens leaves none. -/
theorem Expr.read_of_readWhole {c c' : Cursor} (h : Expr.readWhole c = .done e c') :
    Expr.read c = .done e c' ∧ c'.rest = [] := by
  obtain ⟨e₁, c₁, hread, h⟩ := Reader.done_of_bind h
  obtain ⟨b, c₂, hb, h⟩ := Reader.done_of_bind h
  cases hb
  cases hempty : c₁.rest.isEmpty with
  | true =>
    rw [hempty] at h
    cases h
    exact ⟨hread, List.isEmpty_iff.mp hempty⟩
  | false =>
    rw [hempty] at h
    cases h

/-- The tokens of an expression read without an error are derived, and the expression is the
tree. -/
theorem ParsedExpr.assignment_of_expr? {tokens : List Token} {nextId : NodeId}
    (h : (ParsedExpr.ofTokens tokens nextId).expr? = some e) :
    Grammar.Assignment (tokens.takeWhile fun t => !t.kind.isEof) e.withoutIds := by
  unfold ParsedExpr.ofTokens at h
  split at h
  · next e' c' hr =>
    obtain ⟨he, rfl⟩ : c'.hadError = false ∧ e' = e := by simpa using h
    obtain ⟨hread, hrest⟩ := Expr.read_of_readWhole hr
    obtain ⟨-, ts, hts, hp⟩ := Expr.read_sound _ _ _ hread he
    rw [hrest, List.append_nil] at hts
    rw [← hts] at hp
    exact hp
  · cases h

end Lox
