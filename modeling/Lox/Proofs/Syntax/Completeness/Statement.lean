import Lox.Proofs.Syntax.Completeness.Expression

/-!
# Derived statements are read without an error

The readers of statements and declarations take what the grammar derives, if every `else` stands at
the nearest `if`. What may follow matters in one place: after a statement that ends in an `if`
without `else`, an `else` would be taken as its own. For the bound on the depth of calls, every
token pays for eight calls.
-/

namespace Lox

theorem Grammar.ExpressionEnd.starts {ts : List Token} {e : Expr} (h : ExpressionEnd ts e) :
    Starts Expr.startsExpression ts := by
  cases h with
  | mk h _ => exact h.read.starts.append _

/-! ## Parts of statements -/

namespace Stmt

open Reader Grammar Lox.Expr

variable {ts : List Token} {e condition : Expr} {e? : Option Expr} {semicolon left right : Token}
  {o : Bool} {body : List Stmt} {d : FunctionDecl}

/-- Every expression of the grammar is read. -/
theorem reads_expression (h : Assignment ts e) :
    Reads Expr.read ts (Loose 1) (Expr.withoutIds · = e) := by
  intro c rest hc hrest
  refine h.read.reads (Expr.readDepth c.rest.length) ?_ c rest hc hrest
  rw [Expr.readDepth, hc, List.length_append]
  omega

/-- Parameters are read up to the closing bracket. -/
theorem reads_paramList {names : List Token} (h : ParamList ts names) {depth count : Nat}
    (hd : ts.length ≤ depth) (hm : count + names.length ≤ 255) :
    Reads (readParamList depth count) ts (Starts (Kind.isSymbol .rightParen)) (· = names) := by
  induction h generalizing depth count with
  | one hn =>
    rw [List.length_singleton] at hd hm
    rcases depth with _ | depth
    · omega
    rw [readParamList, if_neg (show ¬ maxArity ≤ count by unfold maxArity; omega)]
    refine ReadsThen.takes (.name hn) ?_
    refine ReadsThen.sees .acceptNone (fun rest hrest => hrest.front_symbol rfl) ?_
    exact .pure rfl
  | @more name comma ts names hn hc hs ih =>
    rw [List.length_cons, List.length_cons] at hd
    rw [List.length_cons] at hm
    rcases depth with _ | depth
    · omega
    rw [readParamList, if_neg (show ¬ maxArity ≤ count by unfold maxArity; omega)]
    refine ReadsThen.takes (.name hn) ?_
    refine ReadsThen.takes (.accept (isSymbol_iff.mpr hc)) ?_
    rw [← List.append_nil ts]
    refine ReadsThen.bindBefore (ih (by omega) (by omega)) (fun rest hrest => hrest) ?_
    rintro names rfl
    exact .pure rfl

theorem reads_params {names : List Token} (h : Params ts names) (hm : names.length ≤ 255) :
    Reads readParams ts (Starts (Kind.isSymbol .rightParen)) (· = names) := by
  unfold readParams
  cases h with
  | none =>
    refine ReadsThen.sees .check (fun rest hrest => hrest) ?_
    exact .pure rfl
  | some h =>
    have hfront (rest : List Token) : Front (fun k => !k.isSymbol .rightParen) (ts ++ rest) := by
      cases h with
      | one hn => exact Front.of_kind hn rfl _
      | more hn => exact Front.of_kind hn rfl _
    refine ReadsThen.sees .checkFalse (fun rest _ => hfront rest) ?_
    intro c rest hc hrest
    refine reads_paramList h ?_ (by omega) c rest hc hrest
    rw [hc, List.length_append]
    omega

theorem reads_unless {s : Symbol} (hs : s = .semicolon ∨ s = .rightParen) (h : OptionalExpr ts e?) :
    Reads (readUnless s) ts (Starts (Kind.isSymbol s)) (Option.map Expr.withoutIds · = e?) := by
  unfold readUnless
  cases h with
  | none =>
    refine ReadsThen.sees .check (fun rest hrest => hrest) ?_
    exact .pure rfl
  | some h =>
    refine ReadsThen.sees .checkFalse
      (fun rest _ => (h.read.starts.append rest).front fun _ hk =>
        (not_of_startsExpression hk).absent s hs) ?_
    exact ReadsThen.gives (reads_expression h)
      (fun rest hrest => hrest.front_symbol (by rcases hs with rfl | rfl <;> rfl)) fun e' he' => by
        rw [Option.map_some, he']

/-- An expression statement is read up to its semicolon. -/
theorem reads_expressionEnd (h : ExpressionEnd ts e) :
    Reads readExpression ts (fun _ => True) (withoutIds · = .expression e) := by
  cases h with
  | mk h hs =>
    refine ReadsThen.bindBefore (reads_expression h) (fun rest _ => Front.of_kind hs rfl _)
      fun e' he' => ?_
    refine ReadsThen.takes (.symbol hs) ?_
    exact .pure (by rw [withoutIds, he'])

theorem reads_print (h : ExpressionEnd ts e) :
    Reads readPrint ts (fun _ => True) (withoutIds · = .print e) := by
  cases h with
  | mk h hs =>
    refine ReadsThen.bindBefore (reads_expression h) (fun rest _ => Front.of_kind hs rfl _)
      fun e' he' => ?_
    refine ReadsThen.takes (.symbol hs) ?_
    exact .pure (by rw [withoutIds, he'])

theorem reads_initializer (h : Initializer ts e?) :
    Reads readInitializer ts (Starts (Kind.isSymbol .semicolon)) (Option.map Expr.withoutIds · =
      e?) := by
  unfold readInitializer
  cases h with
  | none =>
    refine ReadsThen.sees .acceptNone (fun rest hrest => hrest.front_symbol rfl) ?_
    exact .pure rfl
  | @some equals ts e he h =>
    refine ReadsThen.takes (.accept (isSymbol_iff.mpr he)) ?_
    exact ReadsThen.gives (reads_expression h) (fun rest hrest => hrest.front_symbol rfl)
      fun e' he' => by rw [Option.map_some, he']

/-- A variable is read with or without an initial value. -/
theorem reads_var {s : Stmt} (h : Variable ts s) :
    Reads readVar ts (fun _ => True) (withoutIds · = s) := by
  cases h with
  | mk hn hi hs =>
    refine ReadsThen.takes (.name hn) ?_
    refine ReadsThen.bindBefore (reads_initializer hi) (fun rest _ => isSymbol_iff.mpr hs)
      fun i hi' => ?_
    refine ReadsThen.takes (.symbol hs) ?_
    exact .pure (by rw [withoutIds, hi'])

theorem reads_return {word : Token} (h : OptionalExpr ts e?) (hs : IsSymbol .semicolon semicolon) :
    Reads (readReturn word) (ts ++ [semicolon]) (fun _ => True) (withoutIds · =
      .returnWith word e?) := by
  refine ReadsThen.bindBefore (reads_unless (.inl rfl) h) (fun rest _ => isSymbol_iff.mpr hs)
    fun e' he' => ?_
  refine ReadsThen.takes (.symbol hs) ?_
  exact .pure (by rw [withoutIds, he'])

/-- The first part of a `for` is read, whichever form it has. -/
theorem reads_forInitializer {s? : Option Stmt} (h : ForInitializer ts s?) :
    Reads readForInitializer ts (fun _ => True) (Option.map withoutIds · = s?) := by
  unfold readForInitializer
  cases h with
  | none h =>
    refine ReadsThen.takes (.accept (isSymbol_iff.mpr h)) ?_
    exact .pure rfl
  | @var word ts s hw h =>
    refine ReadsThen.sees .acceptNone (fun rest _ => Front.of_kind hw rfl _) ?_
    refine ReadsThen.takes (.accept (isWord_iff.mpr hw)) ?_
    exact ReadsThen.gives (reads_var h) (fun _ _ => trivial)
      fun s' hs' => by rw [Option.map_some, hs']
  | @expression ts e h =>
    refine ReadsThen.sees .acceptNone
      (fun rest _ => (h.starts.append rest).front fun _ hk =>
        (not_of_startsExpression hk).semicolon) ?_
    refine ReadsThen.sees .acceptNone
      (fun rest _ => (h.starts.append rest).front fun _ hk => (not_of_startsExpression hk).word
        .varWord (by decide)) ?_
    exact ReadsThen.gives (reads_expressionEnd h) (fun _ _ => trivial)
      fun s' hs' => by rw [Option.map_some, hs']

theorem reads_superclass (h : Superclass ts e?) :
    Reads readSuperclass ts (Starts (Kind.isSymbol .leftBrace)) (Option.map Expr.withoutIds · =
      e?) := by
  unfold readSuperclass
  cases h with
  | none =>
    refine ReadsThen.sees .acceptNone (fun rest hrest => hrest.front_symbol rfl) ?_
    exact .pure rfl
  | some hl hn =>
    refine ReadsThen.takes (.accept (isSymbol_iff.mpr hl)) ?_
    refine ReadsThen.takes (.name hn) ?_
    exact ReadsThen.bind .fresh fun _ _ => .pure rfl

/-! ## Statements -/

/-- Whether a kind begins a statement that is no declaration of its own. -/
def startsAnyStatement (k : Kind) : Bool :=
  startsStatement k || startsExpression k

/-- Whether a kind begins a declaration. -/
def startsDeclaration (k : Kind) : Bool :=
  k.isKeyword .classWord || k.isKeyword .funWord || k.isKeyword .varWord || startsAnyStatement k

theorem not_declaration_of_startsAnyStatement {k : Kind} (h : startsAnyStatement k = true) :
    ∀ w ∈ [Keyword.classWord, .funWord, .varWord], (!k.isKeyword w) = true := by
  rcases Bool.or_eq_true_iff.mp h with h | h
  · cases k with
    | keyword w => cases w <;> first | decide | cases h
    | symbol s => exact fun _ _ => rfl
    | _ => cases h
  · intro w hw
    exact (not_of_startsExpression h).word w (List.mem_append_left [Keyword.elseWord] hw)

/-- What follows does not begin with the word `else`. -/
def NoElse : List Token → Prop :=
  Front fun k => !k.isKeyword .elseWord

/-- What starts a declaration ends neither a block nor a branch. -/
theorem not_end_of_startsDeclaration {k : Kind} (h : startsDeclaration k = true) :
    (!k.isKeyword .elseWord) = true ∧ (!k.isSymbol .rightBrace) = true := by
  cases k with
  | symbol s => cases s <;> first | exact ⟨rfl, rfl⟩ | cases h
  | keyword w => cases w <;> first | exact ⟨rfl, rfl⟩ | cases h
  | _ => exact ⟨rfl, rfl⟩

/-- Tokens that the reader of statements takes. If they end in an `if` without `else`, an `else` may
not follow. -/
structure StatementRead (o : Bool) (ts : List Token) (s : Stmt) : Prop where
  starts : Starts startsAnyStatement ts
  reads : ∀ depth, 8 * ts.length + 4 ≤ depth + 8 →
    Reads (readStatement depth) ts (fun rest => o = true → NoElse rest) (withoutIds · = s)

/-- Tokens that the reader of declarations takes. -/
structure DeclarationRead (ts : List Token) (s : Stmt) : Prop where
  starts : Starts startsDeclaration ts
  reads : ∀ depth, 8 * ts.length + 5 ≤ depth + 8 →
    Reads (readDeclaration depth) ts NoElse fun s? => ∃ s', s? = some s' ∧ s'.withoutIds = s

/-- Tokens that the readers of declarations take up to a closing brace or to the end. -/
structure ProgramRead (ts : List Token) (body : List Stmt) : Prop where
  noElse : ∀ rest, NoElse rest → NoElse (ts ++ rest)
  reads : ∀ depth, 8 * ts.length + 1 ≤ depth →
    Reads (readDeclarations depth) ts (Starts (Kind.isSymbol .rightBrace)) (withoutIdsAll · = body)
  readsToEnd : ∀ depth count, 8 * ts.length ≤ depth → ts.length ≤ count →
    Reads (readToEnd depth count) ts (· = []) (withoutIdsAll · = body)

/-- Tokens that begin with an opening brace and go on with what the reader of blocks takes. -/
def BlockRead (ts : List Token) (body : List Stmt) : Prop :=
  ∃ left us, ts = left :: us ∧ IsSymbol .leftBrace left ∧
    ∀ depth, 8 * us.length ≤ depth →
    Reads (readBlock depth) us (fun _ => True) (withoutIdsAll · = body)

/-- Tokens that the reader of functions takes. -/
structure FunctionRead (ts : List Token) (d : FunctionDecl) : Prop where
  starts : Starts Kind.isIdentifier ts
  reads : ∀ depth callable, 8 * ts.length ≤ depth + 8 →
    Reads (readFunction depth callable) ts (fun _ => True) (functionWithoutIds · = d)

/-- Tokens that the reader of methods takes up to a closing brace. -/
def MethodsRead (ts : List Token) (ds : List FunctionDecl) : Prop :=
  ∀ depth, 8 * ts.length + 1 ≤ depth →
    Reads (readMethods depth) ts (Starts (Kind.isSymbol .rightBrace)) (methodsWithoutIds · = ds)

variable {us cs : List Token} {s : Stmt}

/-- A statement that is an expression. -/
theorem StatementRead.expression (h : ExpressionEnd ts e) :
    StatementRead false ts (.expression e) := by
  refine ⟨h.starts.mono
    fun k hk => by rw [startsAnyStatement, hk, Bool.or_true], fun depth hd => ?_⟩
  have hpos := h.starts.length_pos
  rcases depth with _ | depth
  · omega
  rw [readStatement]
  refine ReadsThen.sees .acceptNone
    (fun rest _ => (h.starts.append rest).front fun _ hk => (not_of_startsExpression hk).statement)
    ?_
  exact (reads_expressionEnd h).mono (fun _ _ => trivial) fun _ hs => hs

/-- A statement that begins with a word or a brace, and whose rest is read by the reader that the
word calls for. -/
theorem StatementRead.word {t : Token} (ht : startsStatement t.kind = true)
    (h : ∀ depth, 8 * ts.length + 3 ≤ depth → ReadsThen (match t.kind with
      | .keyword .forWord => readFor depth
      | .keyword .ifWord => readIf depth
      | .keyword .whileWord => readWhile depth
      | .keyword .returnWord => readReturn t
      | .symbol .leftBrace => do
        let body ← readBlock depth
        return .block body
      | _ => readPrint) ts (fun rest => o = true → NoElse rest) Pure.pure (withoutIds · = s)) :
    StatementRead o (t :: ts) s := by
  refine ⟨show startsAnyStatement t.kind = true by rw [startsAnyStatement, ht, Bool.true_or], ?_⟩
  intro depth hd
  rw [List.length_cons] at hd
  rcases depth with _ | depth
  · omega
  rw [readStatement]
  refine ReadsThen.takes (.accept ht) ?_
  exact h depth (by omega)

theorem StatementRead.print {word : Token} (hw : IsWord .printWord word) (h : ExpressionEnd ts e) :
    StatementRead false (word :: ts) (.print e) := by
  refine StatementRead.word (by rw [hw]; rfl) fun depth hd => ?_
  simp only [hw]
  exact (reads_print h).mono (fun _ _ => trivial) fun _ hs => hs

theorem StatementRead.returnWith {word : Token} {value : Option Expr} (hw : IsWord .returnWord word)
    (h : OptionalExpr ts value) (hs : IsSymbol .semicolon semicolon) :
    StatementRead false (word :: (ts ++ [semicolon])) (.returnWith word value) := by
  refine StatementRead.word (by rw [hw]; rfl) fun depth hd => ?_
  simp only [hw]
  exact (reads_return h hs).mono (fun _ _ => trivial) fun _ hs => hs

/-- A block of declarations. -/
theorem StatementRead.block (h : BlockRead ts body) : StatementRead false ts (.block body) := by
  obtain ⟨left, us, rfl, hl, h⟩ := h
  refine StatementRead.word (by rw [hl]; rfl) fun depth hd => ?_
  simp only [hl]
  exact ReadsThen.gives (h depth (by omega)) (fun _ _ => trivial)
    fun body' hbody => by rw [withoutIds, hbody]

/-- A branch without `else`, which must not be followed by one. -/
theorem StatementRead.ifThen {word : Token} (hw : IsWord .ifWord word)
    (hl : IsSymbol .leftParen left) (hc : Assignment cs condition) (hr : IsSymbol .rightParen right)
    (ht : StatementRead o ts s) :
    StatementRead true (word :: left :: (cs ++ right :: ts)) (.ifThen condition s) := by
  refine StatementRead.word (by rw [hw]; rfl) fun depth hd => ?_
  simp only [List.length_cons, List.length_append] at hd
  rcases depth with _ | depth
  · omega
  simp only [hw]
  rw [readIf]
  refine ReadsThen.takes (.symbol hl) ?_
  refine ReadsThen.bindBefore (reads_expression hc) (fun rest _ => Front.of_kind hr rfl _)
    fun c' hc' => ?_
  refine ReadsThen.takes (.symbol hr) ?_
  rw [← List.append_nil ts]
  refine ReadsThen.bindBefore (ht.reads depth (by omega)) (fun rest hrest _ => hrest trivial)
    fun s' hs' => ?_
  refine ReadsThen.sees .acceptNone (fun rest hrest => hrest trivial) ?_
  exact .pure (by rw [withoutIds, hc', hs'])

/-- An `else` goes to the nearest branch. -/
theorem StatementRead.ifThenElse {word elseWord : Token} {s' : Stmt} {o' : Bool}
    (hw : IsWord .ifWord word) (hl : IsSymbol .leftParen left) (hc : Assignment cs condition)
    (hr : IsSymbol .rightParen right) (ht : StatementRead o' ts s) (ho : o' = false)
    (he : IsWord .elseWord elseWord) (hs : StatementRead o us s') :
    StatementRead o (word :: left :: (cs ++ right :: (ts ++ elseWord :: us)))
      (.ifThenElse condition s s') := by
  refine StatementRead.word (by rw [hw]; rfl) fun depth hd => ?_
  simp only [List.length_cons, List.length_append] at hd
  rcases depth with _ | depth
  · omega
  simp only [hw]
  rw [readIf]
  refine ReadsThen.takes (.symbol hl) ?_
  refine ReadsThen.bindBefore (reads_expression hc) (fun rest _ => Front.of_kind hr rfl _)
    fun c' hc' => ?_
  refine ReadsThen.takes (.symbol hr) ?_
  refine ReadsThen.bindBefore (ht.reads depth (by omega)) (fun rest _ h => nomatch ho.symm.trans h)
    fun t' ht' => ?_
  refine ReadsThen.takes (.accept (isWord_iff.mpr he)) ?_
  exact ReadsThen.gives (hs.reads depth (by omega)) (fun rest hrest => hrest)
    fun e' he' => by rw [withoutIds, hc', ht', he']

theorem StatementRead.whileLoop {word : Token} (hw : IsWord .whileWord word)
    (hl : IsSymbol .leftParen left) (hc : Assignment cs condition) (hr : IsSymbol .rightParen right)
    (hb : StatementRead o ts s) :
    StatementRead o (word :: left :: (cs ++ right :: ts)) (.whileLoop condition s) := by
  refine StatementRead.word (by rw [hw]; rfl) fun depth hd => ?_
  simp only [List.length_cons, List.length_append] at hd
  rcases depth with _ | depth
  · omega
  simp only [hw]
  rw [readWhile]
  refine ReadsThen.takes (.symbol hl) ?_
  refine ReadsThen.bindBefore (reads_expression hc) (fun rest _ => Front.of_kind hr rfl _)
    fun c' hc' => ?_
  refine ReadsThen.takes (.symbol hr) ?_
  exact ReadsThen.gives (hb.reads depth (by omega)) (fun rest hrest => hrest)
    fun s' hs' => by rw [withoutIds, hc', hs']

/-- A `for` is read as the loop that it stands for. -/
theorem StatementRead.forLoop {word : Token} {is : List Token} {initializer : Option Stmt}
    {condition increment : Option Expr} (hw : IsWord .forWord word) (hl : IsSymbol .leftParen left)
    (hi : ForInitializer is initializer) (hc : OptionalExpr cs condition)
    (hs : IsSymbol .semicolon semicolon) (hu : OptionalExpr us increment)
    (hr : IsSymbol .rightParen right) (hb : StatementRead o ts s) :
    StatementRead o (word :: left :: (is ++ (cs ++ semicolon :: (us ++ right :: ts))))
      (forTree initializer condition increment s) := by
  refine StatementRead.word (by rw [hw]; rfl) fun depth hd => ?_
  simp only [List.length_cons, List.length_append] at hd
  rcases depth with _ | depth
  · omega
  simp only [hw]
  rw [readFor]
  refine ReadsThen.takes (.symbol hl) ?_
  refine ReadsThen.bind (reads_forInitializer hi) fun i' hi' => ?_
  refine ReadsThen.bindBefore (reads_unless (.inl rfl) hc) (fun rest _ => isSymbol_iff.mpr hs)
    fun c' hc' => ?_
  refine ReadsThen.takes (.symbol hs) ?_
  refine ReadsThen.bindBefore (reads_unless (.inr rfl) hu) (fun rest _ => isSymbol_iff.mpr hr)
    fun u' hu' => ?_
  refine ReadsThen.takes (.symbol hr) ?_
  exact ReadsThen.gives (hb.reads depth (by omega)) (fun rest hrest => hrest)
    fun s' hs' => by rw [withoutIds_forLoop, hi', hc', hu', hs']

/-! ## Declarations -/

/-- A declaration that is a statement. -/
theorem DeclarationRead.statement (h : StatementRead o ts s) : DeclarationRead ts s := by
  have hnot (w : Keyword) (hw : w ∈ [Keyword.classWord, .funWord, .varWord]) (rest : List Token) :
      Front (fun k => !k.isKeyword w) (ts ++ rest) :=
    (h.starts.append rest).front fun _ hk => not_declaration_of_startsAnyStatement hk w hw
  refine ⟨h.starts.mono fun k hk => by rw [startsDeclaration, hk, Bool.or_true], fun depth hd => ?_⟩
  have hpos := h.starts.length_pos
  rcases depth with _ | depth
  · omega
  rw [readDeclaration]
  refine Reads.recovering ?_
  refine ReadsThen.sees .acceptNone (fun rest _ => hnot .classWord (by decide) rest) ?_
  refine ReadsThen.sees .acceptNone (fun rest _ => hnot .funWord (by decide) rest) ?_
  refine ReadsThen.sees .acceptNone (fun rest _ => hnot .varWord (by decide) rest) ?_
  exact (h.reads depth (by omega)).mono (fun rest hrest _ => hrest) fun _ hs => hs

theorem DeclarationRead.var {word : Token} (hw : IsWord .varWord word) (h : Variable ts s) :
    DeclarationRead (word :: ts) s := by
  refine ⟨show startsDeclaration word.kind = true by rw [hw]; rfl, fun depth hd => ?_⟩
  rw [List.length_cons] at hd
  rcases depth with _ | depth
  · omega
  rw [readDeclaration]
  refine Reads.recovering ?_
  refine ReadsThen.sees .acceptNone (fun rest _ => Front.of_kind hw rfl _) ?_
  refine ReadsThen.sees .acceptNone (fun rest _ => Front.of_kind hw rfl _) ?_
  refine ReadsThen.takes (.accept (isWord_iff.mpr hw)) ?_
  exact (reads_var h).mono (fun _ _ => trivial) fun _ hs => hs

theorem DeclarationRead.function {word : Token} (hw : IsWord .funWord word)
    (h : FunctionRead ts d) : DeclarationRead (word :: ts) (.function d) := by
  refine ⟨show startsDeclaration word.kind = true by rw [hw]; rfl, fun depth hd => ?_⟩
  rw [List.length_cons] at hd
  have hpos := h.starts.length_pos
  rcases depth with _ | depth
  · omega
  rw [readDeclaration]
  refine Reads.recovering ?_
  refine ReadsThen.sees .acceptNone (fun rest _ => Front.of_kind hw rfl _) ?_
  refine ReadsThen.takes (.accept (isWord_iff.mpr hw)) ?_
  exact ReadsThen.gives (h.reads depth .function (by omega)) (fun _ _ => trivial)
    fun d' hd' => by rw [withoutIds, hd']

/-- A class with its methods. -/
theorem DeclarationRead.classDef {word name : Token} {ss : List Token} {superclass : Option Expr}
    {methods : List FunctionDecl} (hw : IsWord .classWord word) (hn : IsName name)
    (hs : Superclass ss superclass) (hl : IsSymbol .leftBrace left) (hm : MethodsRead ts methods)
    (hr : IsSymbol .rightBrace right) :
    DeclarationRead (word :: name :: (ss ++ left :: (ts ++ [right]))) (.classDef name superclass
      methods) := by
  refine ⟨show startsDeclaration word.kind = true by rw [hw]; rfl, fun depth hd => ?_⟩
  simp only [List.length_cons, List.length_append, List.length_nil] at hd
  obtain ⟨depth, rfl⟩ : ∃ d, depth = d + 2 := ⟨depth - 2, by omega⟩
  rw [readDeclaration]
  refine Reads.recovering ?_
  refine ReadsThen.takes (.accept (isWord_iff.mpr hw)) ?_
  simp only [readClass]
  refine ReadsThen.takes (.name hn) ?_
  refine ReadsThen.bindBefore (reads_superclass hs) (fun rest _ => isSymbol_iff.mpr hl)
    fun s' hs' => ?_
  refine ReadsThen.takes (.symbol hl) ?_
  refine ReadsThen.bindBefore (hm depth (by omega)) (fun rest _ => isSymbol_iff.mpr hr)
    fun m' hm' => ?_
  refine ReadsThen.takes (.symbol hr) ?_
  exact .pure (by rw [withoutIds, hs', hm'])

theorem ProgramRead.nil : ProgramRead [] [] := by
  refine ⟨fun _ h => h, fun depth hd => ?_, fun depth count _ _ => ?_⟩
  · rw [List.length_nil] at hd
    rcases depth with _ | depth
    · omega
    rw [readDeclarations]
    refine ReadsThen.sees .check (fun rest hrest => hrest) ?_
    refine ReadsThen.sees .atEndFalse (fun rest hrest => hrest.ne_nil) ?_
    exact .pure rfl
  · cases count with
    | zero => exact .pure rfl
    | succ count =>
      rw [readToEnd]
      refine ReadsThen.sees .atEnd (fun rest hrest => hrest) ?_
      exact .pure rfl

/-- A declaration before others. -/
theorem ProgramRead.cons {rest : List Stmt} (h : DeclarationRead ts s) (hs : ProgramRead us rest) :
    ProgramRead (ts ++ us) (s :: rest) := by
  have hpos := h.starts.length_pos
  have hstarts (vs : List Token) : Starts startsDeclaration (ts ++ us ++ vs) :=
    (h.starts.append us).append vs
  refine ⟨fun vs _ => (hstarts vs).front fun _ hk => (not_end_of_startsDeclaration hk).1, ?_, ?_⟩
  · intro depth hd
    rw [List.length_append] at hd
    rcases depth with _ | depth
    · omega
    rw [readDeclarations]
    refine ReadsThen.sees .checkFalse
      (fun vs _ => (hstarts vs).front fun _ hk => (not_end_of_startsDeclaration hk).2) ?_
    refine ReadsThen.sees .atEndFalse (fun vs _ => (hstarts vs).ne_nil) ?_
    -- What follows the first declaration does not begin with `else`, so that one is read to its
    -- end.
    refine ReadsThen.bindBefore (h.reads depth (by omega))
      (fun vs hvs => hs.noElse vs (hvs.front_symbol rfl)) ?_
    rintro _ ⟨s', rfl, hs'⟩
    exact ReadsThen.gives (hs.reads depth (by omega)) (fun vs hvs => hvs)
      fun rest' hrest => by
        rw [Option.toList_some, List.singleton_append, withoutIdsAll, hs', hrest]
  · intro depth count hd hcount
    rw [List.length_append] at hd hcount
    obtain ⟨count, rfl⟩ : ∃ n, count = n + 1 := ⟨count - 1, by omega⟩
    rw [readToEnd]
    refine ReadsThen.sees .atEndFalse (fun vs _ => (hstarts vs).ne_nil) ?_
    refine ReadsThen.bindBefore (h.reads depth (by omega)) ?_ ?_
    · rintro vs rfl
      exact hs.noElse [] trivial
    rintro _ ⟨s', rfl, hs'⟩
    exact ReadsThen.gives (hs.readsToEnd depth count (by omega) (by omega)) (fun vs hvs => hvs)
      fun rest' hrest => by
        rw [Option.toList_some, List.singleton_append, withoutIdsAll, hs', hrest]

theorem BlockRead.mk (hl : IsSymbol .leftBrace left) (h : ProgramRead ts body)
    (hr : IsSymbol .rightBrace right) : BlockRead (left :: (ts ++ [right])) body := by
  refine ⟨left, ts ++ [right], rfl, hl, fun depth hd => ?_⟩
  rw [List.length_append, List.length_singleton] at hd
  rcases depth with _ | depth
  · omega
  rw [readBlock]
  refine ReadsThen.bindBefore (h.reads depth (by omega)) (fun rest _ => isSymbol_iff.mpr hr)
    fun body' hb => ?_
  exact ReadsThen.takes (.symbol hr) <| .pure hb

/-- A function with its parameters and its body. -/
theorem FunctionRead.ofParts {name : Token} {ps params : List Token} (hn : IsName name)
    (hl : IsSymbol .leftParen left) (hp : Params ps params) (hm : params.length ≤ 255)
    (hr : IsSymbol .rightParen right) (hb : BlockRead ts body) :
    FunctionRead (name :: left :: (ps ++ right :: ts)) ⟨name, params, body⟩ := by
  refine ⟨isName_iff.mpr hn, fun depth callable hd => ?_⟩
  obtain ⟨brace, us, rfl, hbrace, hb⟩ := hb
  simp only [List.length_cons, List.length_append] at hd
  rcases depth with _ | depth
  · omega
  rw [readFunction]
  refine ReadsThen.takes (.name hn) ?_
  refine ReadsThen.takes (.symbol hl) ?_
  refine ReadsThen.bindBefore (reads_params hp hm) (fun rest _ => isSymbol_iff.mpr hr) ?_
  rintro params rfl
  refine ReadsThen.takes (.symbol hr) ?_
  refine ReadsThen.takes (.symbol hbrace) ?_
  exact ReadsThen.gives (hb depth (by omega)) (fun _ _ => trivial)
    fun body' hbody => by rw [functionWithoutIds, hbody]

theorem MethodsRead.nil : MethodsRead [] [] := by
  intro depth hd
  rw [List.length_nil] at hd
  rcases depth with _ | depth
  · omega
  rw [readMethods]
  refine ReadsThen.sees .check (fun rest hrest => hrest) ?_
  refine ReadsThen.sees .atEndFalse (fun rest hrest => hrest.ne_nil) ?_
  exact .pure rfl

theorem MethodsRead.cons {rest : List FunctionDecl} (h : FunctionRead ts d)
    (hs : MethodsRead us rest) : MethodsRead (ts ++ us) (d :: rest) := by
  intro depth hd
  have hpos := h.starts.length_pos
  have hstarts (vs : List Token) : Starts Kind.isIdentifier (ts ++ us ++ vs) :=
    (h.starts.append us).append vs
  rw [List.length_append] at hd
  rcases depth with _ | depth
  · omega
  rw [readMethods]
  refine ReadsThen.look .checkFalse (fun vs _ => (hstarts vs).front fun k hk => ?_) ?_
  · cases k <;> first | rfl | cases hk
  rintro _ rfl
  refine ReadsThen.sees .atEndFalse (fun vs _ => (hstarts vs).ne_nil) ?_
  refine ReadsThen.bind (h.reads depth .method (by omega)) fun d' hd' => ?_
  exact ReadsThen.gives (hs depth (by omega)) (fun vs hvs => hvs)
    fun rest' hrest => by rw [methodsWithoutIds, hd', hrest]

end Stmt

/-! ### From derivations -/

namespace Grammar

open Stmt

mutual

/-- What is derived as a statement with every `else` at the nearest `if` is read as one; and so for
each rule of statements. -/
theorem Statement.read : ∀ {o : Bool} {ts : List Token} {s : Stmt}, Statement true o ts s →
      StatementRead o ts s
  | _, _, _, .expression h => .expression h
  | _, _, _, .print hw h => .print hw h
  | _, _, _, .returnWith hw h hs => .returnWith hw h hs
  | _, _, _, .block h => .block h.read
  | _, _, _, .ifThen hw hl hc hr ht => .ifThen hw hl hc hr ht.read
  | _, _, _, .ifThenElse hw hl hc hr ht hn he hs =>
    .ifThenElse hw hl hc hr ht.read (hn rfl) he hs.read
  | _, _, _, .whileLoop hw hl hc hr hb => .whileLoop hw hl hc hr hb.read
  | _, _, _, .forLoop hw hl hi hc hs hu hr hb => .forLoop hw hl hi hc hs hu hr hb.read

theorem Declaration.read :
    ∀ {ts : List Token} {s : Stmt}, Declaration true ts s → DeclarationRead ts s
  | _, _, .classDef hw hn hs hl hm hr => .classDef hw hn hs hl hm.read hr
  | _, _, .function hw h => .function hw h.read
  | _, _, .var hw h => .var hw h
  | _, _, .statement h => .statement h.read

/-- Every program of the grammar is read. -/
theorem Program.read :
    ∀ {ts : List Token} {body : List Stmt}, Program true ts body → ProgramRead ts body
  | _, _, .nil => .nil
  | _, _, .cons h hs => .cons h.read hs.read

theorem Block.read : ∀ {ts : List Token} {body : List Stmt}, Block true ts body → BlockRead ts body
  | _, _, .mk hl h hr => .mk hl h.read hr

theorem Function.read :
    ∀ {ts : List Token} {d : FunctionDecl}, Function true ts d → FunctionRead ts d
  | _, _, .mk hn hl hp hm hr hb => .ofParts hn hl hp hm hr hb.read

theorem Methods.read : ∀ {ts : List Token} {ds : List FunctionDecl}, Methods true ts ds →
      MethodsRead ts ds
  | _, _, .nil => .nil
  | _, _, .cons h hs => .cons h.read hs.read

end

end Grammar

end Lox
