import Lox.Proofs.Syntax.Completeness.Statement

/-!
# Reading a program is deriving it

The readers accept exactly what the grammar derives, and give the tree of the one derivation in
which every `else` stands at the nearest `if`.

Soundness gives a derivation, but not one in which every `else` stands at the nearest `if`. Such a
derivation is there whenever one is: an `else` that stands further out is moved inward
(`Statement.withElse`), and completeness then says that its tree is the one that was read.
-/

namespace Lox

namespace Grammar

/-- After a statement that ends in an `if` without `else`, an `else` can be given to that `if`. -/
theorem Statement.withElse {o : Bool} {ts us : List Token} {s s' : Stmt} {word : Token}
    (h : Statement true true ts s) (hw : IsWord .elseWord word) (hs : Statement true o us s') :
    ∃ o' s'', Statement true o' (ts ++ word :: us) s'' := by
  cases h with
  | @ifThen _ left right cs ts condition thenBranch o₁ hi hl hc hr ht =>
    cases o₁ with
    | true =>
      obtain ⟨o', t', ht'⟩ := ht.withElse hw hs
      exact ⟨true, _, by simpa using Statement.ifThen hi hl hc hr ht'⟩
    | false => exact ⟨o, _, by simpa using Statement.ifThenElse hi hl hc hr ht (fun _ => rfl) hw hs⟩
  | @ifThenElse _ left right elseWord cs ts vs condition thenBranch elseBranch o₁ _ hi hl hc hr ht
      hn he hb =>
    obtain ⟨o', b', hb'⟩ := hb.withElse hw hs
    exact ⟨o', _, by simpa using Statement.ifThenElse hi hl hc hr ht hn he hb'⟩
  | @whileLoop _ left right cs ts condition body _ hi hl hc hr hb =>
    obtain ⟨o', b', hb'⟩ := hb.withElse hw hs
    exact ⟨o', _, by simpa using Statement.whileLoop hi hl hc hr hb'⟩
  | @forLoop _ left semicolon right is cs us' ts initializer condition increment body _ hf hl hi hc
      hsemi hu hr hb =>
    obtain ⟨o', b', hb'⟩ := hb.withElse hw hs
    exact ⟨o', _, by simpa using Statement.forLoop hf hl hi hc hsemi hu hr hb'⟩
termination_by ts.length
decreasing_by all_goals subst_vars; simp only [List.length_cons, List.length_append]; omega

/-- An `if` with an `else` after a statement, whichever `if` the `else` comes to belong to. -/
theorem Statement.ifElse {word left right elseWord : Token} {cs ts us : List Token}
    {condition : Expr} {s s' : Stmt} {o o' : Bool} (hw : IsWord .ifWord word)
    (hl : IsSymbol .leftParen left) (hc : Assignment cs condition) (hr : IsSymbol .rightParen right)
    (ht : Statement true o ts s) (he : IsWord .elseWord elseWord) (hs : Statement true o' us s') :
    ∃ o s, Statement true o (word :: left :: (cs ++ right :: (ts ++ elseWord :: us))) s := by
  cases o with
  | false => exact ⟨o', _, .ifThenElse hw hl hc hr ht (fun _ => rfl) he hs⟩
  | true =>
    obtain ⟨_, t', ht'⟩ := ht.withElse he hs
    exact ⟨true, _, .ifThen hw hl hc hr ht'⟩

mutual

/-- Where there is a derivation, there is one with every `else` at the nearest `if`. -/
theorem Statement.nearest : ∀ {o : Bool} {ts : List Token} {s : Stmt}, Statement false o ts s →
    ∃ o' s', Statement true o' ts s'
  | _, _, _, .expression h => ⟨_, _, .expression h⟩
  | _, _, _, .print hw h => ⟨_, _, .print hw h⟩
  | _, _, _, .returnWith hw h hs => ⟨_, _, .returnWith hw h hs⟩
  | _, _, _, .block h =>
    have ⟨_, h'⟩ := h.nearest
    ⟨_, _, .block h'⟩
  | _, _, _, .ifThen hw hl hc hr ht =>
    have ⟨_, _, ht'⟩ := ht.nearest
    ⟨_, _, .ifThen hw hl hc hr ht'⟩
  | _, _, _, .ifThenElse hw hl hc hr ht _ he hs =>
    have ⟨_, _, ht'⟩ := ht.nearest
    have ⟨_, _, hs'⟩ := hs.nearest
    Statement.ifElse hw hl hc hr ht' he hs'
  | _, _, _, .whileLoop hw hl hc hr hb =>
    have ⟨_, _, hb'⟩ := hb.nearest
    ⟨_, _, .whileLoop hw hl hc hr hb'⟩
  | _, _, _, .forLoop hw hl hi hc hs hu hr hb =>
    have ⟨_, _, hb'⟩ := hb.nearest
    ⟨_, _, .forLoop hw hl hi hc hs hu hr hb'⟩

theorem Declaration.nearest :
    ∀ {ts : List Token} {s : Stmt}, Declaration false ts s → ∃ s', Declaration true ts s'
  | _, _, .classDef hw hn hs hl hm hr =>
    have ⟨_, hm'⟩ := hm.nearest
    ⟨_, .classDef hw hn hs hl hm' hr⟩
  | _, _, .function hw h =>
    have ⟨_, h'⟩ := h.nearest
    ⟨_, .function hw h'⟩
  | _, _, .var hw h => ⟨_, .var hw h⟩
  | _, _, .statement h =>
    have ⟨_, _, h'⟩ := h.nearest
    ⟨_, .statement h'⟩

theorem Program.nearest : ∀ {ts : List Token} {body : List Stmt}, Program false ts body →
    ∃ body', Program true ts body'
  | _, _, .nil => ⟨_, .nil⟩
  | _, _, .cons h hs =>
    have ⟨_, h'⟩ := h.nearest
    have ⟨_, hs'⟩ := hs.nearest
    ⟨_, .cons h' hs'⟩

theorem Block.nearest :
    ∀ {ts : List Token} {body : List Stmt}, Block false ts body → ∃ body', Block true ts body'
  | _, _, .mk hl h hr =>
    have ⟨_, h'⟩ := h.nearest
    ⟨_, .mk hl h' hr⟩

theorem Function.nearest :
    ∀ {ts : List Token} {d : FunctionDecl}, Function false ts d → ∃ d', Function true ts d'
  | _, _, .mk hn hl hp hm hr hb =>
    have ⟨_, hb'⟩ := hb.nearest
    ⟨_, .mk hn hl hp hm hr hb'⟩

theorem Methods.nearest : ∀ {ts : List Token} {ds : List FunctionDecl}, Methods false ts ds →
    ∃ ds', Methods true ts ds'
  | _, _, .nil => ⟨_, .nil⟩
  | _, _, .cons h hs =>
    have ⟨_, h'⟩ := h.nearest
    have ⟨_, hs'⟩ := hs.nearest
    ⟨_, .cons h' hs'⟩

end

end Grammar

/-! ## Token lists -/

/-- The tokens that a token list stands for: those before the end of the source. -/
abbrev beforeEnd (tokens : List Token) : List Token :=
  tokens.takeWhile fun t => !t.kind.isEof

variable {tokens : List Token} {nextId : NodeId}

/-- What is derived is read without an error, and its tree is the program. -/
theorem Parse.of_program {body : List Stmt} (h : Grammar.Program true (beforeEnd tokens) body) :
    (Parse.ofTokens tokens nextId).hadError = false ∧
      Stmt.withoutIdsAll (Parse.ofTokens tokens nextId).program = body := by
  obtain ⟨program, n, hp, hr⟩ := h.read.readsToEnd (Stmt.readDepth (beforeEnd tokens).length)
    (beforeEnd tokens).length (by rw [Stmt.readDepth]; omega) (Nat.le_refl _)
    (Cursor.ofTokens tokens nextId) [] (List.append_nil _).symm rfl
  have hread : Stmt.readProgram (Cursor.ofTokens tokens nextId) = .done program _ := hr
  rw [Parse.ofTokens, hread]
  exact ⟨rfl, hp⟩

/-- What is derived as an expression is read without an error, and its tree is the expression. -/
theorem ParsedExpr.of_assignment {e : Expr} (h : Grammar.Assignment (beforeEnd tokens) e) :
    ∃ e', (ParsedExpr.ofTokens tokens nextId).expr? = some e' ∧ e'.withoutIds = e := by
  have hwhole : Reader.Reads Expr.readWhole (beforeEnd tokens) (· = []) (Expr.withoutIds · =
      e) := by
    rw [← List.append_nil (beforeEnd tokens)]
    refine Reader.ReadsThen.bindBefore (Stmt.reads_expression h) ?_ fun e' he' => ?_
    · rintro _ rfl
      trivial
    refine Reader.ReadsThen.look .atEnd (fun rest hrest => hrest) ?_
    rintro _ rfl
    exact .pure he'
  obtain ⟨e', n, he', hr⟩ := hwhole (Cursor.ofTokens tokens nextId) [] (List.append_nil _).symm rfl
  refine ⟨e', ?_, he'⟩
  rw [ParsedExpr.ofTokens, hr]
  rfl

/-- A token list is read as a program without an error if and only if the grammar derives the tokens
before the end. The program is then, ids apart, the tree of a derivation, namely of the only one in
which every `else` belongs to the nearest `if`. It is read as an expression if and only if the
grammar derives an expression from them, and the expression is the tree. -/
theorem parse_iff_derived (tokens : List Token) (nextId : NodeId) :
    ((Parse.ofTokens tokens nextId).hadError = false ↔
      ∃ body, Grammar.Program false (beforeEnd tokens) body) ∧
    ((Parse.ofTokens tokens nextId).hadError = false →
      Grammar.Program false (beforeEnd tokens)
        (Stmt.withoutIdsAll (Parse.ofTokens tokens nextId).program)) ∧
    (∀ body, Grammar.Program true (beforeEnd tokens) body ↔
      (Parse.ofTokens tokens nextId).hadError = false ∧
        Stmt.withoutIdsAll (Parse.ofTokens tokens nextId).program = body) ∧
    (∀ e, Grammar.Assignment (beforeEnd tokens) e ↔
      ∃ e', (ParsedExpr.ofTokens tokens nextId).expr? = some e' ∧ e'.withoutIds = e) := by
  refine ⟨⟨fun h => ⟨_, Parse.program_of_hadError h⟩, ?_⟩, Parse.program_of_hadError,
    fun body => ⟨Parse.of_program, ?_⟩, fun e => ⟨ParsedExpr.of_assignment, ?_⟩⟩
  · rintro ⟨body, h⟩
    obtain ⟨_, h'⟩ := h.nearest
    exact (Parse.of_program h').1
  · rintro ⟨he, rfl⟩
    obtain ⟨body, h⟩ := (Parse.program_of_hadError he).nearest
    rw [(Parse.of_program h).2]
    exact h
  · rintro ⟨e', he, rfl⟩
    exact ParsedExpr.assignment_of_expr? he

end Lox
