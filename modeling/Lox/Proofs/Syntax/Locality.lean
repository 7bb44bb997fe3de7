import Lox.Proofs.Syntax.Sequence

/-!
# An expression before a semicolon

No reader of expressions looks for a semicolon, so the end of the tokens and a semicolon mean the
same to it (`Reader.Sparing.before`): if all tokens make an expression, the same tokens before a
semicolon make the same expression, with the same ids. After the word `print` they make the
statement that prints it, and nothing else (`Parse.ofTokens_print`).
-/

namespace Lox

variable {stop word : Token} {line : Nat} {c c' : Cursor} {e : Expr}

namespace Reader

/-- **What takes all tokens and reports nothing is read in the same way before a semicolon.** -/
theorem Sparing.before {α : Type} {r : Reader α} (h : Sparing r)
    (hstop : stop.kind = .symbol .semicolon) {a : α} (hr : r c = .done a c')
    (he : c'.hadError = false) : c.hadError = false ∧
      r (c.followedBy [stop] line) = .done a (c'.followedBy [stop] line) := by
  induction h generalizing c c' with
  | pure | fresh =>
    cases hr
    exact ⟨he, rfl⟩
  | failHere => cases hr
  | report | reportHere =>
    cases hr
    simp [Cursor.report] at he
  | check hp =>
    obtain ⟨rest, endLine, nextId, errors, hadError⟩ := c
    cases hr
    refine ⟨he, ?_⟩
    cases rest with
    | nil => simp [Reader.check, Cursor.followedBy, hstop, hp]
    | cons t rest => rfl
  | @accept p hp =>
    have hclosed : Closed [stop] line (Reader.accept p) := .accept (by simp [hstop, hp])
    refine ⟨?_, hclosed c a c' hr⟩
    rcases accept_cases p c with heq | ⟨t, rest, -, -, heq⟩
    all_goals
      rw [heq] at hr
      cases hr
      exact he
  | expect p fault =>
    refine ⟨?_, Closed.expect c a c' hr⟩
    rcases expect_cases p fault c with heq | ⟨t, rest, -, -, heq⟩
    all_goals
      rw [heq] at hr
      cases hr
    exact he
  | bind _ _ ih ihf =>
    obtain ⟨b, c₁, hfirst, hnext⟩ := done_of_bind hr
    obtain ⟨he₁, hnext'⟩ := ihf b hnext he
    obtain ⟨he', hfirst'⟩ := ih hfirst he₁
    exact ⟨he', (bind_of_done hfirst').trans hnext'⟩
  | @sized _ r _ hstable ih =>
    -- One token more gives a larger bound, which makes no difference.
    have hlength : (c.followedBy [stop] line).rest.length = c.rest.length + 1 := List.length_append
    have hr' : r (c.rest.length + 1) c = .done a c' :=
      (hstable _ _ c (Nat.le_refl _) (Nat.le_succ _)).symm.trans hr
    show _ ∧ r (c.followedBy [stop] line).rest.length _ = _
    rw [hlength]
    exact ih _ hr' he

end Reader

/-! ## The statement that prints -/

namespace Stmt

open Reader

theorem readPrint_before (hstop : stop.kind = .symbol .semicolon)
    (h : Expr.readWhole c = .done e c') (he : c'.hadError = false) :
    readPrint (c.followedBy [stop] line) = .done (.print e) { c' with endLine := line } := by
  obtain ⟨hread, hrest⟩ := Expr.read_of_readWhole h
  have hgoes : Expr.read (c.followedBy [stop] line) = .done e (c'.followedBy [stop] line) :=
    (Expr.sparing_read.before hstop hread he).2
  have hend : expectSymbol .semicolon .printEnd (c'.followedBy [stop] line) =
      .done stop { c' with endLine := line } := by
    simp only [expectSymbol, expect, Cursor.followedBy, hrest, List.nil_append, hstop]
    rfl
  rw [readPrint, bind_of_done hgoes, bind_of_done hend]
  rfl

/-- The word `print` leads to the reader of what follows it. -/
theorem readDeclaration_print (hword : word.kind = .keyword .printWord) (depth : Nat) (c : Cursor) :
    readDeclaration (depth + 2) { c with rest := word :: c.rest } = recovering readPrint c := by
  obtain ⟨kind, lexeme, line⟩ := word
  cases hword
  simp only [readDeclaration, readStatement]
  rfl

theorem readProgram_print (hword : word.kind = .keyword .printWord)
    (hstop : stop.kind = .symbol .semicolon) (h : Expr.readWhole c = .done e c')
    (he : c'.hadError = false) (line : Nat) :
    readProgram { c with rest := word :: (c.rest ++ [stop]), endLine := line } =
      .done [.print e] { c' with endLine := line } := by
  have hfirst (depth : Nat) :
      readDeclaration (depth + 2)
          { c.followedBy [stop] line with rest := word :: (c.rest ++ [stop]) } =
        .done (some (.print e)) { c' with endLine := line } := by
    have hdecl := readDeclaration_print hword depth (c.followedBy [stop] line)
    rw [recovering, readPrint_before hstop h he] at hdecl
    exact hdecl
  have hend (depth count : Nat) : readToEnd depth count { c' with endLine := line } =
      .done [] { c' with endLine := line } :=
    readToEnd_nil depth count (Expr.read_of_readWhole h).2
  -- There are tokens, so one declaration is read, and what it leaves is the end.
  have hdepth : readDepth (c.rest.length + 1 + 1) = readDepth (c.rest.length + 1) + 6 + 2 := rfl
  rw [readProgram]
  simp only [List.length_cons, List.length_append, List.length_nil]
  rw [hdepth, readToEnd]
  refine (bind_of_done rfl).trans ?_
  exact (bind_of_done (hfirst _)).trans (bind_of_done (hend _ _))

end Stmt

/-- **The tokens of an expression between the word `print` and a semicolon make the statement that
prints it**, with the same ids. -/
theorem Parse.ofTokens_print {tokens tokens' : List Token} {nextId : NodeId}
    (hword : word.kind = .keyword .printWord) (hstop : stop.kind = .symbol .semicolon)
    (htokens : beforeEnd tokens' = word :: (beforeEnd tokens ++ [stop]))
    (h : (ParsedExpr.ofTokens tokens nextId).expr? = some e) :
    (Parse.ofTokens tokens' nextId).hadError = false ∧
      (Parse.ofTokens tokens' nextId).program = [.print e] ∧
      (Parse.ofTokens tokens' nextId).nextId = (ParsedExpr.ofTokens tokens nextId).nextId := by
  unfold ParsedExpr.ofTokens at h ⊢
  cases hread : Expr.readWhole (Cursor.ofTokens tokens nextId) with
  | failed error c =>
    rw [hread] at h
    cases h
  | done e' c =>
    rw [hread] at h
    dsimp only at h ⊢
    split at h
    · cases h
    · next he =>
      cases h
      have hflag : c.hadError = false := Bool.eq_false_iff.mpr he
      have hprogram := Stmt.readProgram_print hword hstop hread hflag
        (Cursor.ofTokens tokens' nextId).endLine
      have hcursor : Cursor.ofTokens tokens' nextId =
          { Cursor.ofTokens tokens nextId with
            rest := word :: ((Cursor.ofTokens tokens nextId).rest ++ [stop])
            endLine := (Cursor.ofTokens tokens' nextId).endLine } := by
        have hrest : (Cursor.ofTokens tokens' nextId).rest =
            word :: ((Cursor.ofTokens tokens nextId).rest ++ [stop]) :=
          htokens
        rw [← hrest]
        rfl
      rw [Parse.ofTokens, hcursor, hprogram]
      exact ⟨hflag, rfl, rfl⟩

end Lox
