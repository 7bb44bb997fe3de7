import Lox.Proofs.Syntax.Making
import Mathlib.Data.List.TakeWhile

/-!
# Statements one after the other

Statements that can be read without an error are read in the same way whatever comes after them,
unless it is an `else` (`Parse.ofTokens_append_of_read`). There are two reasons for this.

* A reader that stops before the last token has not seen what comes after it
  (`Reader.Built.followedBy`).
* A statement that takes all tokens is closed: it ends with a semicolon or a brace, or with another
  statement. What comes before the last token is read as above, and the last token is the one that
  is expected (`Reader.Closed.then_expect`). Only after an `if` there is a look at the next token.
-/

namespace Lox

variable {c c' : Cursor} {program : List Stmt}

/-- The cursor with more tokens after those that are left, and the end of the source on another
line. -/
def Cursor.followedBy (more : List Token) (line : Nat) (c : Cursor) : Cursor :=
  { c with rest := c.rest ++ more, endLine := line }

/-- The same reading with more tokens after those that are left. -/
def Reading.followedBy {α : Type} (more : List Token) (line : Nat) : Reading α → Reading α
  | .done a c => .done a (c.followedBy more line)
  | .failed e c => .failed e (c.followedBy more line)

namespace Cursor

variable {more : List Token} {line : Nat} {c : Cursor}

theorem here_followedBy (h : c.rest ≠ []) : (c.followedBy more line).here = c.here := by
  obtain ⟨rest, endLine, nextId, errors, hadError⟩ := c
  cases rest with
  | nil => exact absurd rfl h
  | cons t rest => rfl

theorem skipAfter_append {dropped : Token} {ts : List Token} (h : skipAfter dropped ts ≠ []) :
    skipAfter dropped (ts ++ more) = skipAfter dropped ts ++ more := by
  induction ts generalizing dropped with
  | nil => exact absurd rfl h
  | cons t rest ih =>
    rw [skipAfter] at h
    rw [List.cons_append, skipAfter, skipAfter]
    split
    · rfl
    · next hgo =>
      rw [if_neg hgo] at h
      exact ih h

theorem skip_append {ts : List Token} (h : skip ts ≠ []) : skip (ts ++ more) = skip ts ++ more := by
  cases ts with
  | nil => exact absurd rfl h
  | cons t rest => exact skipAfter_append h

end Cursor

namespace Reader

variable {α β : Type} {r : Reader α} {f : α → Reader β} {more : List Token} {line : Nat}

/-- **A reader that stops before the last token has not seen what comes after it.** -/
theorem Built.followedBy (h : Built r) (hrest : (r c).cursor.rest ≠ []) :
    r (c.followedBy more line) = (r c).followedBy more line := by
  induction h generalizing c with
  | pure | report | fresh => rfl
  | failHere fault =>
    have hc : c.rest ≠ [] := hrest
    show Reading.failed (.at (c.followedBy more line).here fault) _ = _
    rw [Cursor.here_followedBy hc]
    rfl
  | reportHere fault =>
    have hc : c.rest ≠ [] := hrest
    show Reading.done () ((c.followedBy more line).report
      (.at (c.followedBy more line).here fault)) = _
    rw [Cursor.here_followedBy hc]
    rfl
  | atEnd | check =>
    obtain ⟨rest, endLine, nextId, errors, hadError⟩ := c
    cases rest with
    | nil => exact absurd rfl hrest
    | cons t rest => rfl
  | accept p =>
    obtain ⟨rest, endLine, nextId, errors, hadError⟩ := c
    cases rest with
    | nil => exact absurd rfl hrest
    | cons t rest =>
      simp only [Reader.accept, Cursor.followedBy, List.cons_append]
      split <;> rfl
  | expect p fault =>
    obtain ⟨rest, endLine, nextId, errors, hadError⟩ := c
    cases rest with
    | nil => exact absurd rfl hrest
    | cons t rest =>
      simp only [Reader.expect, Cursor.followedBy, List.cons_append]
      split <;> rfl
  | @bind _ _ r f hr hf ih ihf =>
    rcases bind_cases r f c with ⟨a, c₁, hfirst, heq⟩ | ⟨e, c₁, hfirst, heq⟩
    · rw [heq] at hrest ⊢
      have hrest₁ : (r c).cursor.rest ≠ [] := by
        rw [hfirst]
        rintro hnil
        have hsuffix := (hf a).suffix c₁
        change c₁.rest = [] at hnil
        rw [hnil] at hsuffix
        exact hrest (List.suffix_nil.mp hsuffix)
      have hnext := ih hrest₁
      rw [hfirst] at hnext
      rw [bind_of_done hnext]
      exact ihf a hrest
    · rw [heq] at hrest ⊢
      have hnext := ih (c := c) (by rw [hfirst]; exact hrest)
      rw [hfirst] at hnext
      show Reader.bind r f (c.followedBy more line) = _
      rw [Reader.bind, hnext]
      rfl
  | @recovering _ r hr ih =>
    rcases recovering_cases r c with ⟨a, c₁, hfirst, heq⟩ | ⟨e, c₁, hfirst, heq⟩
    · rw [heq] at hrest ⊢
      have hnext := ih (c := c) (by rw [hfirst]; exact hrest)
      rw [hfirst] at hnext
      rw [Reader.recovering, hnext]
      rfl
    · rw [heq] at hrest ⊢
      change Cursor.skip c₁.rest ≠ [] at hrest
      have hrest₁ : c₁.rest ≠ [] := by
        rintro hnil
        rw [hnil] at hrest
        exact hrest rfl
      have hnext := ih (c := c) (by rw [hfirst]; exact hrest₁)
      rw [hfirst] at hnext
      rw [Reader.recovering, hnext]
      show Reading.done none
        { c₁ with
          rest := Cursor.skip (c₁.rest ++ more), endLine := line, errors := _,
          hadError := true } = _
      rw [Cursor.skip_append hrest]
      rfl
  | @sized _ r hr hstable ih =>
    have hlength : c.rest.length ≤ (c.followedBy more line).rest.length := by
      show c.rest.length ≤ (c.rest ++ more).length
      rw [List.length_append]
      exact Nat.le_add_right _ _
    have heq := hstable _ _ c (Nat.le_refl _) hlength
    change (r c.rest.length c).cursor.rest ≠ [] at hrest
    show r (c.followedBy more line).rest.length (c.followedBy more line) =
      (r c.rest.length c).followedBy more line
    rw [heq] at hrest ⊢
    exact ih _ hrest

theorem Built.done_followedBy (h : Built r) {a : α} (hr : r c = .done a c') (hne : c'.rest ≠ [])
    (more : List Token) (line : Nat) :
    r (c.followedBy more line) = .done a (c'.followedBy more line) := by
  have hrest : (r c).cursor.rest ≠ [] := by
    rw [hr]
    exact hne
  rw [h.followedBy hrest, hr]
  rfl

/-! ## Closed readers -/

/-- Where the reader gives a value, it gives the same before more tokens, even if it takes all that
are left. -/
def Closed (more : List Token) (line : Nat) (r : Reader α) : Prop :=
  ∀ c a c', r c = .done a c' → r (c.followedBy more line) = .done a (c'.followedBy more line)

namespace Closed

variable {fault : ParseFault} {p : Kind → Bool}

theorem pure {a : α} : Closed more line (Pure.pure a : Reader α) := by
  intro c _ _ hr
  cases hr
  rfl

theorem failHere : Closed more line (Reader.failHere fault : Reader α) := by
  intro c a c' hr
  cases hr

theorem expect : Closed more line (Reader.expect p fault) := by
  rintro ⟨rest, endLine, nextId, errors, hadError⟩ t c' hr
  cases rest with
  | nil => cases hr
  | cons t rest =>
    simp only [Reader.expect, Cursor.followedBy, List.cons_append] at hr ⊢
    split at hr
    · next ht =>
      cases hr
      exact if_pos ht
    · cases hr

/-- A look at the next token, if those that follow start with another. -/
theorem accept (hmore : ∀ t ∈ more.head?, p t.kind = false) :
    Closed more line (Reader.accept p) := by
  rintro ⟨rest, endLine, nextId, errors, hadError⟩ t? c' hr
  cases rest with
  | nil =>
    cases hr
    simp only [Reader.accept, Cursor.followedBy, List.nil_append]
    cases more with
    | nil => rfl
    | cons t rest => simp [hmore t rfl]
  | cons t rest =>
    simp only [Reader.accept, Cursor.followedBy, List.cons_append] at hr ⊢
    split at hr
    · next ht =>
      cases hr
      exact if_pos ht
    · next ht =>
      cases hr
      exact if_neg ht

theorem bind (h : Closed more line r) (hf : ∀ a, Closed more line (f a)) :
    Closed more line (r >>= f) := by
  intro c b c' hr
  obtain ⟨a, c₁, hfirst, hrest⟩ := done_of_bind hr
  rw [bind_of_done (h c a c₁ hfirst)]
  exact hf a c₁ b c' hrest

/-- The first part stops before the last token, since the second one takes a token. -/
theorem bind_takes (h : Built r) (htakes : ∀ a, Takes (f a)) (hf : ∀ a, Closed more line (f a)) :
    Closed more line (r >>= f) := by
  intro c b c' hr
  obtain ⟨a, c₁, hfirst, hrest⟩ := done_of_bind hr
  rw [bind_of_done (h.done_followedBy hfirst ((htakes a).rest_ne_nil hrest) more line)]
  exact hf a c₁ b c' hrest

/-- **Anything before a token that is expected.** -/
theorem then_expect {g : α → Token → Reader β} (h : Built r) (hbuilt : ∀ a t, Built (g a t))
    (hg : ∀ a t, Closed more line (g a t)) :
    Closed more line (r >>= fun a => Reader.expect p fault >>= g a) :=
  bind_takes h (fun a => Takes.expect.bind_left (hbuilt a)) fun a => expect.bind (hg a)

/-- The next token, and if it is of another kind a reader that takes one. -/
theorem accept_bind {f : Option Token → Reader β} (htakes : Takes (f none))
    (hnone : Closed more line (f none)) (hsome : ∀ t, Closed more line (f (some t))) :
    Closed more line (Reader.accept p >>= f) := by
  intro c b c' hr
  rcases accept_cases p c with heq | ⟨t, rest, hrest, ht, heq⟩
  · rw [bind_of_done heq] at hr
    rw [bind_of_done ((Built.accept p).done_followedBy heq (htakes.rest_ne_nil hr) more line)]
    exact hnone c b c' hr
  · have htaken : Reader.accept p (c.followedBy more line) =
        .done (some t) (({ c with rest := rest } : Cursor).followedBy more line) := by
      simp only [Reader.accept, Cursor.followedBy, hrest, List.cons_append, ht, if_true]
    rw [bind_of_done heq] at hr
    rw [bind_of_done htaken]
    exact hsome t _ b c' hr

end Closed

end Reader

/-! ## Statements are closed -/

namespace Stmt

open Reader

variable {more : List Token} {line depth count : Nat}

theorem closed_readExpression : Closed more line readExpression :=
  .then_expect Expr.built_read (fun _ _ => .pure _) fun _ _ => .pure

theorem closed_readPrint : Closed more line readPrint :=
  .then_expect Expr.built_read (fun _ _ => .pure _) fun _ _ => .pure

theorem closed_readReturn (word : Token) : Closed more line (readReturn word) :=
  .then_expect (built_readUnless _) (fun _ _ => .pure _) fun _ _ => .pure

theorem closed_readVar : Closed more line readVar :=
  Closed.expect.bind fun _ => .then_expect built_readInitializer (fun _ _ => .pure _) fun _ _ =>
    .pure

namespace Rules

variable {rules : Rules}

/-- The rules that end with a brace or may end in a statement. -/
structure Closed (more : List Token) (line : Nat) (rules : Rules) : Prop where
  classDef : Reader.Closed more line rules.classDef
  function : ∀ callable, Reader.Closed more line (rules.function callable)
  block : Reader.Closed more line rules.block
  statement : Reader.Closed more line rules.statement
  forLoop : Reader.Closed more line rules.forLoop
  ifThen : Reader.Closed more line rules.ifThen
  whileLoop : Reader.Closed more line rules.whileLoop

theorem Closed.statementOf (h : rules.Closed more line) (t : Token) :
    Reader.Closed more line (rules.statementOf t) := by
  unfold Rules.statementOf
  split
  · exact h.forLoop
  · exact h.ifThen
  · exact h.whileLoop
  · exact closed_readReturn t
  · exact h.block.bind fun _ => .pure
  · exact closed_readPrint

/-- What comes before the last token, or before the last statement, is followed by a token that is
expected. -/
theorem Closed.step (h : rules.Closed more line) (hb : rules.Built)
    (hmore : ∀ t ∈ more.head?, t.kind ≠ .keyword .elseWord) : rules.step.Closed more line where
  classDef := by
    refine Reader.Closed.expect.bind fun name => ?_
    refine .then_expect built_readSuperclass (fun superclass _ => ?_) fun superclass _ => ?_
    · exact hb.methods.bind fun _ => .expectThen fun _ => .pure _
    · exact .then_expect hb.methods (fun _ _ => .pure _) fun _ _ => .pure
  function callable := by
    refine Reader.Closed.expect.bind fun name => Reader.Closed.expect.bind fun _ => ?_
    refine .then_expect hb.params (fun params _ => ?_) fun params _ => ?_
    · exact .expectThen fun _ => hb.block.bind fun _ => .pure _
    · exact Reader.Closed.expect.bind fun _ => h.block.bind fun _ => .pure
  block := .then_expect hb.declarations (fun _ _ => .pure _) fun _ _ => .pure
  statement := .accept_bind readExpression_takes closed_readExpression h.statementOf
  forLoop := by
    have hbody (initializer : Option Stmt) (condition increment : Option Expr) : Reader.Built (do
        let body ← rules.statement
        return Stmt.forLoop initializer condition increment body) := hb.statement.bind fun _ =>
          .pure _
    refine Reader.Closed.expect.bind fun _ => ?_
    refine .bind_takes built_readForInitializer (fun initializer => ?_) fun initializer => ?_
    · refine .bind_right (built_readUnless _) fun condition => Takes.expect.bind_left fun _ => ?_
      exact (built_readUnless _).bind fun increment => .expectThen fun _ => hbody _ _ _
    · refine .then_expect (built_readUnless _) (fun condition _ => ?_) fun condition _ => ?_
      · exact (built_readUnless _).bind fun increment => .expectThen fun _ => hbody _ _ _
      · refine .then_expect (built_readUnless _) (fun increment _ => hbody _ _ _) fun increment _ =>
          ?_
        exact h.statement.bind fun _ => .pure
  ifThen := by
    -- The look for an `else` does not find one in what follows.
    have hnone : ∀ t ∈ more.head?, Kind.isKeyword .elseWord t.kind = false := by
      intro t ht
      rw [Bool.eq_false_iff]
      exact fun hword => hmore t ht (Grammar.isWord_iff.mp hword)
    refine Reader.Closed.expect.bind fun _ => ?_
    refine .then_expect Expr.built_read (fun condition _ => ?_) fun condition _ => ?_
    · refine hb.statement.bind fun thenBranch => ?_
      exact .acceptThen (.pure _) fun _ => hb.statement.bind fun _ => .pure _
    · refine h.statement.bind fun thenBranch => (Reader.Closed.accept hnone).bind fun else? => ?_
      cases else? with
      | some word => exact h.statement.bind fun _ => .pure
      | none => exact .pure
  whileLoop := by
    refine Reader.Closed.expect.bind fun _ => ?_
    refine .then_expect Expr.built_read (fun condition _ => ?_) fun condition _ => ?_
    · exact hb.statement.bind fun _ => .pure _
    · exact h.statement.bind fun _ => .pure

end Rules

section

variable (hmore : ∀ t ∈ more.head?, t.kind ≠ .keyword .elseWord)

include hmore

theorem closed_bounded (depth : Nat) : (bounded depth).Closed more line := by
  induction depth with
  | zero =>
    exact ⟨.failHere, fun _ => .failHere, .failHere, .failHere, .failHere, .failHere, .failHere⟩
  | succ depth ih => exact { ih.step (built_bounded depth) hmore with }

/-- **A declaration that can be read is read in the same way before more tokens.** -/
theorem readDeclaration_followedBy {s : Stmt} (h : readDeclaration depth c = .done (some s) c') :
    readDeclaration depth (c.followedBy more line) = .done (some s) (c'.followedBy more line) := by
  cases depth with
  | zero => cases h
  | succ depth =>
    have hb := built_bounded depth
    have honce : Closed more line (bounded depth).declarationOnce := by
      have hc : (bounded depth).Closed more line := closed_bounded hmore depth
      have htakes := hb.statement_takes
      refine .accept_bind ?_
        (.accept_bind ?_ (.accept_bind htakes hc.statement fun _ => closed_readVar) fun _ => ?_)
        fun _ => hc.classDef
      · exact .accept (.accept htakes fun _ => built_readVar) fun _ => (hb.function _).bind fun _ =>
          .pure _
      · exact .accept htakes fun _ => built_readVar
      · exact (hc.function _).bind fun _ => .pure
    change recovering (bounded depth).declarationOnce c = _ at h
    show recovering (bounded depth).declarationOnce (c.followedBy more line) = _
    rcases recovering_cases (bounded depth).declarationOnce c with
      ⟨a, c₁, hr, heq⟩ | ⟨e, c₁, hr, heq⟩
    · rw [heq] at h
      cases h
      rw [recovering, honce c s c' hr]
    · rw [heq] at h
      cases h

end

/-- A declaration that reports no error can be read. -/
theorem readDeclaration_some (depth : Nat) (h : (readDeclaration depth c).cursor.errors = []) :
    ∃ s c', readDeclaration depth c = .done (some s) c' := by
  obtain ⟨once, honce⟩ := readDeclaration_eq depth
  rw [honce] at h ⊢
  rcases recovering_cases once c with ⟨s, c₁, -, heq⟩ | ⟨e, c₁, -, heq⟩
  · exact ⟨s, c₁, heq⟩
  · rw [heq] at h
    exact absurd h (List.append_ne_nil_of_right_ne_nil _ (List.cons_ne_nil _ _))

/-! ## Programs -/

/-- Where a program has been read to the end, the tokens that follow are read as a program. -/
theorem readToEnd_at_more (hdepth : readDepth more.length ≤ depth) {count' : Nat} {c'' : Cursor}
    {others : List Stmt} (hc : c.rest = []) (hcount' : more.length ≤ count')
    (h : readToEnd depth count c = .done program c')
    (hothers : readProgram (c'.followedBy more line) = .done others c'') :
    readToEnd depth count' (c.followedBy more line) = .done (program ++ others) c'' := by
  have hrest : (c.followedBy more line).rest =
      more := by rw [Cursor.followedBy, hc, List.nil_append]
  rw [readToEnd_nil depth _ hc] at h
  cases h
  rw [readToEnd_stable (by rw [hrest]; exact hcount') (by rw [hrest]; exact hdepth), hothers,
    List.nil_append]

/-- **A program without errors is read in the same way before more tokens**, and then these are
read. -/
theorem readToEnd_followedBy (hmore : ∀ t ∈ more.head?, t.kind ≠ .keyword .elseWord)
    (hdepth : readDepth more.length ≤ depth) {count' : Nat} {c'' : Cursor} {others : List Stmt}
    (hcount : c.rest.length ≤ count) (hcount' : c.rest.length + more.length ≤ count')
    (h : readToEnd depth count c = .done program c') (herrors : c'.errors = [])
    (hothers : readProgram (c'.followedBy more line) = .done others c'') :
    readToEnd depth count' (c.followedBy more line) = .done (program ++ others) c'' := by
  induction count generalizing c count' program with
  | zero =>
    have hc : c.rest = [] := List.length_eq_zero_iff.mp (Nat.le_zero.mp hcount)
    exact readToEnd_at_more hdepth hc (by omega) h hothers
  | succ count ih =>
    by_cases hc : c.rest = []
    · exact readToEnd_at_more hdepth hc (by omega) h hothers
    · obtain ⟨first, c₁, rest, hfirst, hrest, rfl⟩ := exists_of_readToEnd hc h
      -- No report is taken back, so the first declaration had no error, and could be read.
      have hgrow := (built_readToEnd depth count).errors_grow c₁
      rw [hrest] at hgrow
      have herrors₁ : c₁.errors = [] := List.prefix_nil.mp (herrors ▸ hgrow)
      obtain ⟨s, c₂, hsome⟩ := readDeclaration_some depth (c := c) (by rw [hfirst]; exact herrors₁)
      have hshorter := readDeclaration_shorter depth hc
      rw [hfirst] at hsome hshorter
      cases hsome
      change c₁.rest.length < c.rest.length at hshorter
      obtain ⟨k, rfl⟩ := Nat.exists_eq_add_of_le' (show 1 ≤ count' by omega)
      have hnext : readDeclaration depth (c.followedBy more line) =
          .done (some s) (c₁.followedBy more line) :=
        readDeclaration_followedBy hmore hfirst
      have hrest' : readToEnd depth k (c₁.followedBy more line) = .done (rest ++ others) c'' :=
        ih (by omega) (by omega) hrest
      have hne : (c.followedBy more line).rest ≠ [] := List.append_ne_nil_of_left_ne_nil hc _
      rw [readToEnd_cons depth k hne hnext hrest', List.append_assoc]

end Stmt

/-! ## Tokens one after the other -/

theorem Kind.isEof_iff {kind : Kind} : kind.isEof = true ↔ kind = .eof := by
  cases kind <;> simp [Kind.isEof]

/-- Tokens without an end before tokens with one. -/
theorem Cursor.ofTokens_append {tokens more : List Token} (nextId : NodeId)
    (htokens : ∀ t ∈ tokens, t.kind ≠ .eof) (hmore : ∃ t ∈ more, t.kind = .eof) :
    Cursor.ofTokens (tokens ++ more) nextId =
      (Cursor.ofTokens tokens nextId).followedBy (beforeEnd more)
        (Cursor.ofTokens more nextId).endLine := by
  have hnot : ∀ t ∈ tokens, t.kind.isEof = false := by
    intro t ht
    rw [Bool.eq_false_iff]
    exact fun heof => htokens t ht (Kind.isEof_iff.mp heof)
  have hrest : (tokens ++ more).takeWhile (fun t => !t.kind.isEof) =
      tokens.takeWhile (fun t => !t.kind.isEof) ++ beforeEnd more := by
    have hall : ∀ t ∈ tokens, (!t.kind.isEof) = true := fun t ht => by rw [hnot t ht]; rfl
    rw [List.takeWhile_append_of_pos hall, List.takeWhile_eq_self_iff.mpr hall]
  obtain ⟨last, hlast⟩ : ∃ last, more.find? (fun t => t.kind.isEof) = some last := by
    obtain ⟨t, ht, heof⟩ := hmore
    exact Option.isSome_iff_exists.mp (List.find?_isSome.mpr ⟨t, ht, Kind.isEof_iff.mpr heof⟩)
  have hfind : (tokens ++ more).find? (fun t => t.kind.isEof) = some last := by
    have hnone : tokens.find? (fun t => t.kind.isEof) = none :=
      List.find?_eq_none.mpr fun t ht => by simp [hnot t ht]
    rw [List.find?_append, hnone, Option.none_or, hlast]
  simp only [Cursor.ofTokens, Cursor.followedBy, hrest, hfind, hlast]

/-- A cursor at the end, followed by tokens, is one at the front of these. -/
theorem Cursor.followedBy_at_end (more : List Token) (nextId : NodeId) (hrest : c.rest = [])
    (herrors : c.errors = []) (hflag : c.hadError = false) :
    c.followedBy (beforeEnd more) (Cursor.ofTokens more nextId).endLine =
      Cursor.ofTokens more c.nextId := by
  obtain ⟨rest, endLine, id, errors, hadError⟩ := c
  cases hrest
  cases herrors
  cases hflag
  rfl

theorem Parse.ofTokens_of_done {tokens : List Token} {nextId : NodeId}
    (h : Stmt.readProgram (Cursor.ofTokens tokens nextId) = .done program c) :
    Parse.ofTokens tokens nextId = ⟨program, c.errors, c.nextId, c.hadError⟩ := by
  rw [Parse.ofTokens, h]

/-- **Statements that can be read without an error are read in the same way whatever comes after
them**, unless it is an `else`. The tokens that follow them give the same statements as on their
own, with ids further on by as many as the statements before them use up, and the same errors in the
same order. -/
theorem Parse.ofTokens_append_of_read {tokens more : List Token} {nextId : NodeId}
    (htokens : ∀ t ∈ tokens, t.kind ≠ .eof)
    (hread : (Parse.ofTokens tokens nextId).hadError = false)
    (hend : ∃ t, more.getLast? = some t ∧ t.kind = .eof)
    (helse : ∀ t, more.head? = some t → t.kind ≠ .keyword .elseWord) :
    (Parse.ofTokens (tokens ++ more) nextId).program = (Parse.ofTokens tokens nextId).program ++
        Stmt.renumberAll (· + ((Parse.ofTokens tokens nextId).nextId - nextId))
          (Parse.ofTokens more nextId).program ∧
      (Parse.ofTokens (tokens ++ more) nextId).errors = (Parse.ofTokens more nextId).errors ∧
      (Parse.ofTokens (tokens ++ more) nextId).hadError =
        (Parse.ofTokens more nextId).hadError := by
  have hmore : ∃ t ∈ more, t.kind = .eof := by
    obtain ⟨t, hlast, heof⟩ := hend
    exact ⟨t, List.mem_of_getLast? hlast, heof⟩
  have hhead : ∀ t ∈ (beforeEnd more).head?, t.kind ≠ .keyword .elseWord := by
    intro t ht
    refine helse t ?_
    cases more with
    | nil => cases ht
    | cons t' rest =>
      rw [beforeEnd, List.takeWhile_cons] at ht
      split at ht <;> cases ht
      rfl
  -- The statements before, and those after them from the next id on.
  obtain ⟨program, c, hprogram, hrest⟩ := Stmt.readProgram_done (Cursor.ofTokens tokens nextId)
  have hbefore := Parse.ofTokens_of_done hprogram
  have hflag : c.hadError = false := by rwa [hbefore] at hread
  have herrors : c.errors = [] := by
    have hno := Parse.errors_eq_nil_of_hadError hread
    rwa [hbefore] at hno
  have hfollowed := Cursor.followedBy_at_end more nextId hrest herrors hflag
  obtain ⟨others, c', hothers, -⟩ := Stmt.readProgram_done (Cursor.ofTokens more c.nextId)
  have hafter := Parse.ofTokens_of_done hothers
  have hboth : Stmt.readProgram (Cursor.ofTokens (tokens ++ more) nextId) =
      .done (program ++ others) c' := by
    have hlength : ((Cursor.ofTokens tokens nextId).followedBy (beforeEnd more)
        (Cursor.ofTokens more nextId).endLine).rest.length =
          (Cursor.ofTokens tokens nextId).rest.length + (beforeEnd more).length :=
      List.length_append
    rw [Cursor.ofTokens_append nextId htokens hmore, Stmt.readProgram, hlength]
    refine Stmt.readToEnd_followedBy hhead ?_ (Nat.le_refl _) (Nat.le_refl _) ?_ herrors
      (hfollowed ▸ hothers)
    · simp only [Stmt.readDepth]
      omega
    · exact (Stmt.readToEnd_stable (Nat.le_refl _) (by simp only [Stmt.readDepth]; omega)).trans
        hprogram
  -- From a later id the statements after are the same but for their ids.
  have hle : nextId ≤ c.nextId := by
    have hids := (Parse.ids_between tokens nextId).1
    rwa [hbefore] at hids
  have hshift := Parse.ofTokens_add more nextId (c.nextId - nextId)
  rw [Nat.add_sub_cancel' hle, hafter] at hshift
  injection hshift with hothers' herrors' _ hflag'
  rw [Parse.ofTokens_of_done hboth, hbefore]
  exact ⟨by rw [← hothers'], herrors', hflag'⟩

/-- An `if` without `else`. -/
def ifWithoutElse : List Token :=
  [⟨.keyword .ifWord, "if", 1⟩, ⟨.symbol .leftParen, "(", 1⟩, ⟨.identifier, "a", 1⟩,
    ⟨.symbol .rightParen, ")", 1⟩, ⟨.keyword .printWord, "print", 1⟩, ⟨.identifier, "b", 1⟩,
    ⟨.symbol .semicolon, ";", 1⟩]

/-- A parenthesis that nothing opens, and a statement after it. -/
def strayParen : List Token :=
  [⟨.symbol .rightParen, ")", 2⟩, ⟨.symbol .semicolon, ";", 2⟩, ⟨.keyword .printWord, "print", 2⟩,
    ⟨.identifier, "c", 2⟩, ⟨.symbol .semicolon, ";", 2⟩, ⟨.eof, "", 2⟩]

/-- Going on after the error does not reach back into the `if`. -/
theorem Parse.ifWithoutElse_before_strayParen :
    (Parse.ofTokens (ifWithoutElse ++ strayParen) 0).program =
        [.ifThen (.variable 0 ⟨.identifier, "a", 1⟩) (.print (.variable 1 ⟨.identifier, "b", 1⟩)),
          .print (.variable 2 ⟨.identifier, "c", 2⟩)] ∧
      (Parse.ofTokens (ifWithoutElse ++ strayParen) 0).errors =
        [.at ⟨.symbol .rightParen, ")", 2⟩ .expression] ∧
      (Parse.ofTokens (ifWithoutElse ++ strayParen) 0).hadError = true := by
  have htokens : ∀ t ∈ ifWithoutElse, t.kind ≠ .eof := by simp [ifWithoutElse]
  have helse : ∀ t, strayParen.head? = some t → t.kind ≠ .keyword .elseWord := by
    rintro t ⟨⟩ hkind
    cases hkind
  have hbefore : Parse.ofTokens ifWithoutElse 0 =
      ⟨[.ifThen (.variable 0 ⟨.identifier, "a", 1⟩) (.print (.variable 1 ⟨.identifier, "b", 1⟩))],
      [], 2, false⟩ := rfl
  have hafter : Parse.ofTokens strayParen 0 =
      ⟨[.print (.variable 0 ⟨.identifier, "c", 2⟩)],
      [.at ⟨.symbol .rightParen, ")", 2⟩ .expression], 1, true⟩ := rfl
  have hread : (Parse.ofTokens ifWithoutElse 0).hadError = false := by rw [hbefore]
  have hend : ∃ t, strayParen.getLast? = some t ∧ t.kind = .eof := ⟨⟨.eof, "", 2⟩, rfl, rfl⟩
  obtain ⟨hprogram, herrors, hhadError⟩ := Parse.ofTokens_append_of_read htokens hread hend helse
  rw [hprogram, herrors, hhadError, hbefore, hafter]
  exact ⟨rfl, rfl, rfl⟩

end Lox
