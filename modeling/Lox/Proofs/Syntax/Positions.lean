import Lox.Proofs.Syntax.Parsing

/-!
# Positions in the tokens

A cursor holds the tokens that are left. Here it is told by an index into all tokens, with an
end-of-source token after them where the last one is none (`Cursor.StandsAt`). The index is always
one of a token, and it never goes down and never past the first end-of-source token, whatever is
read (`Reader.Built.standsAt`). Where there is a token before the end, a declaration leaves a
greater index (`Stmt.standsAt_readDeclaration`).

After an error reading starts again at the first place behind it that is fit for it
(`Cursor.standsAt_synchronize`).
-/

namespace Lox

variable {c : Cursor} {i : Nat}

/-! ## Tokens with an end -/

/-- Tokens with an end-of-source token after them, if the last one is none. -/
def withEnd (tokens : List Token) : List Token :=
  match tokens.getLast? with
  | none => [⟨.eof, "", 1⟩]
  | some t => if t.kind.isEof then tokens else tokens ++ [⟨.eof, "", t.line⟩]

/-- The index of the first end-of-source token. -/
def firstEnd (tokens : List Token) : Nat :=
  (withEnd tokens).findIdx fun t => t.kind.isEof

variable {tokens : List Token}

theorem isEof_of_mem_beforeEnd {t : Token} (h : t ∈ beforeEnd tokens) : t.kind.isEof = false := by
  simpa using List.all_eq_true.mp List.all_takeWhile t h

/-- The tokens before the first end-of-source token, that token, and what follows it. -/
theorem withEnd_eq (tokens : List Token) :
    ∃ last after, last.kind.isEof = true ∧ withEnd tokens = beforeEnd tokens ++ last :: after := by
  have hsplit : beforeEnd tokens ++ tokens.dropWhile (fun t => !t.kind.isEof) = tokens :=
    List.takeWhile_append_dropWhile
  unfold withEnd
  cases hdrop : tokens.dropWhile (fun t => !t.kind.isEof) with
  | nil =>
    rw [hdrop, List.append_nil] at hsplit
    split
    · next hlast =>
      rw [hsplit, List.getLast?_eq_none_iff.mp hlast]
      exact ⟨_, _, rfl, rfl⟩
    · next t hlast =>
      have ht : t ∈ beforeEnd tokens := hsplit.symm ▸ List.mem_of_getLast? hlast
      rw [isEof_of_mem_beforeEnd ht, hsplit]
      exact ⟨_, _, rfl, rfl⟩
  | cons last after =>
    have hlast : last.kind.isEof = true := by
      have hnot := List.head?_dropWhile_not (fun t : Token => !t.kind.isEof) tokens
      simpa [hdrop] using hnot
    rw [hdrop] at hsplit
    split
    · next hnone =>
      rw [List.getLast?_eq_none_iff.mp hnone] at hdrop
      cases hdrop
    · next t _ =>
      split
      · exact ⟨last, after, hlast, hsplit.symm⟩
      · refine ⟨last, after ++ [⟨.eof, "", t.line⟩], hlast, ?_⟩
        rw [← List.cons_append, ← List.append_assoc, hsplit]

theorem firstEnd_eq (tokens : List Token) : firstEnd tokens = (beforeEnd tokens).length := by
  obtain ⟨last, after, hlast, heq⟩ := withEnd_eq tokens
  have hnone : (beforeEnd tokens).findIdx (fun t => t.kind.isEof) = (beforeEnd tokens).length :=
    List.findIdx_eq_length_of_false fun t ht => isEof_of_mem_beforeEnd ht
  rw [firstEnd, heq, List.findIdx_append, hnone, if_neg (Nat.lt_irrefl _), List.findIdx_cons, hlast,
    cond_true, Nat.zero_add]

/-! ## Where a cursor stands -/

namespace Cursor

variable {c : Cursor} {i : Nat}

/-- A cursor stands at the token with an index: no later than at the first end-of-source token, and
with the tokens before that one left to read. -/
structure StandsAt (tokens : List Token) (i : Nat) (c : Cursor) : Prop where
  valid : i < (withEnd tokens).length
  bound : i ≤ firstEnd tokens
  rest : c.rest = ((withEnd tokens).drop i).takeWhile fun t => !t.kind.isEof

theorem standsAt_iff :
    c.StandsAt tokens i ↔ i ≤ (beforeEnd tokens).length ∧ c.rest = (beforeEnd tokens).drop i := by
  obtain ⟨last, after, hlast, heq⟩ := withEnd_eq tokens
  have hrest (hi : i ≤ (beforeEnd tokens).length) :
      ((withEnd tokens).drop i).takeWhile (fun t => !t.kind.isEof) = (beforeEnd tokens).drop i := by
    have hall : ∀ t ∈ (beforeEnd tokens).drop i, (!t.kind.isEof) = true := by
      intro t ht
      rw [isEof_of_mem_beforeEnd (List.mem_of_mem_drop ht)]
      rfl
    rw [heq, List.drop_append_of_le_length hi, List.takeWhile_append_of_pos hall,
      List.takeWhile_cons_of_neg (by simp [hlast]), List.append_nil]
  constructor
  · rintro ⟨-, hbound, h⟩
    rw [firstEnd_eq] at hbound
    exact ⟨hbound, h.trans (hrest hbound)⟩
  · rintro ⟨hi, h⟩
    refine ⟨?_, firstEnd_eq tokens ▸ hi, h.trans (hrest hi).symm⟩
    rw [heq, List.length_append, List.length_cons]
    omega

theorem standsAt_ofTokens (tokens : List Token) (nextId : NodeId) :
    (ofTokens tokens nextId).StandsAt tokens 0 :=
  standsAt_iff.mpr ⟨Nat.zero_le _, rfl⟩

/-- With fewer tokens left, a cursor stands further on. -/
theorem StandsAt.suffix {c' : Cursor} (h : c.StandsAt tokens i) (hrest : c'.rest <:+ c.rest) :
    c'.StandsAt tokens (i + (c.rest.length - c'.rest.length)) := by
  obtain ⟨hi, hc⟩ := standsAt_iff.mp h
  have hlength : c.rest.length = (beforeEnd tokens).length - i := by rw [hc, List.length_drop]
  refine standsAt_iff.mpr ⟨by omega, ?_⟩
  rw [← List.drop_drop, ← hc]
  exact List.suffix_iff_eq_drop.mp hrest

theorem StandsAt.rest_ne_nil (h : c.StandsAt tokens i) (hi : i < firstEnd tokens) :
    c.rest ≠ [] := by
  obtain ⟨-, hc⟩ := standsAt_iff.mp h
  rw [firstEnd_eq] at hi
  intro hnil
  have hlength := congrArg List.length hc
  rw [hnil, List.length_drop, List.length_nil] at hlength
  omega

end Cursor

/-- **Whatever is read, the index does not go down**, and stays that of a token up to the first
end-of-source token. -/
theorem Reader.Built.standsAt {α : Type} {r : Reader α} (h : Reader.Built r)
    (hc : c.StandsAt tokens i) : ∃ j, i ≤ j ∧ (r c).cursor.StandsAt tokens j :=
  ⟨_, Nat.le_add_right _ _, hc.suffix (h.suffix c)⟩

/-- **A declaration before the end takes the index further**, whether it can be read or not. -/
theorem Stmt.standsAt_readDeclaration (depth : Nat) (hc : c.StandsAt tokens i)
    (hi : i < firstEnd tokens) :
    ∃ j, i < j ∧ (Stmt.readDeclaration depth c).cursor.StandsAt tokens j := by
  have hshorter := Stmt.readDeclaration_shorter depth (hc.rest_ne_nil hi)
  exact ⟨_, by omega, hc.suffix ((Stmt.built_bounded depth).declaration.suffix c)⟩

/-! ## Starting again after an error -/

/-- The reserved words that begin a statement at which reading can start again. -/
def Keyword.restarts : List Keyword :=
  [.classWord, .funWord, .varWord, .forWord, .ifWord, .whileWord, .printWord, .returnWord]

theorem Cursor.startsStatement_iff {kind : Kind} :
    Cursor.startsStatement kind = true ↔ ∃ word ∈ Keyword.restarts, kind = .keyword word := by
  have hwords (word : Keyword) : Cursor.startsStatement (.keyword word) = true ↔
      word ∈ Keyword.restarts := by
    cases word <;> decide
  constructor
  · intro h
    cases kind with
    | keyword word => exact ⟨word, (hwords word).mp h, rfl⟩
    | _ => cases h
  · rintro ⟨word, hword, rfl⟩
    exact (hwords word).mpr hword

/-- Reading can start again at a token: it is the end, or comes after a semicolon, or begins a
statement. -/
def RestartsAt (tokens : List Token) (p : Nat) : Prop :=
  ∃ t, (withEnd tokens)[p]? = some t ∧
    (t.kind = .eof ∨ (∃ s, (withEnd tokens)[p - 1]? = some s ∧ s.kind = .symbol .semicolon) ∨
      ∃ word ∈ Keyword.restarts, t.kind = .keyword word)

namespace Cursor

/-- What is left after dropping tokens from index `i` on starts at the next place to start again. -/
theorem skipAfter_restarts {dropped : Token} {ts : List Token}
    (hi : (beforeEnd tokens)[i]? = some dropped) (hts : (beforeEnd tokens).drop (i + 1) = ts) :
    ∃ p, i < p ∧ p ≤ (beforeEnd tokens).length ∧ skipAfter dropped ts = (beforeEnd tokens).drop p ∧
      RestartsAt tokens p ∧ ∀ q, i < q → q < p → ¬RestartsAt tokens q := by
  obtain ⟨last, after, hlast, heq⟩ := withEnd_eq tokens
  obtain ⟨hlt, -⟩ := List.getElem?_eq_some_iff.mp hi
  have hdropped : (withEnd tokens)[i]? =
      some dropped := by rw [heq, List.getElem?_append_left hlt, hi]
  induction ts generalizing dropped i with
  | nil =>
    -- The token after the dropped one is the end.
    have hend : i + 1 = (beforeEnd tokens).length := by
      have hle := List.drop_eq_nil_iff.mp hts
      omega
    refine ⟨i + 1, Nat.lt_succ_self i, Nat.le_of_eq hend, hts.symm, ⟨last, ?_, .inl ?_⟩,
      fun q _ _ => by omega⟩
    · rw [heq, hend, List.getElem?_append_right (Nat.le_refl _), Nat.sub_self,
        List.getElem?_cons_zero]
    · cases hkind : last.kind <;> rw [hkind] at hlast <;> first | rfl | cases hlast
  | cons t rest ih =>
    have ht : (beforeEnd tokens)[i + 1]? = some t := by
      have hhead := congrArg List.head? hts
      rwa [List.head?_drop] at hhead
    obtain ⟨hlt', -⟩ := List.getElem?_eq_some_iff.mp ht
    have ht' : (withEnd tokens)[i + 1]? = some t := by rw [heq, List.getElem?_append_left hlt', ht]
    rw [skipAfter]
    split
    · next hstop =>
      refine ⟨i + 1, Nat.lt_succ_self i, Nat.le_of_lt hlt', hts.symm, ⟨t, ht', ?_⟩,
        fun q _ _ => by omega⟩
      rcases Bool.or_eq_true_iff.mp hstop with hsemicolon | hstarts
      · exact .inr (.inl ⟨dropped, hdropped, Grammar.isSymbol_iff.mp hsemicolon⟩)
      · exact .inr (.inr (startsStatement_iff.mp hstarts))
    · next hgo =>
      have hnext : (beforeEnd tokens).drop (i + 1 + 1) = rest := by
        rw [← List.drop_drop, hts, List.drop_one, List.tail_cons]
      obtain ⟨p, hp, hle, hskip, hrestarts, hbetween⟩ := ih ht hnext hlt' ht'
      refine ⟨p, by omega, hle, hskip, hrestarts, fun q hq hqp hrestart => ?_⟩
      rcases Nat.lt_or_ge (i + 1) q with hq' | hq'
      · exact hbetween q hq' hqp hrestart
      · obtain rfl : q = i + 1 := by omega
        obtain ⟨t', heq', hcase⟩ := hrestart
        rw [ht'] at heq'
        cases heq'
        rw [Bool.or_eq_true_iff, not_or] at hgo
        rcases hcase with heof | ⟨s, hs, hsemicolon⟩ | hstarts
        · have hnot := isEof_of_mem_beforeEnd (List.mem_of_getElem? ht)
          rw [heof] at hnot
          cases hnot
        · rw [Nat.add_sub_cancel, hdropped] at hs
          cases hs
          exact hgo.1 (Grammar.isSymbol_iff.mpr hsemicolon)
        · exact hgo.2 (startsStatement_iff.mpr hstarts)

/-- **After an error reading starts again at the first place behind it that is fit for it.** -/
theorem standsAt_synchronize (h : c.StandsAt tokens i) (hi : i < firstEnd tokens) :
    ∃ p, i < p ∧ c.synchronize.StandsAt tokens p ∧ RestartsAt tokens p ∧
      ∀ q, i < q → q < p → ¬RestartsAt tokens q := by
  obtain ⟨-, hc⟩ := standsAt_iff.mp h
  have hlt : i < (beforeEnd tokens).length := firstEnd_eq tokens ▸ hi
  rw [List.drop_eq_getElem_cons hlt] at hc
  obtain ⟨p, hp, hle, hskip, hrestarts, hbetween⟩ :=
    skipAfter_restarts (List.getElem?_eq_getElem hlt) rfl
  refine ⟨p, hp, standsAt_iff.mpr ⟨hle, ?_⟩, hrestarts, hbetween⟩
  show skip c.rest = _
  rw [hc]
  exact hskip

end Cursor

/-! ## Reading programs and expressions -/

theorem Expr.built_readWhole : Reader.Built Expr.readWhole := by
  refine Expr.built_read.bind fun e => Reader.Built.atEnd.bind fun b => ?_
  cases b with
  | true => exact .pure _
  | false => exact .failHere _

/-- **Reading always goes forward, stays within the tokens, and ends.**
* The recursion of the rules ends, for expressions and for programs: whatever is put in the place of
  the rules below some depth of calls, reading does not come to it.
* Programs and expressions are read by readers put together from the basic ones, and all parts of
  these are such readers again. Each of them, from any index, leaves an index that is no smaller,
  that of a token, and no further on than the first end-of-source token.
* Every declaration before the end leaves a greater index, whether it can be read or not.
* After an error reading goes on at the first greater index at which there is the end, or a token
  after a semicolon, or a word that begins a statement. -/
theorem Parse.reading_goes_forward (tokens : List Token) (nextId : NodeId) :
    (∀ c : Cursor, ∃ depth, ∀ rules : Expr.Rules, (rules.unroll depth).assignment c = Expr.read c) ∧
    (∀ c : Cursor, ∃ depth, ∀ rules : Stmt.Rules,
      (rules.unroll depth).program c = Stmt.readProgram c) ∧
    (Reader.Built Stmt.readProgram ∧ Reader.Built Expr.readWhole) ∧
    (Cursor.ofTokens tokens nextId).StandsAt tokens 0 ∧
    (∀ (α : Type) (r : Reader α), Reader.Built r → ∀ (i : Nat) (c : Cursor), c.StandsAt tokens i →
      ∃ j, i ≤ j ∧ (r c).cursor.StandsAt tokens j) ∧
    (∀ (depth i : Nat) (c : Cursor), c.StandsAt tokens i → i < firstEnd tokens →
      ∃ j, i < j ∧ (Stmt.readDeclaration depth c).cursor.StandsAt tokens j) ∧
    ∀ (i : Nat) (c : Cursor), c.StandsAt tokens i → i < firstEnd tokens →
      ∃ p, i < p ∧ c.synchronize.StandsAt tokens p ∧ RestartsAt tokens p ∧
        ∀ q, i < q → q < p → ¬RestartsAt tokens q := by
  exact ⟨fun c => ⟨_, fun rules => Expr.unroll_assignment rules c⟩,
    fun c => ⟨_, fun rules => Stmt.unroll_program rules c⟩,
    ⟨Stmt.built_readProgram, Expr.built_readWhole⟩, Cursor.standsAt_ofTokens tokens nextId,
    fun α r hr i c hc => hr.standsAt hc, fun depth i c hc hi => Stmt.standsAt_readDeclaration depth
    hc hi, fun i c hc hi => Cursor.standsAt_synchronize hc hi⟩

end Lox
