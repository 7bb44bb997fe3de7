import Lox.Proofs.Syntax.Soundness

/-!
# What is derived is read without an error

The converse of soundness: where tokens derived from a rule stand in front, the reader of that rule
takes them, reports nothing, and gives the tree of the derivation. Here this is done for
expressions.

Two things have to be known beside the tokens. What follows them must not go on with them:
`Kind.tightness` says how tightly a token binds to an expression before it, and each rule leaves
tokens alone that bind more loosely than its own operators. And the bound on the depth of calls must
be large enough: every token pays for sixteen calls.

The rules for operators and for calls are left-recursive, while their readers go from left to right
with what has been read so far. `ReadsThen` speaks of a reader that has read some tokens and goes on
as another one, so that it can follow the derivation from the inside.
-/

namespace Lox

variable {p q : Kind → Bool} {ts : List Token} {k : Kind} {t : Token} {l : Level}

/-! ## Tokens in front -/

/-- The first token, if there is one, is of a kind. -/
def Front (p : Kind → Bool) : List Token → Prop
  | [] => True
  | t :: _ => p t.kind = true

/-- There is a first token, and it is of a kind. -/
def Starts (p : Kind → Bool) : List Token → Prop
  | [] => False
  | t :: _ => p t.kind = true

theorem Front.mono (hpq : ∀ k, p k = true → q k = true) (h : Front p ts) : Front q ts := by
  cases ts with
  | nil => trivial
  | cons t rest => exact hpq t.kind h

theorem Starts.front (hpq : ∀ k, p k = true → q k = true) (h : Starts p ts) : Front q ts := by
  cases ts with
  | nil => trivial
  | cons t rest => exact hpq t.kind h

theorem Starts.front_symbol {s : Symbol} (h : Starts (Kind.isSymbol s) ts)
    (hq : q (.symbol s) = true) :
    Front q ts := by
  cases ts with
  | nil => trivial
  | cons t rest =>
    have hs : t.kind = .symbol s := Grammar.isSymbol_iff.mp h
    exact (congrArg q hs).trans hq

theorem Front.of_kind (h : t.kind = k) (hq : q k = true) (ts : List Token) : Front q (t :: ts) :=
  (congrArg q h).trans hq

theorem Starts.append (h : Starts p ts) (us : List Token) : Starts p (ts ++ us) := by
  cases ts with
  | nil => exact h.elim
  | cons t rest => exact h

theorem Starts.mono (hpq : ∀ k, p k = true → q k = true) (h : Starts p ts) : Starts q ts := by
  cases ts with
  | nil => exact h.elim
  | cons t rest => exact hpq t.kind h

theorem Starts.ne_nil (h : Starts p ts) : ts ≠ [] := by
  rintro rfl
  exact h

theorem Starts.length_pos (h : Starts p ts) : 0 < ts.length :=
  List.length_pos_iff.mpr h.ne_nil

/-! ## Readers that take given tokens -/

namespace Reader

variable {α β γ : Type} {r : Reader α} {k : β → Reader α} {ts us : List Token}
  {F G : List Token → Prop} {P Q : β → Prop}

/-- If `ts` stands in front of tokens that satisfy `F`, then `r` takes `ts`, reports nothing, and
goes on as the reader that `k` gives for some value with `Q`. -/
def ReadsThen (r : Reader α) (ts : List Token) (F : List Token → Prop) (k : β → Reader α)
    (Q : β → Prop) : Prop :=
  ∀ (c : Cursor) (rest : List Token), c.rest = ts ++ rest → F rest →
    ∃ b n, Q b ∧ r c = k b { c with rest := rest, nextId := n }

/-- If `ts` stands in front of tokens that satisfy `F`, then `r` takes `ts`, reports nothing, and
gives a value with `Q`. -/
def Reads (r : Reader α) (ts : List Token) (F : List Token → Prop) (Q : α → Prop) : Prop :=
  ReadsThen r ts F Pure.pure Q

namespace ReadsThen

/-- Nothing is read before going on. -/
theorem refl {b : β} (h : Q b) : ReadsThen (k b) [] F k Q := by
  intro c rest hc _
  refine ⟨b, c.nextId, h, ?_⟩
  rw [← show c.rest = rest from hc]

theorem pure {a : α} {Q : α → Prop} (h : Q a) : ReadsThen (Pure.pure a) [] F Pure.pure Q :=
  refl h

theorem mono (h : ReadsThen r ts F k P) (hF : ∀ rest, G rest → F rest) (hQ : ∀ b, P b → Q b) :
    ReadsThen r ts G k Q := by
  intro c rest hc hrest
  obtain ⟨b, n, hb, hr⟩ := h c rest hc (hF rest hrest)
  exact ⟨b, n, hQ b hb, hr⟩

/-- First one part is read, then the next. -/
theorem trans {j : γ → Reader α} {R : γ → Prop} (h : ReadsThen r ts F k P)
    (hF : ∀ rest, G rest → F (us ++ rest)) (hk : ∀ b, P b → ReadsThen (k b) us G j R) :
    ReadsThen r (ts ++ us) G j R := by
  intro c rest hc hrest
  obtain ⟨b, n, hb, hr⟩ := h c (us ++ rest) (by rw [hc, List.append_assoc]) (hF rest hrest)
  obtain ⟨d, n', hd, hk⟩ := hk b hb { c with rest := us ++ rest, nextId := n } rest rfl hrest
  exact ⟨d, n', hd, hr.trans hk⟩

/-- Reads twice, where what the first reader leaves behind begins with what the second one takes. -/
theorem bindBefore {s : Reader γ} {f : γ → Reader α} {R : γ → Prop} (h : Reads s ts F R)
    (hF : ∀ rest, G rest → F (us ++ rest)) (hf : ∀ a, R a → ReadsThen (f a) us G k Q) :
    ReadsThen (s >>= f) (ts ++ us) G k Q := by
  intro c rest hc hrest
  obtain ⟨a, n, ha, hr⟩ := h c (us ++ rest) (by rw [hc, List.append_assoc]) (hF rest hrest)
  obtain ⟨b, n', hb, hk⟩ := hf a ha { c with rest := us ++ rest, nextId := n } rest rfl hrest
  refine ⟨b, n', hb, ?_⟩
  change Reader.bind s f c = _
  unfold Reader.bind
  rw [hr]
  exact hk

/-- Looks at what stands in front before reading it. -/
theorem look {s : Reader γ} {f : γ → Reader α} {R : γ → Prop} (h : Reads s [] F R)
    (hF : ∀ rest, G rest → F (ts ++ rest)) (hf : ∀ a, R a → ReadsThen (f a) ts G k Q) :
    ReadsThen (s >>= f) ts G k Q :=
  bindBefore h hF hf

/-- Reads twice, where the first reader does not look at what follows. -/
theorem bind {s : Reader γ} {f : γ → Reader α} {R : γ → Prop} (h : Reads s ts (fun _ => True) R)
    (hf : ∀ a, R a → ReadsThen (f a) us G k Q) : ReadsThen (s >>= f) (ts ++ us) G k Q :=
  bindBefore h (fun _ _ => trivial) hf

/-- Looks at what stands in front, where it is known what comes of it. -/
theorem sees {s : Reader γ} {f : γ → Reader α} {a : γ} (h : Reads s [] F (· = a))
    (hF : ∀ rest, G rest → F (ts ++ rest)) (hf : ReadsThen (f a) ts G k Q) :
    ReadsThen (s >>= f) ts G k Q :=
  look h hF fun _ ha => ha ▸ hf

/-- Takes tokens, where it is known what comes of them. -/
theorem takes {s : Reader γ} {f : γ → Reader α} {a : γ} (h : Reads s ts (fun _ => True) (· = a))
    (hf : ReadsThen (f a) us G k Q) : ReadsThen (s >>= f) (ts ++ us) G k Q :=
  bind h fun _ ha => ha ▸ hf

/-- Takes tokens and ends with something made of what comes of them. -/
theorem gives {s : Reader γ} {g : γ → α} {R : γ → Prop} {Q : α → Prop} (h : Reads s ts F R)
    (hF : ∀ rest, G rest → F rest) (hg : ∀ a, R a → Q (g a)) :
    Reads (s >>= fun a => Pure.pure (g a)) ts G Q := by
  rw [← List.append_nil ts]
  exact bindBefore h hF fun a ha => .pure (hg a ha)

end ReadsThen

namespace Reads

variable {fault : ParseFault}

theorem fresh : Reads Reader.fresh [] F fun _ => True := by
  intro c rest hc _
  obtain rfl : c.rest = rest := hc
  exact ⟨c.nextId, c.nextId + 1, trivial, rfl⟩

/-- A token that is looked for is taken. -/
theorem accept (h : p t.kind = true) : Reads (Reader.accept p) [t] F (· = some t) := by
  intro c rest hc _
  refine ⟨some t, c.nextId, rfl, ?_⟩
  simp only [Reader.accept, hc, List.singleton_append, h, if_true]
  rfl

/-- A token that is not looked for is left. -/
theorem acceptNone : Reads (Reader.accept p) [] (Front fun k => !p k) (· = none) := by
  rintro ⟨rest, endLine, nextId, errors, hadError⟩ _ rfl hrest
  refine ⟨none, nextId, rfl, ?_⟩
  cases rest with
  | nil => rfl
  | cons t rest =>
    have ht : p t.kind = false := by simpa [Front] using hrest
    simp only [Reader.accept, ht, Bool.false_eq_true, if_false]
    rfl

/-- A token that has to be there is taken. -/
theorem expect (h : p t.kind = true) : Reads (Reader.expect p fault) [t] F (· = t) := by
  intro c rest hc _
  refine ⟨t, c.nextId, rfl, ?_⟩
  simp only [Reader.expect, hc, List.singleton_append, h, if_true]
  rfl

theorem symbol {s : Symbol} (h : Grammar.IsSymbol s t) :
    Reads (Reader.expect (Kind.isSymbol s) fault) [t] F (· = t) :=
  expect (Grammar.isSymbol_iff.mpr h)

theorem name (h : Grammar.IsName t) : Reads (Reader.expect Kind.isIdentifier fault) [t] F (· = t) :=
  expect (Grammar.isName_iff.mpr h)

theorem check : Reads (Reader.check p) [] (Starts p) (· = true) := by
  rintro ⟨rest, endLine, nextId, errors, hadError⟩ _ rfl hrest
  refine ⟨true, nextId, rfl, ?_⟩
  cases rest with
  | nil => exact hrest.elim
  | cons t rest =>
    have ht : p t.kind = true := hrest
    simp only [Reader.check, ht]
    rfl

/-- Looking for a token that is not there takes nothing. -/
theorem checkFalse : Reads (Reader.check p) [] (Front fun k => !p k) (· = false) := by
  rintro ⟨rest, endLine, nextId, errors, hadError⟩ _ rfl hrest
  refine ⟨false, nextId, rfl, ?_⟩
  cases rest with
  | nil => rfl
  | cons t rest =>
    have ht : p t.kind = false := by simpa [Front] using hrest
    simp only [Reader.check, ht]
    rfl

theorem atEnd : Reads Reader.atEnd [] (· = []) (· = true) := by
  rintro ⟨rest, endLine, nextId, errors, hadError⟩ _ rfl hrest
  obtain rfl : rest = [] := hrest
  exact ⟨true, nextId, rfl, rfl⟩

theorem atEndFalse : Reads Reader.atEnd [] (· ≠ []) (· = false) := by
  rintro ⟨rest, endLine, nextId, errors, hadError⟩ _ rfl hrest
  refine ⟨false, nextId, rfl, ?_⟩
  cases rest with
  | nil => exact absurd rfl hrest
  | cons t rest => rfl

/-- What can be read needs no recovery. -/
theorem recovering {Q : α → Prop} (h : Reads r ts F Q) :
    Reads (Reader.recovering r) ts F fun a? => ∃ a, a? = some a ∧ Q a := by
  intro c rest hc hrest
  obtain ⟨a, n, ha, hr⟩ := h c rest hc hrest
  refine ⟨some a, n, ⟨a, rfl, ha⟩, ?_⟩
  unfold Reader.recovering
  rw [hr]
  rfl

end Reads

end Reader

/-! ## How tightly tokens bind -/

/-- How tightly a token binds to an expression before it; zero if it cannot go on with one. -/
def Kind.tightness : Kind → Nat
  | .symbol .equal => 1
  | .keyword .orWord => 2
  | .keyword .andWord => 3
  | .symbol .bangEqual | .symbol .equalEqual => 4
  | .symbol .greater | .symbol .greaterEqual | .symbol .less | .symbol .lessEqual => 5
  | .symbol .minus | .symbol .plus => 6
  | .symbol .slash | .symbol .star => 7
  | .symbol .leftParen | .symbol .dot => 8
  | _ => 0

/-- How tightly the operators of a level bind. -/
def Level.tightness : Level → Nat
  | .disjunction => 2
  | .conjunction => 3
  | .equality => 4
  | .comparison => 5
  | .term => 6
  | .factor => 7

/-- Operators bind as tightly as their level. -/
theorem Level.tightness_of_operators (h : l.operators k = true) : k.tightness = l.tightness := by
  unfold Level.operators at h
  split at h <;> first | rfl | cases h

/-- A looser operator is of no tighter level. -/
theorem Level.operators_of_lt (h : k.tightness < l.tightness) : l.operators k = false := by
  cases ho : l.operators k with
  | false => rfl
  | true => rw [tightness_of_operators ho] at h; omega

theorem Level.tightness_tighter {next : Level} (h : l.tighter? = some next) :
    next.tightness = l.tightness + 1 := by
  cases l <;> cases h <;> rfl

theorem Level.tightness_lt (l : Level) : 1 < l.tightness ∧ l.tightness < 8 := by
  cases l <;> decide

/-- The next token, if there is one, binds more loosely than `n`. -/
def Loose (n : Nat) : List Token → Prop :=
  Front fun k => decide (k.tightness < n)

theorem Loose.mono {m n : Nat} (h : Loose m ts) (hmn : m ≤ n) : Loose n ts :=
  Front.mono (fun _ hk => decide_eq_true (Nat.lt_of_lt_of_le (of_decide_eq_true hk) hmn)) h

namespace Expr

open Reader Grammar

variable {dot equals : Token} {value : Expr}

/-- Whether a kind begins an expression. -/
def startsExpression (k : Kind) : Bool :=
  isUnary k || startsPrimary k

theorem startsPrimary_startsExpression (k : Kind) (h : startsPrimary k = true) :
    startsExpression k = true := by
  rw [startsExpression, h, Bool.or_true]

theorem isUnary_of_startsPrimary (k : Kind) (h : startsPrimary k = true) : (!isUnary k) = true := by
  unfold startsPrimary at h
  split at h <;> first | rfl | cases h

/-- What a kind that begins an expression is not. -/
structure NotElsewhere (k : Kind) : Prop where
  semicolon : (!k.isSymbol .semicolon) = true
  rightParen : (!k.isSymbol .rightParen) = true
  rightBrace : (!k.isSymbol .rightBrace) = true
  statement : (!Stmt.startsStatement k) = true
  word : ∀ w ∈ [Keyword.classWord, .funWord, .varWord, .elseWord], (!k.isKeyword w) = true

/-- What starts an expression is not looked for elsewhere. -/
theorem not_of_startsExpression (h : startsExpression k = true) : NotElsewhere k := by
  cases k with
  | symbol s => cases s <;> first | exact ⟨rfl, rfl, rfl, rfl, by decide⟩ | cases h
  | keyword w => cases w <;> first | exact ⟨rfl, rfl, rfl, rfl, by decide⟩ | cases h
  | _ => exact ⟨rfl, rfl, rfl, rfl, fun _ _ => rfl⟩

theorem NotElsewhere.absent (h : NotElsewhere k) (s : Symbol)
    (hs : s = .semicolon ∨ s = .rightParen) : (!k.isSymbol s) = true := by
  rcases hs with rfl | rfl
  · exact h.semicolon
  · exact h.rightParen

/-! ## Expressions -/

/-- Tokens that the reader of assignments takes. -/
structure AssignmentRead (ts : List Token) (e : Expr) : Prop where
  starts : Starts startsExpression ts
  reads : ∀ depth, 16 * ts.length ≤ depth →
    Reads (readAssignment depth) ts (Loose 1) (withoutIds · = e)

/-- Tokens that the reader of a level takes, before it looks for more operators of the level. -/
structure OperationRead (l : Level) (ts : List Token) (e : Expr) : Prop where
  starts : Starts startsExpression ts
  readsThen : ∀ depth, 16 * ts.length + (19 - 2 * l.tightness) ≤ depth + 16 →
    ReadsThen (readBinary depth l) ts (Loose (l.tightness + 1))
    (fun b : Nat × Expr => readBinaryRest b.1 l b.2)
      fun b => depth ≤ b.1 + ts.length ∧ b.2.withoutIds = e

/-- Tokens that the reader of the operands of a level takes. -/
structure OperandRead (l : Level) (ts : List Token) (e : Expr) : Prop where
  starts : Starts startsExpression ts
  reads : ∀ depth, 16 * ts.length + (18 - 2 * l.tightness) ≤ depth + 16 →
    Reads (readOperand depth l) ts (Loose (l.tightness + 1)) (withoutIds · = e)

/-- Tokens that the reader of unary operators takes. -/
structure UnaryRead (ts : List Token) (e : Expr) : Prop where
  starts : Starts startsExpression ts
  reads : ∀ depth, 16 * ts.length + 3 ≤ depth + 16 →
    Reads (readUnary depth) ts (Loose 8) (withoutIds · = e)

/-- Tokens that the reader of calls takes, before it looks for more calls and properties. -/
structure CallRead (ts : List Token) (e : Expr) : Prop where
  starts : Starts startsPrimary ts
  readsThen : ∀ depth, 16 * ts.length + 2 ≤ depth + 16 →
    ReadsThen (readCall depth) ts (fun _ => True) (fun b : Nat × Expr => readCallRest b.1 b.2)
      fun b => depth ≤ b.1 + ts.length ∧ b.2.withoutIds = e

/-- Tokens that the reader of arguments takes before a closing parenthesis. -/
def ArgumentsRead (ts : List Token) (es : List Expr) : Prop :=
  ∀ depth, 16 * ts.length + 2 ≤ depth → es.length ≤ 255 →
    Reads (readArguments depth) ts (Starts (Kind.isSymbol .rightParen)) (withoutIdsAll · = es)

/-- Tokens that the reader of one or more arguments takes before a closing parenthesis. -/
structure ArgumentListRead (ts : List Token) (es : List Expr) : Prop where
  starts : Starts startsExpression ts
  reads : ∀ depth count, 16 * ts.length + 1 ≤ depth → count + es.length ≤ 255 →
    Reads (readArgumentList depth count) ts (Starts (Kind.isSymbol .rightParen))
    (withoutIdsAll · = es)

/-- Tokens that the reader of primary expressions takes. -/
structure PrimaryRead (ts : List Token) (e : Expr) : Prop where
  starts : Starts startsPrimary ts
  reads : ∀ depth, 16 * ts.length + 1 ≤ depth + 16 →
    Reads (readPrimary depth) ts (fun _ => True) (withoutIds · = e)

variable {ts us : List Token} {e : Expr} {l : Level}

theorem OperationRead.reads (h : OperationRead l ts e) {depth : Nat}
    (hd : 16 * ts.length + (19 - 2 * l.tightness) ≤ depth + 16) :
    Reads (readBinary depth l) ts (Loose l.tightness) (withoutIds · = e) := by
  rw [← List.append_nil ts]
  refine (h.readsThen depth hd).trans (fun rest hrest => hrest.mono (Nat.le_succ _)) ?_
  rintro ⟨d, left⟩ ⟨hdepth, hleft⟩
  have hpos := h.starts.length_pos
  have hl := l.tightness_lt
  obtain ⟨d, rfl⟩ : ∃ d', d = d' + 1 := ⟨d - 1, by omega⟩
  rw [readBinaryRest]
  refine ReadsThen.look .acceptNone (fun rest hrest => Front.mono (fun k hk => ?_) hrest) ?_
  · simpa using Level.operators_of_lt (of_decide_eq_true hk)
  · rintro _ rfl
    exact .pure hleft

/-- An operand alone is an operation. -/
theorem OperationRead.operand (h : OperandRead l ts e) : OperationRead l ts e := by
  refine ⟨h.starts, fun depth hd => ?_⟩
  have hpos := h.starts.length_pos
  have hl := l.tightness_lt
  rcases depth with _ | depth
  · omega
  rw [readBinary, ← List.append_nil ts]
  refine ReadsThen.bindBefore (h.reads depth (by omega)) (fun rest hrest => hrest) ?_
  intro left hleft
  exact ReadsThen.refl (k := fun b : Nat × Expr => readBinaryRest b.1 l b.2) (b := (depth, left))
    ⟨by simp only [List.append_nil]; omega, hleft⟩

/-- An operation goes on with an operator and an operand. -/
theorem OperationRead.node {left right : Expr} {operator : Token} (hl : OperationRead l ts left)
    (ho : l.operators operator.kind = true) (hr : OperandRead l us right) :
    OperationRead l (ts ++ operator :: us) (l.node left operator right) := by
  refine ⟨hl.starts.append _, fun depth hd => ?_⟩
  have htight := l.tightness_lt
  rw [List.length_append, List.length_cons] at hd
  refine (hl.readsThen depth (by omega)).trans (fun rest _ => ?_) ?_
  · exact decide_eq_true (by rw [Level.tightness_of_operators ho]; exact Nat.lt_succ_self _)
  rintro ⟨d, left'⟩ ⟨hdepth, hleft⟩
  obtain ⟨d, rfl⟩ : ∃ d', d = d' + 1 := ⟨d - 1, by simp only at hdepth; omega⟩
  simp only at hdepth hleft
  rw [readBinaryRest]
  refine ReadsThen.takes (.accept ho) ?_
  rw [← List.append_nil us]
  refine ReadsThen.bindBefore (hr.reads d (by omega)) (fun rest hrest => hrest) fun right' hright =>
    ?_
  refine ReadsThen.refl (k := fun b : Nat × Expr => readBinaryRest b.1 l b.2)
    (b := (d, l.node left' operator right')) ⟨?_, ?_⟩
  · simp only [List.length_append, List.length_cons, List.length_nil]; omega
  · simp only [withoutIds_node, hleft, hright]

/-- An operand of a level is an operation of the next. -/
theorem OperandRead.operation {next : Level} (hl : l.tighter? = some next)
    (h : OperationRead next ts e) :
    OperandRead l ts e := by
  refine ⟨h.starts, fun depth hd => ?_⟩
  have hpos := h.starts.length_pos
  have htight := l.tightness_lt
  have hnext := Level.tightness_tighter hl
  rcases depth with _ | depth
  · omega
  rw [readOperand, hl, ← hnext]
  exact h.reads (by omega)

theorem OperandRead.unary (h : UnaryRead ts e) : OperandRead .factor ts e := by
  refine ⟨h.starts, fun depth hd => ?_⟩
  have hpos := h.starts.length_pos
  rw [Level.tightness] at hd ⊢
  rcases depth with _ | depth
  · omega
  rw [readOperand]
  exact h.reads depth (by omega)

/-- An operator before an operand. -/
theorem UnaryRead.operator {operator : Token} (ho : isUnary operator.kind = true)
    (h : UnaryRead ts e) : UnaryRead (operator :: ts) (.unary operator e) := by
  refine ⟨show startsExpression operator.kind = true by rw [startsExpression, ho, Bool.true_or], ?_⟩
  intro depth hd
  rw [List.length_cons] at hd
  have hpos := h.starts.length_pos
  rcases depth with _ | depth
  · omega
  rw [readUnary]
  refine ReadsThen.takes (.accept ho) ?_
  exact ReadsThen.gives (h.reads depth (by omega)) (fun rest hrest => hrest)
    fun right hright => by rw [withoutIds, hright]

theorem CallRead.reads (h : CallRead ts e) {depth : Nat} (hd : 16 * ts.length + 2 ≤ depth + 16) :
    Reads (readCall depth) ts (Loose 8) (withoutIds · = e) := by
  rw [← List.append_nil ts]
  refine (h.readsThen depth hd).trans (fun _ _ => trivial) ?_
  rintro ⟨d, callee⟩ ⟨hdepth, hcallee⟩
  have hpos := h.starts.length_pos
  obtain ⟨d, rfl⟩ : ∃ d', d = d' + 1 := ⟨d - 1, by omega⟩
  rw [readCallRest]
  refine ReadsThen.look .acceptNone (fun rest hrest => Front.mono (fun k hk => ?_) hrest) ?_
  · cases k with
    | symbol s => cases s <;> first | rfl | cases hk
    | _ => rfl
  rintro _ rfl
  refine ReadsThen.look .acceptNone (fun rest hrest => Front.mono (fun k hk => ?_) hrest) ?_
  · cases k with
    | symbol s => cases s <;> first | rfl | cases hk
    | _ => rfl
  rintro _ rfl
  exact .pure hcallee

theorem UnaryRead.call (h : CallRead ts e) : UnaryRead ts e := by
  refine ⟨h.starts.mono startsPrimary_startsExpression, fun depth hd => ?_⟩
  have hpos := h.starts.length_pos
  rcases depth with _ | depth
  · omega
  rw [readUnary]
  refine ReadsThen.sees .acceptNone
    (fun rest _ => (h.starts.append rest).front isUnary_of_startsPrimary) ?_
  exact h.reads (by omega)

theorem CallRead.primary (h : PrimaryRead ts e) : CallRead ts e := by
  refine ⟨h.starts, fun depth hd => ?_⟩
  have hpos := h.starts.length_pos
  rcases depth with _ | depth
  · omega
  rw [readCall, ← List.append_nil ts]
  refine ReadsThen.bind (h.reads depth (by omega)) fun callee hcallee => ?_
  exact ReadsThen.refl (k := fun b : Nat × Expr => readCallRest b.1 b.2) (b := (depth, callee))
    ⟨by simp only [List.append_nil]; omega, hcallee⟩

/-- A call with its arguments. -/
theorem CallRead.call {left right : Token} {callee : Expr} {arguments : List Expr}
    (hc : CallRead ts callee) (hl : IsSymbol .leftParen left) (ha : ArgumentsRead us arguments)
    (hm : arguments.length ≤ 255) (hr : IsSymbol .rightParen right) :
    CallRead (ts ++ left :: (us ++ [right])) (.call callee right arguments) := by
  refine ⟨hc.starts.append _, fun depth hd => ?_⟩
  simp only [List.length_append, List.length_cons, List.length_nil] at hd
  refine (hc.readsThen depth (by omega)).trans (fun _ _ => trivial) ?_
  rintro ⟨d, callee'⟩ ⟨hdepth, hcallee⟩
  obtain ⟨d, rfl⟩ : ∃ d', d = d' + 1 := ⟨d - 1, by simp only at hdepth; omega⟩
  simp only at hdepth hcallee
  rw [readCallRest]
  refine ReadsThen.takes (.accept (isSymbol_iff.mpr hl)) ?_
  refine ReadsThen.bindBefore (ha d (by omega) hm) (fun rest _ => isSymbol_iff.mpr hr)
    fun args hargs => ?_
  refine ReadsThen.takes (.symbol hr) ?_
  refine ReadsThen.refl (k := fun b : Nat × Expr => readCallRest b.1 b.2)
    (b := (d, .call callee' right args)) ⟨?_, ?_⟩
  · simp only [List.length_append, List.length_cons, List.length_nil]; omega
  · simp only [withoutIds, hcallee, hargs]

/-- A property of what was read so far. -/
theorem CallRead.property {name : Token} {object : Expr} (ho : CallRead ts object)
    (hd : IsSymbol .dot dot) (hn : IsName name) :
    CallRead (ts ++ [dot, name]) (.get object name) := by
  refine ⟨ho.starts.append _, fun depth hdepth => ?_⟩
  simp only [List.length_append, List.length_cons, List.length_nil] at hdepth
  refine (ho.readsThen depth (by omega)).trans (fun _ _ => trivial) ?_
  rintro ⟨d, object'⟩ ⟨hle, hobject⟩
  obtain ⟨d, rfl⟩ : ∃ d', d = d' + 1 := ⟨d - 1, by simp only at hle; omega⟩
  simp only at hle hobject
  rw [readCallRest]
  refine ReadsThen.sees .acceptNone (fun rest _ => Front.of_kind hd rfl _) ?_
  refine ReadsThen.takes (.accept (isSymbol_iff.mpr hd)) ?_
  refine ReadsThen.takes (.name hn) ?_
  refine ReadsThen.refl (k := fun b : Nat × Expr => readCallRest b.1 b.2)
    (b := (d, .get object' name)) ⟨?_, ?_⟩
  · simp only [List.length_append, List.length_cons, List.length_nil]; omega
  · simp only [withoutIds, hobject]

theorem ArgumentsRead.none : ArgumentsRead [] [] := by
  intro depth hd _
  rcases depth with _ | depth
  · omega
  rw [readArguments]
  refine ReadsThen.sees .check (fun rest hrest => hrest) ?_
  exact .pure rfl

theorem ArgumentsRead.some {es : List Expr} (h : ArgumentListRead ts es) : ArgumentsRead ts es := by
  intro depth hd hm
  rcases depth with _ | depth
  · omega
  rw [readArguments]
  refine ReadsThen.sees .checkFalse
    (fun rest _ => (h.starts.append rest).front fun _ hk => (not_of_startsExpression hk).rightParen)
    ?_
  exact h.reads depth 0 (by omega) (by omega)

theorem ArgumentListRead.one (h : AssignmentRead ts e) : ArgumentListRead ts [e] := by
  refine ⟨h.starts, fun depth count hd hm => ?_⟩
  rw [List.length_singleton] at hm
  rcases depth with _ | depth
  · omega
  rw [readArgumentList, if_neg (show ¬ maxArity ≤ count by unfold maxArity; omega),
    ← List.append_nil ts]
  refine ReadsThen.bindBefore (h.reads depth (by omega)) (fun rest hrest => hrest.front_symbol rfl)
    fun e' he' => ?_
  refine ReadsThen.sees .acceptNone (fun rest hrest => hrest.front_symbol rfl) ?_
  exact .pure (by rw [withoutIdsAll, withoutIdsAll, he'])

/-- An argument before others. -/
theorem ArgumentListRead.more {es : List Expr} {comma : Token} (h : AssignmentRead ts e)
    (hc : IsSymbol .comma comma) (hs : ArgumentListRead us es) :
    ArgumentListRead (ts ++ comma :: us) (e :: es) := by
  refine ⟨h.starts.append _, fun depth count hd hm => ?_⟩
  rw [List.length_append, List.length_cons] at hd
  rw [List.length_cons] at hm
  rcases depth with _ | depth
  · omega
  rw [readArgumentList, if_neg (show ¬ maxArity ≤ count by unfold maxArity; omega)]
  refine ReadsThen.bindBefore (h.reads depth (by omega)) (fun rest _ => Front.of_kind hc rfl _)
    fun e' he' => ?_
  refine ReadsThen.takes (.accept (isSymbol_iff.mpr hc)) ?_
  exact ReadsThen.gives (hs.reads depth (count + 1) (by omega) (by omega)) (fun rest hrest => hrest)
    fun es' hes' => by rw [withoutIdsAll, he', hes']

/-- The tree of a token that is an expression of its own. -/
def atom? (t : Token) : Option Expr :=
  match t.kind with
  | .keyword .falseWord => some (.literal .false)
  | .keyword .trueWord => some (.literal .true)
  | .keyword .nilWord => some (.literal .nil)
  | .number x => some (.literal (.number x))
  | .string s => some (.literal (.string s))
  | .keyword .thisWord => some (.thisRef 0 t)
  | .identifier => some (.variable 0 t)
  | _ => none

theorem startsPrimary_of_atom? (h : atom? t = some e) : startsPrimary t.kind = true := by
  unfold atom? at h
  split at h <;> cases h <;> next hk => rw [hk]; rfl

/-- A token that is an expression by itself. -/
theorem PrimaryRead.atom (h : atom? t = some e) : PrimaryRead [t] e := by
  refine ⟨startsPrimary_of_atom? h, fun depth hd => ?_⟩
  rw [List.length_singleton] at hd
  rcases depth with _ | depth
  · omega
  rw [readPrimary]
  refine ReadsThen.takes (.accept (startsPrimary_of_atom? h)) ?_
  unfold atom? at h
  split at h <;> cases h <;> next hk => simp only [hk]; first
    | exact .pure rfl
    | exact ReadsThen.bind .fresh fun _ _ => .pure rfl

/-- A method of `super`. -/
theorem PrimaryRead.superMethod {word method : Token} (hw : IsWord .superWord word)
    (hd : IsSymbol .dot dot) (hm : IsName method) :
    PrimaryRead [word, dot, method] (.superRef 0 word method) := by
  refine ⟨show startsPrimary word.kind = true by rw [hw]; rfl, fun depth hdepth => ?_⟩
  simp only [List.length_cons, List.length_nil] at hdepth
  rcases depth with _ | depth
  · omega
  rw [readPrimary]
  refine ReadsThen.takes (.accept (by rw [hw]; rfl)) ?_
  simp only [hw]
  refine ReadsThen.takes (.symbol hd) ?_
  refine ReadsThen.takes (.name hm) ?_
  exact ReadsThen.bind .fresh fun _ _ => .pure rfl

/-- An expression in brackets. -/
theorem PrimaryRead.group {left right : Token} (hl : IsSymbol .leftParen left)
    (h : AssignmentRead ts e) (hr : IsSymbol .rightParen right) :
    PrimaryRead (left :: (ts ++ [right])) (.grouping e) := by
  refine ⟨show startsPrimary left.kind = true by rw [hl]; rfl, fun depth hd => ?_⟩
  simp only [List.length_cons, List.length_append, List.length_nil] at hd
  rcases depth with _ | depth
  · omega
  rw [readPrimary]
  refine ReadsThen.takes (.accept (by rw [hl]; rfl)) ?_
  simp only [hl]
  refine ReadsThen.bindBefore (h.reads depth (by omega)) (fun rest _ => Front.of_kind hr rfl _)
    fun e' he' => ?_
  refine ReadsThen.takes (.symbol hr) ?_
  exact .pure (by rw [withoutIds, he'])

/-- An expression that assigns nothing. -/
theorem AssignmentRead.or (h : OperationRead .disjunction ts e) : AssignmentRead ts e := by
  refine ⟨h.starts, fun depth hd => ?_⟩
  have hpos := h.starts.length_pos
  rcases depth with _ | depth
  · omega
  rw [readAssignment, ← List.append_nil ts]
  refine ReadsThen.bindBefore (h.reads (by rw [Level.tightness]; omega))
    (fun rest hrest => hrest.mono (by decide)) fun e' he' => ?_
  refine ReadsThen.look .acceptNone (fun rest hrest => Front.mono (fun k hk => ?_) hrest) ?_
  · cases k with
    | symbol s => cases s <;> first | rfl | cases hk
    | _ => rfl
  rintro _ rfl
  exact .pure he'

/-- An assignment to something that reads as an operation and that its node can be made from. -/
theorem AssignmentRead.assign {target : Expr} (ht : OperationRead .disjunction ts target)
    (he : IsSymbol .equal equals) (hv : AssignmentRead us value)
    (ha : ∀ target' value', withoutIds target' = target → withoutIds value' = value →
      Reads (assignTo target' equals value') [] (Loose 1) (withoutIds · = e)) :
    AssignmentRead (ts ++ equals :: us) e := by
  refine ⟨ht.starts.append _, fun depth hd => ?_⟩
  rw [List.length_append, List.length_cons] at hd
  rcases depth with _ | depth
  · omega
  rw [readAssignment]
  refine ReadsThen.bindBefore (ht.reads (by rw [Level.tightness]; omega))
    (fun rest _ => Front.of_kind he rfl _) fun target' ht' => ?_
  refine ReadsThen.takes (.accept (isSymbol_iff.mpr he)) ?_
  rw [← List.append_nil us]
  exact ReadsThen.bindBefore (hv.reads depth (by omega)) (fun rest hrest => hrest)
    fun value' hv' => ha target' value' ht' hv'

/-- A call reads as an operation of the loosest level. -/
theorem OperationRead.call (h : CallRead ts e) : OperationRead .disjunction ts e :=
  .operand <| .operation rfl <| .operand <| .operation rfl <| .operand <| .operation rfl <|
    .operand <| .operation rfl <| .operand <| .operation rfl <| .operand <| .unary <| .call h

/-- An assignment to a variable. -/
theorem AssignmentRead.name {name : Token} (hn : IsName name) (he : IsSymbol .equal equals)
    (hv : AssignmentRead ts value) :
    AssignmentRead (name :: equals :: ts) (.assign 0 name value) := by
  refine AssignmentRead.assign (.call (.primary (.atom (by rw [atom?, hn])))) he hv ?_
  intro target' value' ht hv'
  cases target' with
  | «variable» id name' =>
    cases ht
    exact ReadsThen.bind .fresh fun _ _ => .pure (by rw [withoutIds, hv'])
  | _ => cases ht

/-- An assignment to a property. -/
theorem AssignmentRead.property {name : Token} {object : Expr} (ho : CallRead ts object)
    (hd : IsSymbol .dot dot) (hn : IsName name) (he : IsSymbol .equal equals)
    (hv : AssignmentRead us value) :
    AssignmentRead (ts ++ dot :: name :: equals :: us) (.set object name value) := by
  have h := AssignmentRead.assign (e := .set object name value) (.call (ho.property hd hn)) he hv ?_
  · simpa using h
  intro target' value' ht hv'
  cases target' with
  | get object' name' =>
    rw [withoutIds, get.injEq] at ht
    exact .pure (by rw [withoutIds, hv', ht.1, ht.2])
  | _ => cases ht

end Expr

/-! ### From derivations -/

namespace Grammar

open Lox.Expr

mutual

/-- What is derived as an assignment is read as one; and so for each rule of expressions. -/
theorem Assignment.read : ∀ {ts : List Token} {e : Expr}, Assignment ts e → AssignmentRead ts e
  | _, _, .or h => .or h.read
  | _, _, .name hn he h => .name hn he h.read
  | _, _, .property ho hd hn he h => .property ho.read hd hn he h.read

/-- Every operation of the grammar is read. -/
theorem Operation.read :
    ∀ {l : Level} {ts : List Token} {e : Expr}, Operation l ts e → OperationRead l ts e
  | _, _, _, .operand h => .operand h.read
  | _, _, _, .logical hl ho hr => by
    rw [← ho.node]
    exact hl.read.node (operators_iff.mpr (.inl ho)) hr.read
  | _, _, _, .binary hl ho hr => by
    rw [← ho.node]
    exact hl.read.node (operators_iff.mpr (.inr ho)) hr.read

theorem Operand.read :
    ∀ {l : Level} {ts : List Token} {e : Expr}, Operand l ts e → OperandRead l ts e
  | _, _, _, .conjunction h => .operation rfl h.read
  | _, _, _, .equality h => .operation rfl h.read
  | _, _, _, .comparison h => .operation rfl h.read
  | _, _, _, .term h => .operation rfl h.read
  | _, _, _, .factor h => .operation rfl h.read
  | _, _, _, .unary h => .unary h.read

theorem Unary.read : ∀ {ts : List Token} {e : Expr}, Unary ts e → UnaryRead ts e
  | _, _, .operator ho h => .operator (isUnary_iff.mpr ho) h.read
  | _, _, .call h => .call h.read

theorem Call.read : ∀ {ts : List Token} {e : Expr}, Call ts e → CallRead ts e
  | _, _, .primary h => .primary h.read
  | _, _, .call hc hl ha hm hr => .call hc.read hl ha.read hm hr
  | _, _, .property ho hd hn => .property ho.read hd hn

theorem Arguments.read : ∀ {ts : List Token} {es : List Expr}, Arguments ts es → ArgumentsRead ts es
  | _, _, .none => .none
  | _, _, .some h => .some h.read

theorem ArgumentList.read :
    ∀ {ts : List Token} {es : List Expr}, ArgumentList ts es → ArgumentListRead ts es
  | _, _, .one h => .one h.read
  | _, _, .more h hc hs => .more h.read hc hs.read

theorem Primary.read : ∀ {ts : List Token} {e : Expr}, Primary ts e → PrimaryRead ts e
  | _, _, .falseWord h => .atom (by rw [atom?, h])
  | _, _, .trueWord h => .atom (by rw [atom?, h])
  | _, _, .nilWord h => .atom (by rw [atom?, h])
  | _, _, .number h => .atom (by rw [atom?, h])
  | _, _, .string h => .atom (by rw [atom?, h])
  | _, _, .thisWord h => .atom (by rw [atom?, h])
  | _, _, .name h => .atom (by rw [atom?, h])
  | _, _, .superMethod hw hd hm => .superMethod hw hd hm
  | _, _, .group hl h hr => .group hl h.read hr

end

end Grammar

end Lox
