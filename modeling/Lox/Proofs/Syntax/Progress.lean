import Lox.Proofs.Syntax.Ids
import Mathlib.Logic.Relation

/-!
# Readers go forward

All rules of the grammar are put together from a few basic readers (`Reader.Built`). Such a reader
moves the cursor in four kinds of steps only (`Cursor.Step`, `Reader.Built.steps`). What no step
does, no reader does: it takes tokens from the front and never puts one back
(`Reader.Built.suffix`), and it takes no report back (`Reader.Built.errors_grow`).

A reader that takes a token whenever it gives a value (`Reader.Takes`) leaves fewer tokens to what
comes after it. `Reader.AgreeOn n` compares two readers on at most `n` tokens. Where the first part
of a rule takes a token, its other parts need to agree on one token less only, and this is what ends
the recursion of the rules.
-/

namespace Lox

variable {c c' : Cursor}

namespace Reader

/-- A reader put together from the basic ones. -/
inductive Built : {α : Type} → Reader α → Prop where
  | pure {α : Type} (a : α) : Built (Pure.pure a : Reader α)
  | bind {α β : Type} {r : Reader α} {f : α → Reader β} (h : Built r) (hf : ∀ a, Built (f a)) :
      Built (r >>= f)
  | failHere {α : Type} (fault : ParseFault) : Built (Reader.failHere fault : Reader α)
  | report (e : ParseError) : Built (Reader.report e)
  | reportHere (fault : ParseFault) : Built (Reader.reportHere fault)
  | fresh : Built Reader.fresh
  | atEnd : Built Reader.atEnd
  | check (p : Kind → Bool) : Built (Reader.check p)
  | accept (p : Kind → Bool) : Built (Reader.accept p)
  | expect (p : Kind → Bool) (fault : ParseFault) : Built (Reader.expect p fault)
  | recovering {α : Type} {r : Reader α} (h : Built r) : Built (Reader.recovering r)
  /-- A bound that the number of tokens gives, if larger bounds make no difference. -/
  | sized {α : Type} {r : Nat → Reader α} (h : ∀ n, Built (r n))
      (hstable : ∀ n m c, c.rest.length ≤ n → n ≤ m → r n c = r m c) : Built fun c =>
      r c.rest.length c

/-- A reader put together from those that look neither for a semicolon nor for the end. -/
inductive Sparing : {α : Type} → Reader α → Prop where
  | pure {α : Type} (a : α) : Sparing (Pure.pure a : Reader α)
  | bind {α β : Type} {r : Reader α} {f : α → Reader β} (h : Sparing r) (hf : ∀ a, Sparing (f a)) :
      Sparing (r >>= f)
  | failHere {α : Type} (fault : ParseFault) : Sparing (Reader.failHere fault : Reader α)
  | report (e : ParseError) : Sparing (Reader.report e)
  | reportHere (fault : ParseFault) : Sparing (Reader.reportHere fault)
  | fresh : Sparing Reader.fresh
  | check {p : Kind → Bool} (hp : p (.symbol .semicolon) = false) : Sparing (Reader.check p)
  | accept {p : Kind → Bool} (hp : p (.symbol .semicolon) = false) : Sparing (Reader.accept p)
  | expect (p : Kind → Bool) (fault : ParseFault) : Sparing (Reader.expect p fault)
  | sized {α : Type} {r : Nat → Reader α} (h : ∀ n, Sparing (r n))
      (hstable : ∀ n m c, c.rest.length ≤ n → n ≤ m → r n c = r m c) : Sparing fun c =>
      r c.rest.length c

variable {α β : Type} {r r' : Reader α} {f f' : α → Reader β}

theorem Sparing.expectThen {p : Kind → Bool} {fault : ParseFault} {f : Token → Reader β}
    (h : ∀ t, Sparing (f t)) : Sparing (Reader.expect p fault >>= f) :=
  (Sparing.expect p fault).bind h

theorem Sparing.acceptThen {p : Kind → Bool} {f : Option Token → Reader β}
    (hp : p (.symbol .semicolon) = false) (hnone : Sparing (f none))
    (hsome : ∀ t, Sparing (f (some t))) : Sparing (Reader.accept p >>= f) := by
  refine (Sparing.accept hp).bind fun t? => ?_
  cases t? with
  | none => exact hnone
  | some t => exact hsome t

/-- Such readers are built of steps. -/
theorem Sparing.built (h : Sparing r) : Built r := by
  induction h with
  | pure a => exact .pure a
  | bind _ _ ih ihf => exact ih.bind ihf
  | failHere fault => exact .failHere fault
  | report e => exact .report e
  | reportHere fault => exact .reportHere fault
  | fresh => exact .fresh
  | check => exact .check _
  | accept => exact .accept _
  | expect p fault => exact .expect p fault
  | sized _ hstable ih => exact .sized ih hstable

/-- Reading twice gives a value only if both readers do. -/
theorem done_of_bind {b : β} (h : (r >>= f) c = .done b c') :
    ∃ a c₁, r c = .done a c₁ ∧ f a c₁ = .done b c' := by
  change Reader.bind r f c = .done b c' at h
  unfold Reader.bind at h
  split at h
  · next a c₁ hr => exact ⟨a, c₁, hr, h⟩
  · cases h

theorem bind_of_done {c₁ : Cursor} {a : α} (h : r c = .done a c₁) : (r >>= f) c = f a c₁ := by
  show Reader.bind r f c = f a c₁
  rw [Reader.bind, h]

/-- The second part of a reader goes on where the first one ends, if that has a value. -/
theorem bind_cases (r : Reader α) (f : α → Reader β) (c : Cursor) :
    (∃ a c₁, r c = .done a c₁ ∧ (r >>= f) c = f a c₁) ∨
      ∃ e c₁, r c = .failed e c₁ ∧ (r >>= f) c = .failed e c₁ := by
  show (∃ a c₁, r c = .done a c₁ ∧ Reader.bind r f c = f a c₁) ∨
    ∃ e c₁, r c = .failed e c₁ ∧ Reader.bind r f c = .failed e c₁
  unfold Reader.bind
  cases r c with
  | done a c₁ => exact .inl ⟨a, c₁, rfl, rfl⟩
  | failed e c₁ => exact .inr ⟨e, c₁, rfl, rfl⟩

/-- The second parts need to do the same only where the first one ends. -/
theorem bind_congr_at (h : r c = r' c) (hf : ∀ a c₁, r c = .done a c₁ → f a c₁ = f' a c₁) :
    (r >>= f) c = (r' >>= f') c := by
  show Reader.bind r f c = Reader.bind r' f' c
  unfold Reader.bind
  rw [← h]
  cases hr : r c with
  | done a c₁ => exact hf a c₁ hr
  | failed => rfl

/-- A token is taken or left. -/
theorem accept_cases (p : Kind → Bool) (c : Cursor) :
    Reader.accept p c = .done none c ∨
      ∃ t rest, c.rest = t :: rest ∧ p t.kind = true ∧
      Reader.accept p c = .done (some t) { c with rest := rest } := by
  unfold Reader.accept
  cases c.rest with
  | nil => exact .inl rfl
  | cons t rest =>
    by_cases ht : p t.kind = true
    · exact .inr ⟨t, rest, rfl, ht, if_pos ht⟩
    · exact .inl (if_neg ht)

/-- A token is taken or missed. -/
theorem expect_cases (p : Kind → Bool) (fault : ParseFault) (c : Cursor) :
    Reader.expect p fault c = .failed (.at c.here fault) c ∨
      ∃ t rest, c.rest = t :: rest ∧ p t.kind = true ∧
      Reader.expect p fault c = .done t { c with rest := rest } := by
  unfold Reader.expect
  cases c.rest with
  | nil => exact .inl rfl
  | cons t rest =>
    by_cases ht : p t.kind = true
    · exact .inr ⟨t, rest, rfl, ht, if_pos ht⟩
    · exact .inl (if_neg ht)

theorem atEnd_of_nil (h : c.rest = []) : Reader.atEnd c = .done true c := by
  rw [Reader.atEnd, h, List.isEmpty_nil]

theorem atEnd_of_ne_nil (h : c.rest ≠ []) : Reader.atEnd c = .done false c := by
  rw [Reader.atEnd, List.isEmpty_eq_false_iff.mpr h]

/-- A declaration is read, or reported and skipped. -/
theorem recovering_cases (r : Reader α) (c : Cursor) :
    (∃ a c₁, r c = .done a c₁ ∧ recovering r c = .done (some a) c₁) ∨
      ∃ e c₁, r c = .failed e c₁ ∧ recovering r c = .done none (c₁.report e).synchronize := by
  unfold Reader.recovering
  cases r c with
  | done a c₁ => exact .inl ⟨a, c₁, rfl, rfl⟩
  | failed e c₁ => exact .inr ⟨e, c₁, rfl, rfl⟩

end Reader

/-! ## Steps of a cursor -/

namespace Cursor

/-- What a basic reader does where it stands, or what is done after its failure. -/
inductive Step (c : Cursor) : Cursor → Prop where
  | take {t : Token} {rest : List Token} (h : c.rest = t :: rest) : Step c { c with rest := rest }
  | report (e : ParseError) : Step c (c.report e)
  | fresh : Step c { c with nextId := c.nextId + 1 }
  | synchronize : Step c c.synchronize

theorem skipAfter_suffix (dropped : Token) (ts : List Token) : skipAfter dropped ts <:+ ts := by
  induction ts generalizing dropped with
  | nil => exact List.suffix_rfl
  | cons t rest ih =>
    rw [skipAfter]
    split
    · exact List.suffix_rfl
    · exact (ih t).trans (List.suffix_cons t rest)

theorem skip_suffix (ts : List Token) : skip ts <:+ ts := by
  cases ts with
  | nil => exact List.suffix_rfl
  | cons t rest => exact (skipAfter_suffix t rest).trans (List.suffix_cons t rest)

/-- A token at least is dropped. -/
theorem length_skip_lt {ts : List Token} (h : ts ≠ []) : (skip ts).length < ts.length := by
  cases ts with
  | nil => exact absurd rfl h
  | cons t rest => exact Nat.lt_succ_of_le (skipAfter_suffix t rest).length_le

/-- A step takes tokens from the front. -/
theorem Step.suffix (h : Step c c') : c'.rest <:+ c.rest := by
  cases h with
  | @take t rest hrest =>
    rw [hrest]
    exact List.suffix_cons t rest
  | report | fresh => exact List.suffix_rfl
  | synchronize => exact skip_suffix c.rest

/-- A step only adds reports. -/
theorem Step.errors_grow (h : Step c c') : c.errors <+: c'.errors := by
  cases h with
  | report => exact List.prefix_append _ _
  | take | fresh | synchronize => exact List.prefix_rfl

/-- Whether something has gone wrong is noted exactly if something has been reported. -/
def Flagged (c : Cursor) : Prop :=
  c.hadError = !c.errors.isEmpty

theorem ofTokens_flagged (tokens : List Token) (nextId : NodeId) :
    (ofTokens tokens nextId).Flagged := by
  simp [Flagged, ofTokens]

theorem report_flagged (c : Cursor) (e : ParseError) : (c.report e).Flagged := by
  simp [Flagged, report]

theorem Step.flagged (h : Step c c') (hc : c.Flagged) : c'.Flagged := by
  cases h with
  | report e => exact c.report_flagged e
  | take | fresh | synchronize => exact hc

theorem suffix_of_steps (h : Relation.ReflTransGen Step c c') : c'.rest <:+ c.rest := by
  induction h with
  | refl => exact List.suffix_rfl
  | tail _ hstep ih => exact hstep.suffix.trans ih

theorem errors_grow_of_steps (h : Relation.ReflTransGen Step c c') : c.errors <+: c'.errors := by
  induction h with
  | refl => exact List.prefix_rfl
  | tail _ hstep ih => exact ih.trans hstep.errors_grow

theorem flagged_of_steps (h : Relation.ReflTransGen Step c c') (hc : c.Flagged) : c'.Flagged := by
  induction h with
  | refl => exact hc
  | tail _ hstep ih => exact hstep.flagged ih

end Cursor

namespace Reader

variable {α β : Type} {r r' : Reader α} {f f' : α → Reader β} {fault : ParseFault} {p : Kind → Bool}

namespace Built

/-- **A reader moves the cursor in steps.** -/
theorem steps (h : Built r) (c : Cursor) : Relation.ReflTransGen Cursor.Step c (r c).cursor := by
  induction h generalizing c with
  | pure | failHere | atEnd | check => exact .refl
  | report | reportHere => exact .single (.report _)
  | fresh => exact .single .fresh
  | accept p =>
    rcases accept_cases p c with heq | ⟨t, rest, hrest, -, heq⟩
    · rw [heq]
      exact .refl
    · rw [heq]
      exact .single (.take hrest)
  | expect p fault =>
    rcases expect_cases p fault c with heq | ⟨t, rest, hrest, -, heq⟩
    · rw [heq]
      exact .refl
    · rw [heq]
      exact .single (.take hrest)
  | @bind _ _ r f _ _ ih ihf =>
    have hfirst := ih c
    rcases bind_cases r f c with ⟨a, c₁, hr, heq⟩ | ⟨e, c₁, hr, heq⟩
    · rw [hr] at hfirst
      rw [heq]
      exact hfirst.trans (ihf a c₁)
    · rw [hr] at hfirst
      rw [heq]
      exact hfirst
  | @recovering _ r _ ih =>
    have hr := ih c
    rcases recovering_cases r c with ⟨a, c₁, hdone, heq⟩ | ⟨e, c₁, hfailed, heq⟩
    · rw [hdone] at hr
      rw [heq]
      exact hr
    · rw [hfailed] at hr
      rw [heq]
      exact (hr.tail (.report e)).tail .synchronize
  | sized _ _ ih => exact ih c.rest.length c

/-- **Tokens are taken from the front, and none is put back.** -/
theorem suffix (h : Built r) (c : Cursor) : (r c).cursor.rest <:+ c.rest :=
  Cursor.suffix_of_steps (h.steps c)

/-- No report is taken back. -/
theorem errors_grow (h : Built r) (c : Cursor) : c.errors <+: (r c).cursor.errors :=
  Cursor.errors_grow_of_steps (h.steps c)

/-- **Readers note that something has gone wrong exactly if they report something.** -/
theorem flagged (h : Built r) (hc : c.Flagged) : (r c).cursor.Flagged :=
  Cursor.flagged_of_steps (h.steps c) hc

theorem length_le {a : α} (h : Built r) (hr : r c = .done a c') :
    c'.rest.length ≤ c.rest.length := by
  have hle := (h.suffix c).length_le
  rwa [hr] at hle

theorem expectThen {f : Token → Reader β} (h : ∀ t, Built (f t)) :
    Built (Reader.expect p fault >>= f) :=
  (Built.expect p fault).bind h

/-- The next token, or what is read without it. -/
theorem acceptThen {f : Option Token → Reader β} (hnone : Built (f none))
    (hsome : ∀ t, Built (f (some t))) : Built (Reader.accept p >>= f) := by
  refine (Built.accept p).bind fun t? => ?_
  cases t? with
  | none => exact hnone
  | some t => exact hsome t

theorem checkThen {f : Bool → Reader β} (htrue : Built (f true)) (hfalse : Built (f false)) :
    Built (Reader.check p >>= f) := by
  refine (Built.check p).bind fun b => ?_
  cases b with
  | true => exact htrue
  | false => exact hfalse

/-- One item and, after a comma, the others. -/
theorem commaList {first : Reader α} {others : Reader (List α)} (h : Built first)
    (hothers : Built others) : Built (Reader.commaList first others) :=
  h.bind fun _ => .acceptThen (.pure _) fun _ => hothers.bind fun _ => .pure _

end Built

/-! ## Readers that take a token -/

/-- A value is given for one token at least. -/
def Takes (r : Reader α) : Prop :=
  ∀ c a c', r c = .done a c' → c'.rest.length < c.rest.length

namespace Takes

theorem rest_ne_nil (h : Takes r) {a : α} (hr : r c = .done a c') : c.rest ≠ [] :=
  List.length_pos_iff.mp (Nat.lt_of_le_of_lt (Nat.zero_le _) (h c a c' hr))

theorem failHere : Takes (Reader.failHere fault : Reader α) := by
  intro c a c' hr
  cases hr

theorem expect : Takes (Reader.expect p fault) := by
  intro c a c' hr
  rcases expect_cases p fault c with heq | ⟨t, rest, hrest, -, heq⟩
  · rw [heq] at hr
    cases hr
  · rw [heq] at hr
    cases hr
    rw [hrest]
    exact Nat.lt_succ_self _

/-- The first part takes a token. -/
theorem bind_left (h : Takes r) (hf : ∀ a, Built (f a)) : Takes (r >>= f) := by
  intro c b c' hr
  obtain ⟨a, c₁, hfirst, hrest⟩ := done_of_bind hr
  exact Nat.lt_of_le_of_lt ((hf a).length_le hrest) (h c a c₁ hfirst)

/-- The second part takes a token. -/
theorem bind_right (h : Built r) (hf : ∀ a, Takes (f a)) : Takes (r >>= f) := by
  intro c b c' hr
  obtain ⟨a, c₁, hfirst, hrest⟩ := done_of_bind hr
  exact Nat.lt_of_lt_of_le (hf a c₁ b c' hrest) (h.length_le hfirst)

/-- The next token is taken, or else a later one. -/
theorem accept {f : Option Token → Reader β} (hnone : Takes (f none))
    (hsome : ∀ t, Built (f (some t))) : Takes (Reader.accept p >>= f) := by
  intro c b c' hr
  rcases accept_cases p c with heq | ⟨t, rest, hrest, -, heq⟩
  · rw [bind_of_done heq] at hr
    exact hnone c b c' hr
  · rw [bind_of_done heq] at hr
    rw [hrest]
    exact Nat.lt_succ_of_le ((hsome t).length_le hr)

end Takes

/-- A reader that takes a token, or else drops one after its failure, leaves fewer tokens. -/
theorem length_recovering_lt (hbuilt : Built r) (htakes : Takes r) (hc : c.rest ≠ []) :
    (recovering r c).cursor.rest.length < c.rest.length := by
  rcases recovering_cases r c with ⟨a, c₁, hr, heq⟩ | ⟨e, c₁, hr, heq⟩
  · rw [heq]
    exact htakes c a c₁ hr
  · have hle := (hbuilt.suffix c).length_le
    rw [hr] at hle
    rw [heq]
    show (Cursor.skip c₁.rest).length < c.rest.length
    by_cases hempty : c₁.rest = []
    · rw [hempty]
      exact List.length_pos_iff.mpr hc
    · exact Nat.lt_of_lt_of_le (Cursor.length_skip_lt hempty) hle

/-! ## Readers that agree -/

/-- Two readers do the same on at most `n` tokens. -/
def AgreeOn (n : Nat) (r r' : Reader α) : Prop :=
  ∀ c, c.rest.length ≤ n → r c = r' c

namespace AgreeOn

variable {n : Nat}

theorem refl {r : Reader α} : AgreeOn n r r :=
  fun _ _ => rfl

theorem bind (hbuilt : Built r) (h : AgreeOn n r r') (hf : ∀ a, AgreeOn n (f a) (f' a)) :
    AgreeOn n (r >>= f) (r' >>= f') :=
  fun c hc => bind_congr_at (h c hc) fun a c₁ hr => hf a c₁ (Nat.le_trans (hbuilt.length_le hr) hc)

/-- After a token has been taken, the readers need to agree on one token less. -/
theorem bind_takes (htakes : Takes r) (h : AgreeOn n r r')
    (hf : ∀ a m, n = m + 1 → AgreeOn m (f a) (f' a)) : AgreeOn n (r >>= f) (r' >>= f') := by
  refine fun c hc => bind_congr_at (h c hc) fun a c₁ hr => ?_
  have hlt := htakes c a c₁ hr
  exact hf a (n - 1) (by omega) c₁ (by omega)

theorem expect {f f' : Token → Reader β} (hf : ∀ t m, n = m + 1 → AgreeOn m (f t) (f' t)) :
    AgreeOn n (Reader.expect p fault >>= f) (Reader.expect p fault >>= f') :=
  bind_takes .expect .refl hf

theorem accept {f f' : Option Token → Reader β} (hnone : AgreeOn n (f none) (f' none))
    (hsome : ∀ t m, n = m + 1 → AgreeOn m (f (some t)) (f' (some t))) :
    AgreeOn n (Reader.accept p >>= f) (Reader.accept p >>= f') := by
  intro c hc
  rcases accept_cases p c with heq | ⟨t, rest, hrest, -, heq⟩
  · rw [bind_of_done heq, bind_of_done heq]
    exact hnone c hc
  · rw [bind_of_done heq, bind_of_done heq]
    rw [hrest, List.length_cons] at hc
    exact hsome t (n - 1) (by omega) _ (by show rest.length ≤ n - 1; omega)

/-- Before the end there is a token, and readers that agree there are asked only there. -/
theorem atEnd {f f' : Bool → Reader β} (htrue : AgreeOn n (f true) (f' true))
    (hfalse : ∀ c : Cursor, c.rest ≠ [] → c.rest.length ≤ n → f false c = f' false c) :
    AgreeOn n (Reader.atEnd >>= f) (Reader.atEnd >>= f') := by
  intro c hc
  refine bind_congr_at rfl fun b c₁ hb => ?_
  cases hb
  cases hrest : c.rest with
  | nil => exact htrue c hc
  | cons t rest => exact hfalse c (by simp [hrest]) hc

theorem commaList {first first' : Reader α} {others others' : Reader (List α)}
    (hfirst : Built first) (hothers : Built others) (h : AgreeOn n first first')
    (h' : ∀ m, n = m + 1 → AgreeOn m others others') :
    AgreeOn n (Reader.commaList first others) (Reader.commaList first' others') := by
  refine h.bind hfirst fun a => .accept .refl ?_
  rintro comma m rfl
  exact (h' m rfl).bind hothers fun rest => .refl

theorem recovering (h : AgreeOn n r r') :
    AgreeOn n (Reader.recovering r) (Reader.recovering r') := by
  intro c hc
  unfold Reader.recovering
  rw [h c hc]

end AgreeOn

end Reader

end Lox
