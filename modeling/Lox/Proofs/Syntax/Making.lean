import Lox.Proofs.Renumbering.Trees
import Lox.Proofs.Syntax.Parsing
import Lox.Proofs.Syntax.Tokens

/-!
# What readers make

Reading takes tokens from the front and ids from a counter that only goes up. So a tree is made of
tokens that were there before (`Parse.madeOf`), its ids lie between the counter before and after,
and none occurs twice (`Parse.ids_between`). Ids of nodes that were read and then thrown away, by a
failure or by an assignment that replaces its target, are not used again. Errors are reported at
tokens that are left, at a token just taken, or at the end (`Parse.within_of_mem_errors`). What the
counter starts from does not matter: reading from a later id gives the same tree with its ids moved
on, the same errors, and uses up as many ids (`Parse.ofTokens_add`).

All of this is said of readers at once. `Reader.Makes S n r r' Post` compares a reading that starts
at the id `n` with one that starts `S.shift` ids later, and goes along `bind` like the readers
themselves. What the readers make is followed along the trees by `Tracked.Made`.
-/

namespace Lox

open Grammar (IsName isSymbol_iff isWord_iff isName_iff isUnary_iff operators_iff)

variable {e : ParseError} {lo hi : Nat} {P : Token → Prop}

/-! ## Two readings -/

/-- What is known of the tokens and of their lines, and how many ids later the second reading
starts. -/
structure Circumstances where
  /-- What is known of the tokens. -/
  token : Token → Prop
  /-- What is known of the lines on which errors can be. -/
  errorLine : Nat → Prop
  line : ∀ t, token t → errorLine t.line
  shift : Nat

variable {S : Circumstances}

/-- The tokens that are left, the end and the errors so far are as the circumstances say. -/
structure Cursor.Within (S : Circumstances) (c : Cursor) : Prop where
  rest : ∀ t ∈ c.rest, S.token t
  endLine : S.errorLine c.endLine
  errors : ∀ e ∈ c.errors, S.errorLine e.line

namespace Cursor.Within

variable {c : Cursor}

theorem here (h : c.Within S) : S.errorLine c.here.line := by
  unfold Cursor.here
  split
  · next t rest hrest => exact S.line t (h.rest t (by simp [hrest]))
  · exact h.endLine

/-- A report on a line of the source. -/
theorem report (h : c.Within S) (he : S.errorLine e.line) : (c.report e).Within S := by
  refine ⟨h.rest, h.endLine, ?_⟩
  intro e' he'
  rcases List.mem_append.mp he' with hold | hnew
  · exact h.errors e' hold
  · rw [List.mem_singleton.mp hnew]
    exact he

theorem drop (h : c.Within S) {rest : List Token} (hrest : rest <:+ c.rest) :
    Cursor.Within S { c with rest := rest } :=
  ⟨fun t ht => h.rest t (hrest.subset ht), h.endLine, h.errors⟩

end Cursor.Within

/-- Two readings that end alike. The counter has not gone down from `n`, and values satisfy
`Post`. -/
inductive Reading.Paired (S : Circumstances) {α : Type} (n : Nat) (Post : α → α → Nat → Prop) :
    Reading α → Reading α → Prop where
  | done {a b : α} {c : Cursor} (within : c.Within S) (le : n ≤ c.nextId)
      (value : Post a b c.nextId) : Paired S n Post (.done a c) (.done b (c.skipIds S.shift))
  | failed {e : ParseError} {c : Cursor} (within : c.Within S) (le : n ≤ c.nextId)
      (line : S.errorLine e.line) : Paired S n Post (.failed e c) (.failed e (c.skipIds S.shift))

namespace Reader

variable {α β : Type} {n : Nat} {r r' : Reader α} {f f' : α → Reader β} {Post : α → α → Nat → Prop}
  {Next : β → β → Nat → Prop}

/-- Where the first reader starts at the id `n` and the second starts later, they end alike. -/
def Makes (S : Circumstances) (n : Nat) (r r' : Reader α) (Post : α → α → Nat → Prop) : Prop :=
  ∀ c : Cursor, c.nextId = n → c.Within S → Reading.Paired S n Post (r c) (r' (c.skipIds S.shift))

namespace Makes

variable {fault : ParseFault} {p : Kind → Bool}

theorem pure {a b : α} (h : Post a b n) : Makes S n (Pure.pure a) (Pure.pure b) Post := by
  rintro c rfl hc
  exact .done hc (Nat.le_refl _) h

/-- Readers that make their results one after the other. -/
theorem bind (h : Makes S n r r' Post) (hf : ∀ {a b m}, Post a b m → Makes S m (f a) (f' b) Next) :
    Makes S n (r >>= f) (r' >>= f') Next := by
  intro c hn hc
  show Reading.Paired S n Next (Reader.bind r f c) (Reader.bind r' f' (c.skipIds S.shift))
  unfold Reader.bind
  have hr := h c hn hc
  generalize r c = x, r' (c.skipIds S.shift) = x' at hr ⊢
  cases hr with
  | @done a b c₁ hc₁ hle hpost =>
    have hr := hf hpost c₁ rfl hc₁
    show Reading.Paired S n Next (f a c₁) (f' b (c₁.skipIds S.shift))
    generalize f a c₁ = x, f' b (c₁.skipIds S.shift) = x' at hr ⊢
    cases hr with
    | done hc₂ hle₂ hnext => exact .done hc₂ (Nat.le_trans hle hle₂) hnext
    | failed hc₂ hle₂ he => exact .failed hc₂ (Nat.le_trans hle hle₂) he
  | failed hc₁ hle he => exact .failed hc₁ hle he

theorem mono {Post' : α → α → Nat → Prop} (h : Makes S n r r' Post)
    (hpost : ∀ {a b m}, Post a b m → Post' a b m) :
    Makes S n r r' Post' := by
  intro c hn hc
  have hr := h c hn hc
  generalize r c = x, r' (c.skipIds S.shift) = x' at hr ⊢
  cases hr with
  | done hc₁ hle hvalue => exact .done hc₁ hle (hpost hvalue)
  | failed hc₁ hle he => exact .failed hc₁ hle he

theorem failHere : Makes S n (Reader.failHere fault : Reader α) (Reader.failHere fault) Post := by
  rintro c rfl hc
  exact .failed hc (Nat.le_refl _) hc.here

theorem reportThen {r r' : Reader β} (he : S.errorLine e.line) (h : Makes S n r r' Next) :
    Makes S n (Reader.report e >>= fun _ => r) (Reader.report e >>= fun _ => r') Next :=
  fun c hn hc => h (c.report e) hn (hc.report he)

theorem reportHereThen {r r' : Reader β} (h : Makes S n r r' Next) :
    Makes S n (Reader.reportHere fault >>= fun _ => r) (Reader.reportHere fault >>= fun _ => r')
      Next :=
  fun c hn hc => h (c.report (.at c.here fault)) hn (hc.report hc.here)

theorem atEndThen {f f' : Bool → Reader β} (h : ∀ b, Makes S n (f b) (f' b) Next) :
    Makes S n (Reader.atEnd >>= f) (Reader.atEnd >>= f') Next :=
  fun c hn hc => h _ c hn hc

theorem checkThen {f f' : Bool → Reader β} (h : ∀ b, Makes S n (f b) (f' b) Next) :
    Makes S n (Reader.check p >>= f) (Reader.check p >>= f') Next :=
  fun c hn hc => h _ c hn hc

/-- After a token is taken, it is known. -/
theorem acceptThen {f f' : Option Token → Reader β} (hnone : Makes S n (f none) (f' none) Next)
    (hsome : ∀ t, p t.kind = true → S.token t → Makes S n (f (some t)) (f' (some t)) Next) :
    Makes S n (Reader.accept p >>= f) (Reader.accept p >>= f') Next := by
  rintro ⟨rest, endLine, nextId, errors, hadError⟩ hn hc
  show Reading.Paired S n Next (Reader.bind _ f _) (Reader.bind _ f' _)
  cases rest with
  | nil => exact hnone _ hn hc
  | cons t rest =>
    simp only [Reader.bind, Reader.accept, Cursor.skipIds]
    by_cases ht : p t.kind = true
    · simp only [ht, if_true]
      exact hsome t ht (hc.rest t List.mem_cons_self) _ hn (hc.drop (List.suffix_cons t rest))
    · simp only [ht]
      exact hnone _ hn hc

/-- Going on with a token that has to be there. -/
theorem expectThen {f f' : Token → Reader β}
    (h : ∀ t, p t.kind = true → S.token t → Makes S n (f t) (f' t) Next) :
    Makes S n (Reader.expect p fault >>= f) (Reader.expect p fault >>= f') Next := by
  rintro ⟨rest, endLine, nextId, errors, hadError⟩ hn hc
  show Reading.Paired S n Next (Reader.bind _ f _) (Reader.bind _ f' _)
  have hfail : Makes S n (Reader.failHere fault) (Reader.failHere fault) Next := failHere
  cases rest with
  | nil => exact hfail _ hn hc
  | cons t rest =>
    simp only [Reader.bind, Reader.expect, Cursor.skipIds]
    by_cases ht : p t.kind = true
    · simp only [ht, if_true]
      exact h t ht (hc.rest t List.mem_cons_self) _ hn (hc.drop (List.suffix_cons t rest))
    · simp only [ht]
      exact hfail _ hn hc

/-- What was taken and reported before a failure stays so. -/
theorem recovering {Post : Option α → Option α → Nat → Prop}
    (h : Makes S n r r' fun a b m => Post (some a) (some b) m)
    (hnone : ∀ m, n ≤ m → Post none none m) :
    Makes S n (Reader.recovering r) (Reader.recovering r') Post := by
  intro c hn hc
  unfold Reader.recovering
  have hr := h c hn hc
  generalize r c = x, r' (c.skipIds S.shift) = x' at hr ⊢
  cases hr with
  | done hc₁ hle hpost => exact .done hc₁ hle hpost
  | failed hc₁ hle he => exact .done ((hc₁.report he).drop (Cursor.skip_suffix _)) hle (hnone _ hle)

end Makes

end Reader

/-! ## Trees and what they are made from -/

/-- Parts of a tree, with their ids, with what is said of their tokens, and with a way to move their
ids on. -/
structure Tracked (α : Type) where
  ids : α → List NodeId
  Fits : α → Prop
  moved : α → α

namespace Tracked

variable {α β γ : Type} {T : Tracked α} {U : Tracked β} {lo mid hi : Nat} {a a' : α} {b b' : β}

/-- The parts of two trees, the second of which was made like the first and later. -/
structure Made (T : Tracked α) (lo : Nat) (a a' : α) (hi : Nat) : Prop where
  le : lo ≤ hi
  ids : Between lo hi (T.ids a)
  fits : T.Fits a
  moved : a' = T.moved a

/-- Two parts side by side. -/
def pair (T : Tracked α) (U : Tracked β) : Tracked (α × β) where
  ids p := T.ids p.1 ++ U.ids p.2
  Fits p := T.Fits p.1 ∧ U.Fits p.2
  moved p := (T.moved p.1, U.moved p.2)

/-- The id of a node. -/
def node (S : Circumstances) : Tracked NodeId where
  ids id := [id]
  Fits _ := True
  moved id := id + S.shift

namespace Made

theorem leaf (hids : T.ids a = []) (hfits : T.Fits a) (hmoved : a' = T.moved a) :
    T.Made lo a a' lo :=
  ⟨Nat.le_refl _, hids ▸ .nil, hfits, hmoved⟩

/-- One part becomes another, with the same ids. -/
theorem map (h : T.Made lo a a' hi) (U : Tracked β) (f : α → β)
    (hids : (T.ids a).Perm (U.ids (f a))) (hfits : T.Fits a → U.Fits (f a))
    (hmoved : f (T.moved a) = U.moved (f a)) : U.Made lo (f a) (f a') hi :=
  ⟨h.le, h.ids.perm hids, hfits h.fits, h.moved ▸ hmoved⟩

/-- Two parts are put together, with the ids of both. -/
theorem zip (h : T.Made lo a a' mid) (h' : U.Made mid b b' hi) (V : Tracked γ) (f : α → β → γ)
    (hids : (T.ids a ++ U.ids b).Perm (V.ids (f a b)))
    (hfits : T.Fits a → U.Fits b → V.Fits (f a b))
    (hmoved : f (T.moved a) (U.moved b) = V.moved (f a b)) : V.Made lo (f a b) (f a' b') hi :=
  ⟨Nat.le_trans h.le h'.le, (h.ids.append h'.ids h.le h'.le).perm hids, hfits h.fits h'.fits,
    h.moved ▸ h'.moved ▸ hmoved⟩

theorem pair (h : T.Made lo a a' mid) (h' : U.Made mid b b' hi) :
    (T.pair U).Made lo (a, b) (a', b') hi :=
  h.zip h' (T.pair U) Prod.mk .rfl And.intro rfl

theorem sooner (h : T.Made mid a a' hi) (hle : lo ≤ mid) : T.Made lo a a' hi :=
  ⟨Nat.le_trans hle h.le, h.ids.widen hle, h.fits, h.moved⟩

theorem later (h : T.Made lo a a' mid) (hle : mid ≤ hi) : T.Made lo a a' hi :=
  ⟨Nat.le_trans h.le hle,
    ⟨fun id hid => ⟨(h.ids.bounds id hid).1, Nat.lt_of_lt_of_le (h.ids.bounds id hid).2 hle⟩,
    h.ids.nodup⟩, h.fits, h.moved⟩

end Made

end Tracked

open Tracked (Made)

/-- A reader whose values are made as it goes. -/
def Reader.Tracks {α : Type} (S : Circumstances) (r : Reader α) (T : Tracked α) : Prop :=
  ∀ n, Makes S n r r (T.Made n)

theorem Reader.Makes.fresh {n : Nat} :
    Makes S n Reader.fresh Reader.fresh ((Tracked.node S).Made n) := by
  rintro c rfl hc
  have hid : (Tracked.node S).Made c.nextId c.nextId (c.nextId + S.shift) (c.nextId + 1) :=
    ⟨Nat.le_succ _, .single, trivial, rfl⟩
  have hend : Reader.fresh (c.skipIds S.shift) =
      .done (c.nextId + S.shift) (Cursor.skipIds S.shift { c with nextId := c.nextId + 1 }) := by
    simp only [Reader.fresh, Cursor.skipIds, Nat.add_right_comm]
  rw [hend]
  exact .done ⟨hc.rest, hc.endLine, hc.errors⟩ (Nat.le_succ _) hid

/-! ## Expressions -/

namespace Expr

open Reader

/-- An expression from given tokens. -/
def tracked (S : Circumstances) : Tracked Expr :=
  ⟨ids, MadeOf S.token, renumber (· + S.shift)⟩

/-- Expressions from given tokens. -/
def trackedAll (S : Circumstances) : Tracked (List Expr) :=
  ⟨idsAll, MadeOfAll S.token, renumberAll (· + S.shift)⟩

/-- An expression from given tokens that may be missing. -/
def tracked? (S : Circumstances) : Tracked (Option Expr) :=
  ⟨ids?, MadeOf? S.token, Option.map (renumber (· + S.shift))⟩

theorem made_some {e e' : Expr} (h : (tracked S).Made lo e e' hi) :
    (tracked? S).Made lo (some e) (some e') hi :=
  h.map (tracked? S) some .rfl (fun he _ heq => Option.some.inj heq ▸ he) rfl

theorem made_none : (tracked? S).Made lo none none lo :=
  .leaf rfl (fun _ h => nomatch h) rfl

/-- The node of a level is made of its operands and its operator. -/
theorem madeOf_node {l : Level} {operator : Token} (ho : l.operators operator.kind = true)
    (hP : P operator) {left right : Expr} (hl : left.MadeOf P) (hr : right.MadeOf P) :
    (l.node left operator right).MadeOf P := by
  rcases operators_iff.mp ho with h | h
  · rw [h.node]
    exact ⟨⟨⟨l, h⟩, hP⟩, hl, hr⟩
  · rw [h.node]
    exact ⟨⟨⟨l, h⟩, hP⟩, hl, hr⟩

/-- The rules of expressions make their trees as they go. Those that go on after an operand or a
callee keep it. -/
structure Rules.Makes (S : Circumstances) (rules : Rules) : Prop where
  assignment : Tracks S rules.assignment (tracked S)
  binary : ∀ l, Tracks S (rules.binary l) (tracked S)
  operand : ∀ l, Tracks S (rules.operand l) (tracked S)
  binaryRest : ∀ l {lo n left left'}, (tracked S).Made lo left left' n →
    Reader.Makes S n (rules.binaryRest l left) (rules.binaryRest l left') ((tracked S).Made lo)
  unary : Tracks S rules.unary (tracked S)
  call : Tracks S rules.call (tracked S)
  callRest : ∀ {lo n callee callee'}, (tracked S).Made lo callee callee' n →
    Reader.Makes S n (rules.callRest callee) (rules.callRest callee') ((tracked S).Made lo)
  arguments : Tracks S rules.arguments (trackedAll S)
  argumentList : ∀ count, Tracks S (rules.argumentList count) (trackedAll S)
  primary : Tracks S rules.primary (tracked S)

/-- An assignment keeps the ids of an object it stores in, but not that of a variable it assigns
to. -/
theorem makes_assignTo {target target' value value' : Expr} {equals : Token} {mid n : Nat}
    (hequals : S.token equals) (ht : (tracked S).Made lo target target' mid)
    (hv : (tracked S).Made mid value value' n) :
    Makes S n (assignTo target equals value) (assignTo target' equals value')
      ((tracked S).Made lo) := by
  obtain rfl := ht.moved
  cases target with
  | «variable» id name =>
    refine Makes.fresh.bind fun hid => .pure (Made.sooner ?_ ht.le)
    exact hv.zip hid (tracked S) (fun v i => .assign i name v) .rfl (fun hv _ => ⟨ht.fits, hv⟩) rfl
  | get object name =>
    have ho : (tracked S).Made lo object (object.renumber (· + S.shift)) mid :=
      ⟨ht.le, ht.ids, ht.fits.2, rfl⟩
    exact .pure (ho.zip hv (tracked S) (.set · name ·) .rfl (fun ho hv => ⟨ht.fits.1, ho, hv⟩) rfl)
  | _ => exact .reportThen (S.line _ hequals) (.pure (ht.later hv.le))

/-- What a primary expression is made of. -/
theorem tracks_primaryOf {assignment : Reader Expr} (h : Tracks S assignment (tracked S))
    {t : Token} (hstarts : startsPrimary t.kind = true) (ht : S.token t) :
    Tracks S (primaryOf assignment t) (tracked S) := by
  intro n
  unfold primaryOf
  split
  · exact .pure (.leaf rfl trivial rfl)
  · exact .pure (.leaf rfl trivial rfl)
  · exact .pure (.leaf rfl trivial rfl)
  · next hk => exact .pure (.leaf rfl ⟨t, hk, ht⟩ rfl)
  · next hk => exact .pure (.leaf rfl ⟨t, hk, ht⟩ rfl)
  · next hk =>
    exact Makes.fresh.bind fun hid =>
      .pure (hid.map (tracked S) (.thisRef · t) .rfl (fun _ => ⟨hk, ht⟩) rfl)
  · next hk =>
    refine .expectThen fun _ _ _ => .expectThen fun method hname hmethod => ?_
    refine Makes.fresh.bind fun hid => .pure ?_
    exact hid.map (tracked S) (.superRef · t method) .rfl
      (fun _ => ⟨⟨hk, ht⟩, isName_iff.mp hname, hmethod⟩) rfl
  · refine (h n).bind fun hi => .expectThen fun _ _ _ => .pure ?_
    exact hi.map (tracked S) .grouping .rfl (fun hi => hi) rfl
  · have hname : IsName t := by
      unfold IsName
      unfold startsPrimary at hstarts
      split at hstarts <;> simp_all
    exact Makes.fresh.bind fun hid =>
      .pure (hid.map (tracked S) (.variable · t) .rfl (fun _ => ⟨hname, ht⟩) rfl)

/-- One step further the rules make what they should. -/
theorem Rules.Makes.step {rules : Rules} (h : rules.Makes S) : rules.step.Makes S where
  assignment n := (h.binary _ n).bind fun ht => .acceptThen (.pure ht) fun equals _ hequals =>
    (h.assignment _).bind fun hv => makes_assignTo hequals ht hv
  binary l n := (h.operand l n).bind fun hl => h.binaryRest l hl
  operand l := by
    cases l with
    | factor => exact h.unary
    | _ => exact h.binary _
  binaryRest l _ n left left' hl := by
    refine .acceptThen (.pure hl) fun operator ho hP => (h.operand l n).bind fun hr => ?_
    refine h.binaryRest l
      (hl.zip hr _ (l.node · operator ·) ?_ (madeOf_node ho hP) (renumber_node _ l _ _ _).symm)
    exact .of_eq (ids_node l _ _ operator).symm
  unary n := .acceptThen (h.call n) fun operator ho hP => (h.unary n).bind fun hr =>
    .pure (hr.map (tracked S) (.unary operator ·) .rfl (fun hr => ⟨⟨isUnary_iff.mp ho, hP⟩, hr⟩)
      rfl)
  call n := (h.primary n).bind fun hc => h.callRest hc
  callRest {_ n callee callee'} hc := by
    refine .acceptThen (.acceptThen (.pure hc) fun _ _ _ => ?_) fun _ _ _ => ?_
    · refine .expectThen fun name hname hP =>
        h.callRest (hc.map (tracked S) (.get · name) .rfl ?_ rfl)
      exact fun hc => ⟨⟨isName_iff.mp hname, hP⟩, hc⟩
    · refine (h.arguments n).bind fun ha => .expectThen fun paren hparen hP => ?_
      refine h.callRest (hc.zip ha (tracked S) (.call · paren ·) .rfl ?_ rfl)
      exact fun hc ha => ⟨⟨isSymbol_iff.mp hparen, hP⟩, hc, ha⟩
  arguments n := .checkThen fun b => by
    cases b with
    | true => exact .pure (.leaf rfl trivial rfl)
    | false => exact h.argumentList 0 n
  argumentList count n := by
    have hlist : Reader.Makes S n (commaList rules.assignment (rules.argumentList (count + 1)))
        (commaList rules.assignment (rules.argumentList (count + 1))) ((trackedAll S).Made n) := by
      refine (h.assignment n).bind fun he => .acceptThen (.pure ?_) fun _ _ _ => ?_
      · exact he.map (trackedAll S) (fun e => [e]) (.of_eq (List.append_nil _).symm)
          (fun he => ⟨he, trivial⟩) rfl
      · refine (h.argumentList (count + 1) _).bind fun hs => .pure ?_
        exact he.zip hs (trackedAll S) List.cons .rfl And.intro rfl
    dsimp only [Rules.step]
    split
    · exact .reportHereThen hlist
    · exact hlist
  primary n := .acceptThen .failHere fun t hstarts ht => tracks_primaryOf h.assignment hstarts ht n

theorem makes_bounded (depth : Nat) : (bounded depth).Makes S := by
  induction depth with
  | zero =>
    exact ⟨fun _ => .failHere, fun _ _ => .failHere, fun _ _ => .failHere,
      fun _ _ _ _ _ _ => .failHere, fun _ => .failHere, fun _ => .failHere, fun _ => .failHere,
      fun _ => .failHere, fun _ _ => .failHere, fun _ => .failHere⟩
  | succ depth ih =>
    rw [bounded_succ]
    exact ih.step

theorem tracks_read : Tracks S read (tracked S) :=
  fun n c hn hc => (makes_bounded (readDepth c.rest.length)).assignment n c hn hc

end Expr

/-! ## Statements -/

namespace Stmt

open Reader

/-- A statement from given tokens. -/
def tracked (S : Circumstances) : Tracked Stmt :=
  ⟨ids, MadeOf S.token, renumber (· + S.shift)⟩

/-- A statement from given tokens that can be a branch or a body. -/
def trackedBranch (S : Circumstances) : Tracked Stmt :=
  ⟨ids, fun s => s.declares? = none ∧ s.MadeOf S.token, renumber (· + S.shift)⟩

/-- Statements from given tokens. -/
def trackedAll (S : Circumstances) : Tracked (List Stmt) :=
  ⟨idsAll, MadeOfAll S.token, renumberAll (· + S.shift)⟩

/-- A statement from given tokens that may be missing. -/
def tracked? (S : Circumstances) : Tracked (Option Stmt) :=
  ⟨ids?, fun s? => ∀ s, s? = some s → s.MadeOf S.token, Option.map (renumber (· + S.shift))⟩

/-- A function from given tokens. -/
def trackedFunction (S : Circumstances) : Tracked FunctionDecl :=
  ⟨functionIds, FunctionMadeOf S.token, renumberFunction (· + S.shift)⟩

/-- Methods from given tokens. -/
def trackedMethods (S : Circumstances) : Tracked (List FunctionDecl) :=
  ⟨methodIds, MethodsMadeOf S.token, renumberMethods (· + S.shift)⟩

/-- Parameters from given tokens. They have no ids. -/
def trackedParams (S : Circumstances) : Tracked (List Token) :=
  ⟨fun _ => [], fun ps => ∀ p ∈ ps, IsName p ∧ S.token p, id⟩

/-- A superclass from given tokens, if there is one. -/
def trackedSuperclass (S : Circumstances) : Tracked (Option Expr) :=
  ⟨Expr.ids?, Expr.IsName? S.token, Option.map (Expr.renumber (· + S.shift))⟩

theorem made_some {s s' : Stmt} (h : (tracked S).Made lo s s' hi) :
    (tracked? S).Made lo (some s) (some s') hi :=
  h.map (tracked? S) some .rfl (fun hs _ heq => Option.some.inj heq ▸ hs) rfl

theorem made_none : (tracked? S).Made lo none none lo :=
  .leaf rfl (fun _ h => nomatch h) rfl

theorem made_of_branch {s s' : Stmt} (h : (trackedBranch S).Made lo s s' hi) :
    (tracked S).Made lo s s' hi :=
  ⟨h.le, h.ids, h.fits.2, h.moved⟩

/-- Declarations that follow each other, some of which could not be read. -/
theorem made_toList {first first' : Option Stmt} {rest rest' : List Stmt} {mid : Nat}
    (h : (tracked? S).Made lo first first' mid) (h' : (trackedAll S).Made mid rest rest' hi) :
    (trackedAll S).Made lo (first.toList ++ rest) (first'.toList ++ rest') hi := by
  refine h.zip h' (trackedAll S) (·.toList ++ ·) (.of_eq (idsAll_toList first rest).symm)
    (fun hs hrest => ?_) ?_
  · cases first with
    | none => exact hrest
    | some s => exact ⟨hs s rfl, hrest⟩
  · show (first.map (renumber (· + S.shift))).toList ++ renumberAll (· + S.shift) rest =
      renumberAll _ _
    rw [renumberAll_append, renumberAll_toList]

/-- A `for` adds no token of its own, and is no declaration. -/
theorem madeOf_forLoop {initializer : Option Stmt} {condition increment : Option Expr} {body : Stmt}
    (hi : ∀ s, initializer = some s → s.MadeOf P) (hc : Expr.MadeOf? P condition)
    (hu : Expr.MadeOf? P increment) (hb : body.declares? = none ∧ body.MadeOf P) :
    (forLoop initializer condition increment body).declares? = none ∧
      (forLoop initializer condition increment body).MadeOf P := by
  have hcond : (condition.getD (.literal .true)).MadeOf P := by
    cases condition with
    | none => trivial
    | some c => exact hc c rfl
  cases initializer with
  | none =>
    cases increment with
    | none => exact ⟨rfl, hcond, hb⟩
    | some u => exact ⟨rfl, hcond, rfl, hb.2, hu u rfl, trivial⟩
  | some s =>
    cases increment with
    | none => exact ⟨rfl, hi s rfl, ⟨hcond, hb⟩, trivial⟩
    | some u => exact ⟨rfl, hi s rfl, ⟨hcond, rfl, hb.2, hu u rfl, trivial⟩, trivial⟩

/-- One parameter and, after a comma, the others. -/
theorem tracks_params {others : Reader (List Token)} (h : Tracks S others (trackedParams S)) :
    Tracks S (commaList (expectName .paramName) others) (trackedParams S) := by
  refine fun n => .expectThen fun param hname hP => ?_
  have hparam : IsName param ∧ S.token param := ⟨isName_iff.mp hname, hP⟩
  refine .acceptThen (.pure (.leaf rfl (List.forall_mem_singleton.mpr hparam) rfl)) fun _ _ _ => ?_
  refine (h n).bind fun hs => .pure (hs.map (trackedParams S) (param :: ·) .rfl ?_ rfl)
  exact fun hs => List.forall_mem_cons.mpr ⟨hparam, hs⟩

theorem tracks_readParamList (depth count : Nat) :
    Tracks S (readParamList depth count) (trackedParams S) := by
  induction depth generalizing count with
  | zero => exact fun _ => .failHere
  | succ depth ih =>
    intro n
    have hlist := tracks_params (ih (count + 1)) n
    unfold readParamList
    split
    · exact .reportHereThen hlist
    · exact hlist

theorem tracks_readUnless (s : Symbol) : Tracks S (readUnless s) (Expr.tracked? S) := by
  refine fun n => .checkThen fun b => ?_
  cases b with
  | true => exact .pure Expr.made_none
  | false => exact (Expr.tracks_read n).bind fun he => .pure (Expr.made_some he)

theorem tracks_readExpression : Tracks S readExpression (trackedBranch S) :=
  fun n => (Expr.tracks_read n).bind fun he => .expectThen fun _ _ _ =>
    .pure (he.map (trackedBranch S) .expression .rfl (fun he => ⟨rfl, he⟩) rfl)

theorem tracks_readPrint : Tracks S readPrint (trackedBranch S) :=
  fun n => (Expr.tracks_read n).bind fun he => .expectThen fun _ _ _ =>
    .pure (he.map (trackedBranch S) .print .rfl (fun he => ⟨rfl, he⟩) rfl)

theorem tracks_readInitializer : Tracks S readInitializer (Expr.tracked? S) :=
  fun n => .acceptThen (.pure Expr.made_none) fun _ _ _ =>
    (Expr.tracks_read n).bind fun he => .pure (Expr.made_some he)

/-- What the declaration of a variable is made of. -/
theorem tracks_readVar : Tracks S readVar (tracked S) := by
  refine fun n => .expectThen fun name hname hP => (tracks_readInitializer n).bind fun he => ?_
  refine .expectThen fun _ _ _ => .pure (he.map (tracked S) (.var name ·) .rfl ?_ rfl)
  exact fun he => ⟨⟨isName_iff.mp hname, hP⟩, he⟩

theorem tracks_readReturn {word : Token} (hword : word.kind = .keyword .returnWord)
    (hP : S.token word) : Tracks S (readReturn word) (trackedBranch S) := by
  refine fun n => (tracks_readUnless .semicolon n).bind fun he => .expectThen fun _ _ _ => .pure ?_
  exact he.map (trackedBranch S) (.returnWith word ·) .rfl (fun he => ⟨rfl, ⟨hword, hP⟩, he⟩) rfl

theorem tracks_readForInitializer : Tracks S readForInitializer (tracked? S) := by
  refine fun n => .acceptThen (.acceptThen ?_ fun _ _ _ => ?_) fun _ _ _ => .pure made_none
  · exact (tracks_readExpression n).bind fun hs => .pure (made_some (made_of_branch hs))
  · exact (tracks_readVar n).bind fun hs => .pure (made_some hs)

theorem tracks_readSuperclass : Tracks S readSuperclass (trackedSuperclass S) := by
  refine fun n => .acceptThen (.pure (.leaf rfl (fun _ h => nomatch h) rfl)) fun _ _ _ => ?_
  refine .expectThen fun name hname hP => Makes.fresh.bind fun hid => .pure ?_
  refine hid.map (trackedSuperclass S) (fun id => some (.variable id name)) .rfl (fun _ e he => ?_)
    rfl
  exact ⟨_, name, (Option.some.inj he).symm, isName_iff.mp hname, hP⟩

/-- The rules of statements make their trees as they go. -/
structure Rules.Makes (S : Circumstances) (rules : Rules) : Prop where
  declaration : Tracks S rules.declaration (tracked? S)
  classDef : Tracks S rules.classDef (tracked S)
  methods : Tracks S rules.methods (trackedMethods S)
  function : ∀ callable, Tracks S (rules.function callable) (trackedFunction S)
  paramList : ∀ count, Tracks S (rules.paramList count) (trackedParams S)
  block : Tracks S rules.block (trackedAll S)
  declarations : Tracks S rules.declarations (trackedAll S)
  statement : Tracks S rules.statement (trackedBranch S)
  forLoop : Tracks S rules.forLoop (trackedBranch S)
  ifThen : Tracks S rules.ifThen (trackedBranch S)
  whileLoop : Tracks S rules.whileLoop (trackedBranch S)

namespace Rules.Makes

variable {rules : Rules}

theorem declarationOnce (h : rules.Makes S) : Tracks S rules.declarationOnce (tracked S) := by
  refine fun n =>
    .acceptThen (.acceptThen (.acceptThen ?_ fun _ _ _ => tracks_readVar n) fun _ _ _ => ?_)
      fun _ _ _ => h.classDef n
  · exact (h.statement n).mono fun hs => made_of_branch hs
  · exact (h.function _ n).bind fun hd =>
      .pure (hd.map (tracked S) .function .rfl (fun hd => hd) rfl)

theorem params (h : rules.Makes S) : Tracks S rules.params (trackedParams S) := by
  refine fun n => .checkThen fun b => ?_
  cases b with
  | true => exact .pure (.leaf rfl (fun _ h => nomatch h) rfl)
  | false => exact h.paramList 0 n

/-- What the statement that a token starts is made of. -/
theorem statementOf (h : rules.Makes S) {t : Token} (ht : S.token t) :
    Tracks S (rules.statementOf t) (trackedBranch S) := by
  intro n
  unfold Rules.statementOf
  split
  · exact h.forLoop n
  · exact h.ifThen n
  · exact h.whileLoop n
  · next hk => exact tracks_readReturn hk ht n
  · exact (h.block n).bind fun hb =>
      .pure (hb.map (trackedBranch S) .block .rfl (fun hb => ⟨rfl, hb⟩) rfl)
  · exact tracks_readPrint n

/-- Rules that go on up to a closing brace or the end. -/
theorem untilBrace {α : Type} {T : Tracked (List α)} {item : Reader (List α)} (hids : T.ids [] = [])
    (hfits : T.Fits []) (hmoved : [] = T.moved []) (h : Tracks S item T) : Tracks S (do
      if (← Reader.check (Kind.isSymbol .rightBrace)) || (← Reader.atEnd) then
        return []
      item) T := by
  refine fun n => .checkThen fun b => .atEndThen fun b' => ?_
  cases b || b' with
  | true => exact .pure (.leaf hids hfits hmoved)
  | false => exact h n

theorem step (h : rules.Makes S) : rules.step.Makes S where
  declaration n := ((h.declarationOnce n).mono fun hs => made_some hs).recovering fun _ =>
    made_none.later
  classDef n := by
    refine .expectThen fun name hname hP => (tracks_readSuperclass n).bind fun he => ?_
    refine .expectThen fun _ _ _ => (h.methods _).bind fun hd => .expectThen fun _ _ _ => .pure ?_
    exact he.zip hd (tracked S) (.classDef name · ·) .rfl
      (fun he hd => ⟨⟨isName_iff.mp hname, hP⟩, he, hd⟩) rfl
  methods := by
    refine untilBrace rfl trivial rfl fun n => (h.function _ n).bind fun hd => ?_
    exact (h.methods _).bind fun hs =>
      .pure (hd.zip hs (trackedMethods S) List.cons .rfl And.intro rfl)
  function _ n := by
    refine .expectThen fun name hname hP => .expectThen fun _ _ _ => (h.params n).bind fun hp => ?_
    refine .expectThen fun _ _ _ => .expectThen fun _ _ _ => (h.block _).bind fun hb => .pure ?_
    exact hp.zip hb (trackedFunction S) (⟨name, ·, ·⟩) .rfl
      (fun hp hb => ⟨⟨isName_iff.mp hname, hP⟩, hp, hb⟩) rfl
  paramList count n := by
    have hlist := tracks_params (h.paramList (count + 1)) n
    dsimp only [Rules.step]
    split
    · exact .reportHereThen hlist
    · exact hlist
  block n := (h.declarations n).bind fun hb => .expectThen fun _ _ _ => .pure hb
  declarations := untilBrace rfl trivial rfl fun n => (h.declaration n).bind fun hs =>
    (h.declarations _).bind fun hrest => .pure (made_toList hs hrest)
  statement n := .acceptThen (tracks_readExpression n) fun _ _ ht => h.statementOf ht n
  forLoop n := by
    refine .expectThen fun _ _ _ => (tracks_readForInitializer n).bind fun hs => ?_
    refine (tracks_readUnless _ _).bind fun hc => .expectThen fun _ _ _ => ?_
    refine (tracks_readUnless _ _).bind fun hu => .expectThen fun _ _ _ => ?_
    refine (h.statement _).bind fun hb => .pure ?_
    refine (hs.pair (hc.pair (hu.pair hb))).map (trackedBranch S)
      (fun p => Stmt.forLoop p.1 p.2.1 p.2.2.1 p.2.2.2) (ids_forLoop _ _ _ _) ?_
      (renumber_forLoop _ _ _ _ _).symm
    exact fun ⟨hs, hc, hu, hb⟩ => madeOf_forLoop hs hc hu hb
  ifThen n := by
    refine .expectThen fun _ _ _ => (Expr.tracks_read n).bind fun hc => .expectThen fun _ _ _ => ?_
    refine (h.statement _).bind fun hs => .acceptThen (.pure ?_) fun _ _ _ => ?_
    · exact hc.zip hs (trackedBranch S) .ifThen .rfl (fun hc hs => ⟨rfl, hc, hs⟩) rfl
    · refine (h.statement _).bind fun he => .pure ?_
      exact hc.zip (hs.pair he) (trackedBranch S) (fun c p => .ifThenElse c p.1 p.2) .rfl
        (fun hc hp => ⟨rfl, hc, hp⟩) rfl
  whileLoop n := by
    refine .expectThen fun _ _ _ => (Expr.tracks_read n).bind fun hc => .expectThen fun _ _ _ => ?_
    refine (h.statement _).bind fun hs => .pure ?_
    exact hc.zip hs (trackedBranch S) .whileLoop .rfl (fun hc hs => ⟨rfl, hc, hs⟩) rfl

end Rules.Makes

theorem makes_bounded (depth : Nat) : (bounded depth).Makes S := by
  have hparams (count : Nat) : Tracks S (fun c => readParamList (c.rest.length + 1) count c)
      (trackedParams S) :=
    fun n c hn hc => tracks_readParamList (c.rest.length + 1) count n c hn hc
  induction depth with
  | zero =>
    exact ⟨fun _ => .recovering .failHere fun _ => made_none.later, fun _ => .failHere,
      fun _ => .failHere, fun _ _ => .failHere, hparams, fun _ => .failHere, fun _ => .failHere,
      fun _ => .failHere, fun _ => .failHere, fun _ => .failHere, fun _ => .failHere⟩
  | succ depth ih => exact { ih.step with paramList := hparams }

/-- What a program is made of. -/
theorem tracks_readToEnd (depth count : Nat) : Tracks S (readToEnd depth count) (trackedAll S) := by
  induction count with
  | zero => exact fun n => .pure (.leaf rfl trivial rfl)
  | succ count ih =>
    refine fun n => .atEndThen fun b => ?_
    cases b with
    | true => exact .pure (.leaf rfl trivial rfl)
    | false =>
      exact ((makes_bounded depth).declaration n).bind fun hs => (ih _).bind fun hrest =>
        .pure (made_toList hs hrest)

end Stmt

/-! ## Programs -/

/-- All that is known of tokens is `P`, and nothing of lines. -/
def Circumstances.ofTokens (P : Token → Prop) (shift : Nat) : Circumstances :=
  ⟨P, fun _ => True, fun _ _ => trivial, shift⟩

/-- The reader starts with the tokens it is given. -/
theorem Cursor.ofTokens_within {tokens : List Token} (nextId : NodeId)
    (htokens : ∀ t ∈ tokens, S.token t) (hfirst : S.errorLine 1) :
    (Cursor.ofTokens tokens nextId).Within S where
  rest t ht := htokens t (List.takeWhile_subset _ ht)
  endLine := by
    unfold Cursor.ofTokens
    dsimp only
    split
    · next t ht => exact S.line t (htokens t (List.mem_of_find?_eq_some ht))
    · cases hlast : tokens.getLast? with
      | none => exact hfirst
      | some t => exact S.line t (htokens t (List.mem_of_getLast? hlast))
  errors _ he := by cases he

section

variable {tokens : List Token} {nextId : NodeId}

/-- Any tokens will do if only the counter matters. -/
theorem Cursor.ofTokens_within_true (tokens : List Token) (nextId k : NodeId) :
    (Cursor.ofTokens tokens nextId).Within (.ofTokens (fun _ => True) k) :=
  ofTokens_within nextId (fun _ _ => trivial) trivial

/-- What is made from two counters. -/
theorem Parse.made (hc : (Cursor.ofTokens tokens nextId).Within S) :
    (Stmt.trackedAll S).Made nextId (Parse.ofTokens tokens nextId).program
        (Parse.ofTokens tokens (nextId + S.shift)).program (Parse.ofTokens tokens nextId).nextId ∧
      (∀ e ∈ (Parse.ofTokens tokens nextId).errors, S.errorLine e.line) ∧
      (Parse.ofTokens tokens (nextId + S.shift)).errors = (Parse.ofTokens tokens nextId).errors ∧
      (Parse.ofTokens tokens (nextId + S.shift)).nextId = (Parse.ofTokens tokens nextId).nextId +
      S.shift ∧
      (Parse.ofTokens tokens (nextId + S.shift)).hadError =
      (Parse.ofTokens tokens nextId).hadError := by
  have hr : Reading.Paired S nextId ((Stmt.trackedAll S).Made nextId)
      (Stmt.readProgram (Cursor.ofTokens tokens nextId))
      (Stmt.readProgram (Cursor.ofTokens tokens (nextId + S.shift))) :=
    Stmt.tracks_readToEnd _ _ nextId _ rfl hc
  unfold Parse.ofTokens
  generalize Stmt.readProgram (Cursor.ofTokens tokens nextId) = x,
    Stmt.readProgram (Cursor.ofTokens tokens (nextId + S.shift)) = x' at hr ⊢
  cases hr with
  | done hc₁ hle hmade => exact ⟨hmade, hc₁.errors, rfl, rfl, rfl⟩
  | failed hc₁ hle he =>
    exact ⟨(Made.leaf rfl trivial rfl).later hle, (hc₁.report he).errors, rfl, rfl, rfl⟩

/-- **A program is made of the tokens that are read**, even if there are errors in it. -/
theorem Parse.madeOf (hP : ∀ t ∈ tokens, P t) :
    Stmt.MadeOfAll P (Parse.ofTokens tokens nextId).program :=
  (Parse.made (S := .ofTokens P 0) (Cursor.ofTokens_within nextId hP trivial)).1.fits

/-- The ids of a program lie between the counter before and after, and none occurs twice. -/
theorem Parse.ids_between (tokens : List Token) (nextId : NodeId) :
    nextId ≤ (Parse.ofTokens tokens nextId).nextId ∧
      Between nextId (Parse.ofTokens tokens nextId).nextId
      (Stmt.idsAll (Parse.ofTokens tokens nextId).program) := by
  have h := Parse.made (Cursor.ofTokens_within_true tokens nextId 0)
  exact ⟨h.1.le, h.1.ids⟩

/-- **Reading a program from a later id moves its ids on, and changes nothing else.** -/
theorem Parse.ofTokens_add (tokens : List Token) (nextId k : NodeId) :
    Parse.ofTokens tokens (nextId + k) =
      ⟨Stmt.renumberAll (· + k) (Parse.ofTokens tokens nextId).program,
      (Parse.ofTokens tokens nextId).errors,
        (Parse.ofTokens tokens nextId).nextId + k, (Parse.ofTokens tokens nextId).hadError⟩ := by
  obtain ⟨hmade, -, herrors, hnext, hflag⟩ :=
    Parse.made (Cursor.ofTokens_within_true tokens nextId k)
  exact (congr (congr (congr (congrArg Parse.mk hmade.moved) herrors) hnext) hflag :)

/-- **The errors in tokens are on the lines of the tokens**, or on the first line if there are
none. -/
theorem Parse.within_of_mem_errors {Q : Nat → Prop} (htokens : ∀ t ∈ tokens, Q t.line)
    (hfirst : Q 1) (he : e ∈ (Parse.ofTokens tokens nextId).errors) : Q e.line :=
  (Parse.made (S := ⟨fun t => Q t.line, Q, fun _ h => h, 0⟩)
    (Cursor.ofTokens_within nextId htokens hfirst)).2.1 e he

theorem Expr.tracks_readWhole : Reader.Tracks S Expr.readWhole (Expr.tracked S) := by
  refine fun n => (Expr.tracks_read n).bind fun he => .atEndThen fun b => ?_
  cases b with
  | true => exact .pure he
  | false => exact .failHere

/-- The expression that is made from two counters. -/
theorem ParsedExpr.made (hc : (Cursor.ofTokens tokens nextId).Within S) :
    (Expr.tracked? S).Made nextId (ParsedExpr.ofTokens tokens nextId).expr?
        (ParsedExpr.ofTokens tokens (nextId + S.shift)).expr?
        (ParsedExpr.ofTokens tokens nextId).nextId ∧
      (ParsedExpr.ofTokens tokens (nextId + S.shift)).errors =
        (ParsedExpr.ofTokens tokens nextId).errors ∧
      (ParsedExpr.ofTokens tokens (nextId + S.shift)).nextId =
        (ParsedExpr.ofTokens tokens nextId).nextId + S.shift := by
  have hr := Expr.tracks_readWhole nextId _ rfl hc
  change Reading.Paired S nextId _ _
    (Expr.readWhole (Cursor.ofTokens tokens (nextId + S.shift))) at hr
  unfold ParsedExpr.ofTokens
  generalize Expr.readWhole (Cursor.ofTokens tokens nextId) = x,
    Expr.readWhole (Cursor.ofTokens tokens (nextId + S.shift)) = x' at hr ⊢
  cases hr with
  | @done e e' c hc₁ hle hmade =>
    refine ⟨?_, rfl, rfl⟩
    show (Expr.tracked? S).Made nextId (if c.hadError then none else some e)
      (if c.hadError then none else some e') c.nextId
    split
    · exact Expr.made_none.later hle
    · exact Expr.made_some hmade
  | failed hc₁ hle he => exact ⟨Expr.made_none.later hle, rfl, rfl⟩

/-- The ids of an expression lie between the counter before and after, and none occurs twice. -/
theorem ParsedExpr.ids_between (tokens : List Token) (nextId : NodeId) :
    nextId ≤ (ParsedExpr.ofTokens tokens nextId).nextId ∧
      ∀ e, (ParsedExpr.ofTokens tokens nextId).expr? = some e →
        Between nextId (ParsedExpr.ofTokens tokens nextId).nextId e.ids := by
  have h := (ParsedExpr.made (Cursor.ofTokens_within_true tokens nextId 0)).1
  refine ⟨h.le, fun e he => ?_⟩
  have hids := h.ids
  rw [he] at hids
  exact hids

/-- Reading an expression from a later id moves its ids on, and changes nothing else. -/
theorem ParsedExpr.ofTokens_add (tokens : List Token) (nextId k : NodeId) :
    ParsedExpr.ofTokens tokens (nextId + k) =
      ⟨(ParsedExpr.ofTokens tokens nextId).expr?.map (Expr.renumber (· + k)),
        (ParsedExpr.ofTokens tokens nextId).errors, (ParsedExpr.ofTokens tokens nextId).nextId +
        k⟩ := by
  obtain ⟨hmade, herrors, hnext⟩ := ParsedExpr.made (Cursor.ofTokens_within_true tokens nextId k)
  exact (congr (congr (congrArg ParsedExpr.mk hmade.moved) herrors) hnext :)

end

end Lox
