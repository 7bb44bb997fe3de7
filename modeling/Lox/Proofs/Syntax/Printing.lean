import Mathlib.Data.Set.Function
import Lox.Proofs.Number.Texts
import Lox.Proofs.Syntax.Formed
import Lox.Proofs.Text.Nesting
import Lox.Proofs.Token.Rescanning

/-!
# Prefix notation shows trees

The text of a tree in prefix notation is that of a nested list, and the list can be read off the
text. How a list goes on after its first word says what node it is: minus with one operand is unary,
`if` with two branches has an `else`, and a superclass is a word where a method is a group. So a
tree can be read off its list, all but the ids of its nodes and the lines of its tokens
(`Expr.exists_nest`, `Stmt.exists_nest`).

The tree has to be made of tokens of a source. A name is then no constant and no number, and
operators are spelled as their kinds say. Strings stand without quotes in prefix notation, and may
look like anything.
-/

namespace Lox

open Grammar (IsSymbol IsName LogicalOperator BinaryOperator)

variable {x : Float}

/-! ## Trees without ids and lines -/

/-- A token as if it stood on no line. -/
def Token.bare (t : Token) : Token :=
  { t with line := 0 }

namespace Expr

mutual

/-- An expression without the ids of its nodes and the lines of its tokens. -/
def bare : Expr → Expr
  | .literal value => .literal value
  | .grouping inner => .grouping (bare inner)
  | .unary operator right => .unary operator.bare (bare right)
  | .binary left operator right => .binary (bare left) operator.bare (bare right)
  | .logical left operator right => .logical (bare left) operator.bare (bare right)
  | .variable _ name => .variable 0 name.bare
  | .assign _ name value => .assign 0 name.bare (bare value)
  | .call callee paren arguments => .call (bare callee) paren.bare (bareAll arguments)
  | .get object name => .get (bare object) name.bare
  | .set object name value => .set (bare object) name.bare (bare value)
  | .thisRef _ word => .thisRef 0 word.bare
  | .superRef _ word method => .superRef 0 word.bare method.bare

/-- Expressions without ids and lines. -/
def bareAll : List Expr → List Expr
  | [] => []
  | e :: rest => bare e :: bareAll rest

end

mutual

/-- An expression is shown as its bare tree. -/
theorem render_bare : ∀ e : Expr, e.bare.render = e.render
  | .literal _ | .variable _ _ | .thisRef _ _ | .superRef _ _ _ => rfl
  | .grouping e | .unary _ e | .assign _ _ e | .get e _ => by
    simp only [bare, render, Token.bare, render_bare e]
  | .binary a _ b | .logical a _ b | .set a _ b => by
    simp only [bare, render, Token.bare, render_bare a, render_bare b]
  | .call callee _ arguments => by
    simp only [bare, render, render_bare callee, renderAll_bare arguments]

theorem renderAll_bare : ∀ es : List Expr, renderAll (bareAll es) = renderAll es
  | [] => rfl
  | e :: rest => by simp only [bareAll, renderAll, render_bare e, renderAll_bare rest]

end

end Expr

namespace Stmt

mutual

/-- A statement without the ids of its nodes and the lines of its tokens. -/
def bare : Stmt → Stmt
  | .expression value => .expression value.bare
  | .print value => .print value.bare
  | .var name initializer => .var name.bare (initializer.map Expr.bare)
  | .block body => .block (bareAll body)
  | .ifThen condition thenBranch => .ifThen condition.bare (bare thenBranch)
  | .ifThenElse condition thenBranch elseBranch =>
    .ifThenElse condition.bare (bare thenBranch) (bare elseBranch)
  | .whileLoop condition body => .whileLoop condition.bare (bare body)
  | .function decl => .function (bareFunction decl)
  | .returnWith word value => .returnWith word.bare (value.map Expr.bare)
  | .classDef name superclass methods =>
    .classDef name.bare (superclass.map Expr.bare) (bareFunctions methods)

/-- Statements without ids and lines. -/
def bareAll : List Stmt → List Stmt
  | [] => []
  | s :: rest => bare s :: bareAll rest

/-- A function without ids and lines. -/
def bareFunction : FunctionDecl → FunctionDecl
  | ⟨name, params, body⟩ => ⟨name.bare, params.map Token.bare, bareAll body⟩

/-- Functions without ids and lines. -/
def bareFunctions : List FunctionDecl → List FunctionDecl
  | [] => []
  | d :: rest => bareFunction d :: bareFunctions rest

end

mutual

/-- A statement is shown as its bare tree. -/
theorem render_bare : ∀ s : Stmt, s.bare.render = s.render
  | .expression e | .print e | .var _ (some e) | .returnWith _ (some e) => by
    simp only [bare, Option.map, render, Token.bare, e.render_bare]
  | .var _ none | .returnWith _ none => rfl
  | .block body => by simp only [bare, render, renderAll_bare body]
  | .ifThen e s | .whileLoop e s => by simp only [bare, render, e.render_bare, render_bare s]
  | .ifThenElse e s s' => by simp only [bare, render, e.render_bare, render_bare s, render_bare s']
  | .function decl => renderFunction_bare decl
  | .classDef _ none methods => by
    simp only [bare, Option.map, render, Token.bare, renderFunctions_bare methods]
  | .classDef _ (some e) methods => by
    simp only [bare, Option.map, render, Token.bare, e.render_bare, renderFunctions_bare methods]

theorem renderAll_bare : ∀ body : List Stmt, renderAll (bareAll body) = renderAll body
  | [] => rfl
  | s :: rest => by simp only [bareAll, renderAll, render_bare s, renderAll_bare rest]

theorem renderFunction_bare : ∀ d : FunctionDecl, renderFunction (bareFunction d) = renderFunction d
  | ⟨_, _, body⟩ => by
    simp only [bareFunction, renderFunction, FunctionDecl.renderParams, renderAll_bare body,
      List.map_map]
    rfl

theorem renderFunctions_bare :
    ∀ ds : List FunctionDecl, renderFunctions (bareFunctions ds) = renderFunctions ds
  | [] => rfl
  | d :: rest => by
    simp only [bareFunctions, renderFunctions, renderFunction_bare d, renderFunctions_bare rest]

end

end Stmt

/-! ## Reading trees off nested lists -/

/-- The double with a given text in trees. -/
noncomputable def Number.ofTree : String → Float :=
  Function.invFunOn inTree {x | IsFinite x}

/-- A finite number is read back from a tree. -/
theorem Number.ofTree_inTree (hx : IsFinite x) : ofTree (inTree x) = x := by
  have hinj : Set.InjOn inTree {x | IsFinite x} := by
    intro x hx y hy heq
    have hread := standsFor_inTree hy
    rw [← heq] at hread
    exact (standsFor_inTree hx).unique hread
  exact hinj.leftInvOn_invFunOn hx

/-- Whether a word begins like a number. -/
def looksNumeric (text : String) : Bool :=
  text.toList.head?.any fun c => c.isDigit || c == '.' || c == '-'

namespace Token

/-- The token of a name. -/
def ofName (text : String) : Token :=
  ⟨.identifier, text, 0⟩

/-- The token of a reserved word. -/
def ofKeyword (k : Keyword) : Token :=
  ⟨.keyword k, k.text, 0⟩

/-- The token of a symbol. -/
def ofSymbol (s : Symbol) : Token :=
  ⟨.symbol s, s.text, 0⟩

/-- The token of an operator that is a symbol. -/
def ofOperator? (text : String) : Option Token :=
  (Symbol.all.find? fun s => s.text == text).map ofSymbol

end Token

namespace Expr

/-- The expression that a word is. -/
noncomputable def ofWord (text : String) : Expr :=
  if text = Keyword.trueWord.text then .literal .true
  else if text = Keyword.falseWord.text then .literal .false
  else if text = Keyword.nilWord.text then .literal .nil
  else if text = Keyword.thisWord.text then .thisRef 0 (.ofKeyword .thisWord)
  else if looksNumeric text then .literal (.number (Number.ofTree text))
  else .variable 0 (.ofName text)

mutual

/-- The expression that a nested list is. -/
noncomputable def ofNest? : Nest → Option Expr
  | .word text _ => some (ofWord text)
  | .group [.word "group" _, inner] => (ofNest? inner).map .grouping
  | .group [.word "super" _, .word method _] =>
    some (.superRef 0 (.ofKeyword .superWord) (.ofName method))
  | .group [.word "=" _, .word name _, value] => (ofNest? value).map (.assign 0 (.ofName name))
  | .group [.word "." _, object, .word name _] => (ofNest? object).map (.get · (.ofName name))
  | .group [.word "=." _, object, .word name _, value] => do
    return .set (← ofNest? object) (.ofName name) (← ofNest? value)
  | .group (.word "call" _ :: callee :: arguments) => do
    return .call (← ofNest? callee) (.ofSymbol .rightParen) (← ofNestAll? arguments)
  | .group [.word "and" _, left, right] => do
    return .logical (← ofNest? left) (.ofKeyword .andWord) (← ofNest? right)
  | .group [.word "or" _, left, right] => do
    return .logical (← ofNest? left) (.ofKeyword .orWord) (← ofNest? right)
  | .group [.word operator _, right] => do
    return .unary (← Token.ofOperator? operator) (← ofNest? right)
  | .group [.word operator _, left, right] => do
    return .binary (← ofNest? left) (← Token.ofOperator? operator) (← ofNest? right)
  | _ => none

/-- The expressions that nested lists are. -/
noncomputable def ofNestAll? : List Nest → Option (List Expr)
  | [] => some []
  | n :: rest => do return (← ofNest? n) :: (← ofNestAll? rest)

end

end Expr

namespace Stmt

/-- The function that a statement declares. -/
def function? : Stmt → Option FunctionDecl
  | .function decl => some decl
  | _ => none

mutual

/-- The statement that a nested list is. -/
noncomputable def ofNest? : Nest → Option Stmt
  | .group [.word ";" _, value] => (Expr.ofNest? value).map .expression
  | .group [.word "print" _, value] => (Expr.ofNest? value).map .print
  | .group [.word "var" _, .word name _] => some (.var (.ofName name) none)
  | .group [.word "var" _, .word name _, value] =>
    (Expr.ofNest? value).map fun e => .var (.ofName name) (some e)
  | .group (.word "block" _ :: body) => (ofNestAll? body).map .block
  | .group [.word "if" _, condition, thenBranch] => do
    return .ifThen (← Expr.ofNest? condition) (← ofNest? thenBranch)
  | .group [.word "if" _, condition, thenBranch, elseBranch] => do
    return .ifThenElse (← Expr.ofNest? condition) (← ofNest? thenBranch) (← ofNest? elseBranch)
  | .group [.word "while" _, condition, body] => do
    return .whileLoop (← Expr.ofNest? condition) (← ofNest? body)
  | .group (.word "fun" _ :: .word name _ :: .group params :: body) =>
    (ofNestAll? body).map fun body =>
      .function ⟨.ofName name, params.map fun p => .ofName p.write, body⟩
  | .group [.word "return" _] => some (.returnWith (.ofKeyword .returnWord) none)
  | .group [.word "return" _, value] =>
    (Expr.ofNest? value).map fun e => .returnWith (.ofKeyword .returnWord) (some e)
  | .group (.word "class" _ :: .word name _ :: .word "<" _ :: superclass :: methods) => do
    return .classDef (.ofName name) (← Expr.ofNest? superclass)
      ((← ofNestAll? methods).filterMap function?)
  | .group (.word "class" _ :: .word name _ :: methods) =>
    (ofNestAll? methods).map fun methods => .classDef (.ofName name) none
      (methods.filterMap function?)
  | _ => none

/-- The statements that nested lists are. -/
noncomputable def ofNestAll? : List Nest → Option (List Stmt)
  | [] => some []
  | n :: rest => do return (← ofNest? n) :: (← ofNestAll? rest)

end

end Stmt

/-! ## Words -/

theorem Keyword.looksNumeric_text (k : Keyword) : looksNumeric k.text = false := by
  cases k <;> decide

/-- The text of a finite number is one word, and looks like a number. -/
theorem Number.isWord_inTree (hx : IsFinite x) :
    Nest.IsWord (inTree x) ∧ looksNumeric (inTree x) = true := by
  obtain ⟨s, m, e, hparts⟩ := hx
  obtain ⟨cs, q, htext, hfixed, -⟩ := exists_fixed_inTree hparts
  have hchars : ∀ c ∈ (inTree x).toList, c.isDigit = true ∨ c = '.' ∨ c = '-' := by
    rw [htext]
    refine List.forall_mem_append.mpr ⟨?_, fun c hc => (hfixed.chars c hc).imp_right .inl⟩
    intro c hc
    cases s with
    | false => cases hc
    | true => exact .inr (.inr (List.mem_singleton.mp hc))
  have hne : (inTree x).toList ≠ [] := by
    rw [htext]
    exact List.append_ne_nil_of_right_ne_nil _ hfixed.ne_nil
  refine ⟨Nest.isWord_iff.mpr ⟨hne, fun c hc => ?_⟩, ?_⟩
  · intro hdivides
    simp only [Nest.divides, Bool.or_eq_true, beq_iff_eq] at hdivides
    rcases hdivides with ((rfl | rfl) | rfl) | rfl <;> exact absurd (hchars _ hc) (by decide)
  · obtain ⟨c, rest, hcons⟩ := List.exists_cons_of_ne_nil hne
    have hc := hchars c (hcons ▸ List.mem_cons_self)
    simpa [looksNumeric, hcons, or_assoc] using hc

/-- A token of a source without strings whose numbers are finite: it is spelled as its kind says. -/
structure Token.Shown (t : Token) : Prop where
  spelled : t.Spelled
  symbol : ∀ s, t.kind = .symbol s → t.lexeme = s.text
  word : t.kind = .identifier → Nest.IsWord t.lexeme ∧ looksNumeric t.lexeme = false
  string : ∀ text, t.kind ≠ .string text
  number : ∀ x, t.kind = .number x → Number.IsFinite x

namespace Token

variable {t : Token}

theorem bare_name (h : IsName t) : t.bare = .ofName t.lexeme := by
  rw [bare, ofName, ← h]

theorem Shown.bare_symbol (h : t.Shown) {s : Symbol} (hs : IsSymbol s t) :
    t.bare = .ofSymbol s := by
  rw [bare, ofSymbol, ← h.symbol s hs, ← hs]

theorem Shown.bare_keyword (h : t.Shown) {k : Keyword} (hk : Grammar.IsWord k t) :
    t.bare = .ofKeyword k := by
  rw [bare, ofKeyword, ← h.spelled.keyword k hk, ← hk]

end Token

/-- The word that a name is. -/
abbrev Nest.name {t : Token} (h : IsName t ∧ t.Shown) : Nest :=
  .word t.lexeme (h.2.word h.1).1

/-! ## Trees read off nested lists -/

/-- A node is read if its parts are. -/
theorem eq_of_parts {α β γ : Type} {x : Option α} {y : Option β} {a : α} {b : β} (f : α → β → γ)
    (hx : x = some a) (hy : y = some b) : (do return f (← x) (← y)) = some (f a b) := by
  rw [hx, hy]
  rfl

namespace Expr

theorem ofWord_of_ne {text : String} (h : ∀ k : Keyword, text ≠ k.text) : ofWord text =
    if looksNumeric text then .literal (.number (Number.ofTree text))
    else .variable 0 (.ofName text) := by
  rw [ofWord, if_neg (h .trueWord), if_neg (h .falseWord), if_neg (h .nilWord),
    if_neg (h .thisWord)]

/-- A word that shows a number is read as this number. -/
theorem ofWord_inTree (hx : Number.IsFinite x) :
    ofWord (Number.inTree x) = .literal (.number x) := by
  have hnumeric := (Number.isWord_inTree hx).2
  rw [ofWord_of_ne, if_pos hnumeric, Number.ofTree_inTree hx]
  intro k hk
  rw [hk, k.looksNumeric_text] at hnumeric
  cases hnumeric

section

variable {operator : Token} (h : operator.Shown)

include h

/-- A group of an operator and one part is a unary expression. -/
theorem ofNest?_unary (hop : IsSymbol .bang operator ∨ IsSymbol .minus operator) (a : Nest) :
    ∃ hword, ofNest? (.group [.word operator.lexeme hword, a]) =
      do return .unary operator.bare (← ofNest? a) := by
  rcases hop with hop | hop <;> (rw [h.symbol _ hop, h.bare_symbol hop]; exact ⟨by decide, rfl⟩)

/-- A group of an operator and two parts is a binary expression. -/
theorem ofNest?_binary (hop : ∃ l, BinaryOperator l operator.kind) (a b : Nest) :
    ∃ hword, ofNest? (.group [.word operator.lexeme hword, a, b]) = do
      return .binary (← ofNest? a) operator.bare (← ofNest? b) := by
  obtain ⟨l, hop⟩ := hop
  generalize hkind : operator.kind = kind at hop
  cases hop <;> (rw [h.symbol _ hkind, h.bare_symbol hkind]; exact ⟨by decide, rfl⟩)

theorem ofNest?_logical (hop : ∃ l, LogicalOperator l operator.kind) (a b : Nest) :
    ∃ hword, ofNest? (.group [.word operator.lexeme hword, a, b]) = do
      return .logical (← ofNest? a) operator.bare (← ofNest? b) := by
  obtain ⟨l, hop⟩ := hop
  generalize hkind : operator.kind = kind at hop
  cases hop <;> (rw [h.spelled.keyword _ hkind, h.bare_keyword hkind]; exact ⟨by decide, rfl⟩)

end

mutual

/-- **An expression can be read off a nested list with its text**, all but ids and lines. -/
theorem exists_nest : ∀ e : Expr, e.MadeOf Token.Shown → ∃ n : Nest, e.render = n.write ∧
      ofNest? n = some e.bare
  | .literal .true, _ => ⟨.word "true", rfl, rfl⟩
  | .literal .false, _ => ⟨.word "false", rfl, rfl⟩
  | .literal .nil, _ => ⟨.word "nil", rfl, rfl⟩
  | .literal (.number x), ⟨_, hkind, h⟩ => by
    have hx := h.number x hkind
    exact ⟨.word (Number.inTree x) (Number.isWord_inTree hx).1, rfl,
      congrArg some (ofWord_inTree hx)⟩
  | .literal (.string text), ⟨_, hkind, h⟩ => absurd hkind (h.string text)
  | .variable _ name, ⟨hname, h⟩ => by
    obtain ⟨hword, hnumeric⟩ := h.word hname
    refine ⟨.word name.lexeme hword, rfl, congrArg some ?_⟩
    rw [ofWord_of_ne (h.spelled.identifier hname), hnumeric, bare, Token.bare_name hname]
    rfl
  | .thisRef _ word, ⟨hword, h⟩ => by
    refine ⟨.word "this", rfl, ?_⟩
    rw [bare, h.bare_keyword hword]
    rfl
  | .grouping e, h => by
    obtain ⟨n, ht, hr⟩ := exists_nest e h
    exact ⟨.group [.word "group", n], by rw [render, ht]; rfl, congrArg (Option.map grouping) hr⟩
  | .unary operator e, ⟨⟨hop, h⟩, he⟩ => by
    obtain ⟨n, ht, hr⟩ := exists_nest e he
    obtain ⟨hword, hgroup⟩ := ofNest?_unary h hop n
    exact ⟨.group [.word operator.lexeme hword,
      n], by rw [render, ht]; rfl, by rw [hgroup, hr]; rfl⟩
  | .binary a operator b, ⟨⟨hop, h⟩, ha, hb⟩ => by
    obtain ⟨n, ht, hr⟩ := exists_nest a ha
    obtain ⟨n', ht', hr'⟩ := exists_nest b hb
    obtain ⟨hword, hgroup⟩ := ofNest?_binary h hop n n'
    exact ⟨.group [.word operator.lexeme hword, n,
      n'], by rw [render, ht, ht']; rfl, by rw [hgroup, hr, hr']; rfl⟩
  | .logical a operator b, ⟨⟨hop, h⟩, ha, hb⟩ => by
    obtain ⟨n, ht, hr⟩ := exists_nest a ha
    obtain ⟨n', ht', hr'⟩ := exists_nest b hb
    obtain ⟨hword, hgroup⟩ := ofNest?_logical h hop n n'
    exact ⟨.group [.word operator.lexeme hword, n,
      n'], by rw [render, ht, ht']; rfl, by rw [hgroup, hr, hr']; rfl⟩
  | .assign _ name e, ⟨hname, he⟩ => by
    obtain ⟨n, ht, hr⟩ := exists_nest e he
    refine ⟨.group [.word "=", .name hname, n], by rw [render, ht]; rfl, ?_⟩
    rw [bare, Token.bare_name hname.1]
    exact congrArg (Option.map (assign 0 (.ofName name.lexeme))) hr
  | .get e name, ⟨hname, he⟩ => by
    obtain ⟨n, ht, hr⟩ := exists_nest e he
    refine ⟨.group [.word ".", n, .name hname], by rw [render, ht]; rfl, ?_⟩
    rw [bare, Token.bare_name hname.1]
    exact congrArg (Option.map (get · (.ofName name.lexeme))) hr
  | .set a name b, ⟨hname, ha, hb⟩ => by
    obtain ⟨n, ht, hr⟩ := exists_nest a ha
    obtain ⟨n', ht', hr'⟩ := exists_nest b hb
    refine ⟨.group [.word "=.", n, .name hname, n'], by rw [render, ht, ht']; rfl, ?_⟩
    rw [bare, Token.bare_name hname.1]
    exact eq_of_parts (set · (.ofName name.lexeme) ·) hr hr'
  | .call callee paren arguments, ⟨⟨hparen, h⟩, hc, ha⟩ => by
    obtain ⟨n, ht, hr⟩ := exists_nest callee hc
    obtain ⟨ns, ht', hr'⟩ := exists_nests arguments ha
    refine ⟨.group (.word "call" :: n :: ns), by rw [render, ht, ht']; rfl, ?_⟩
    rw [bare, h.bare_symbol hparen]
    exact eq_of_parts (call · (.ofSymbol .rightParen) ·) hr hr'
  | .superRef _ word method, ⟨⟨hword, h⟩, hname⟩ => by
    refine ⟨.group [.word "super", .name hname], rfl, ?_⟩
    rw [bare, h.bare_keyword hword, Token.bare_name hname.1]
    rfl

theorem exists_nests : ∀ es : List Expr, MadeOfAll Token.Shown es →
    ∃ ns : List Nest, renderAll es = Nest.writeAll ns ∧ ofNestAll? ns = some (bareAll es)
  | [], _ => ⟨[], rfl, rfl⟩
  | e :: rest, ⟨he, hrest⟩ => by
    obtain ⟨n, ht, hr⟩ := exists_nest e he
    obtain ⟨ns, ht', hr'⟩ := exists_nests rest hrest
    exact ⟨n :: ns, by rw [renderAll, ht, ht']; rfl, by rw [ofNestAll?, hr, hr']; rfl⟩

end

end Expr

namespace Stmt

/-- The parameters of a function. -/
theorem exists_params {params : List Token} (h : ∀ p ∈ params, IsName p ∧ p.Shown) :
    ∃ ns : List Nest, FunctionDecl.renderParams params = (Nest.group ns).write ∧
      (ns.map fun n => Token.ofName n.write) = params.map Token.bare := by
  suffices hlist : ∃ ns : List Nest, params.map Token.lexeme = ns.map Nest.write ∧
      (ns.map fun n => Token.ofName n.write) = params.map Token.bare by
    obtain ⟨ns, ht, hr⟩ := hlist
    exact ⟨ns, by rw [Nest.write, Nest.writeAll_eq, ← ht]; rfl, hr⟩
  induction params with
  | nil => exact ⟨[], rfl, rfl⟩
  | cons p rest ih =>
    obtain ⟨hp, hrest⟩ := List.forall_mem_cons.mp h
    obtain ⟨ns, ht, hr⟩ := ih hrest
    refine ⟨.name hp :: ns, congrArg (p.lexeme :: ·) ht, ?_⟩
    rw [List.map_cons, List.map_cons, hr, Token.bare_name hp.1]
    rfl

theorem filterMap_function? (ds : List FunctionDecl) :
    (ds.map Stmt.function).filterMap function? = ds := by
  rw [List.filterMap_map]
  exact List.filterMap_some

mutual

/-- **A statement can be read off a nested list with its text**, all but ids and lines. -/
theorem exists_nest : ∀ s : Stmt, s.MadeOf Token.Shown → ∃ n : Nest, s.render = n.write ∧
      ofNest? n = some s.bare
  | .expression e, h => by
    obtain ⟨n, ht, hr⟩ := Expr.exists_nest e h
    exact ⟨.group [.word ";", n], by rw [render, ht]; rfl, congrArg (Option.map expression) hr⟩
  | .print e, h => by
    obtain ⟨n, ht, hr⟩ := Expr.exists_nest e h
    exact ⟨.group [.word "print", n], by rw [render, ht]; rfl, congrArg (Option.map print) hr⟩
  | .var name none, ⟨hname, _⟩ => by
    refine ⟨.group [.word "var", .name hname], rfl, ?_⟩
    rw [bare, Token.bare_name hname.1]
    rfl
  | .var name (some e), ⟨hname, he⟩ => by
    obtain ⟨n, ht, hr⟩ := Expr.exists_nest e (he e rfl)
    refine ⟨.group [.word "var", .name hname, n], by rw [render, ht]; rfl, ?_⟩
    rw [bare, Token.bare_name hname.1]
    exact congrArg (Option.map fun e => var (.ofName name.lexeme) (some e)) hr
  | .block body, h => by
    obtain ⟨ns, ht, hr⟩ := exists_nests body h
    exact ⟨.group (.word "block" :: ns), by rw [render, ht]; rfl, congrArg (Option.map block) hr⟩
  | .ifThen e s, ⟨he, _, hs⟩ => by
    obtain ⟨n, ht, hr⟩ := Expr.exists_nest e he
    obtain ⟨n', ht', hr'⟩ := exists_nest s hs
    exact ⟨.group [.word "if", n, n'], by rw [render, ht, ht']; rfl, eq_of_parts ifThen hr hr'⟩
  | .ifThenElse e s s', ⟨he, ⟨_, hs⟩, _, hs'⟩ => by
    obtain ⟨n, ht, hr⟩ := Expr.exists_nest e he
    obtain ⟨n', ht', hr'⟩ := exists_nest s hs
    obtain ⟨n'', ht'', hr''⟩ := exists_nest s' hs'
    refine ⟨.group [.word "if", n, n', n''], by rw [render, ht, ht', ht'']; rfl, ?_⟩
    show (Expr.ofNest? n).bind _ = _
    rw [hr]
    exact eq_of_parts (ifThenElse e.bare) hr' hr''
  | .whileLoop e s, ⟨he, _, hs⟩ => by
    obtain ⟨n, ht, hr⟩ := Expr.exists_nest e he
    obtain ⟨n', ht', hr'⟩ := exists_nest s hs
    exact ⟨.group [.word "while", n,
      n'], by rw [render, ht, ht']; rfl, eq_of_parts whileLoop hr hr'⟩
  | .function decl, h => exists_nest_function decl h
  | .returnWith word none, ⟨⟨hword, h⟩, _⟩ => by
    refine ⟨.group [.word "return"], rfl, ?_⟩
    rw [bare, h.bare_keyword hword]
    rfl
  | .returnWith word (some e), ⟨⟨hword, h⟩, he⟩ => by
    obtain ⟨n, ht, hr⟩ := Expr.exists_nest e (he e rfl)
    refine ⟨.group [.word "return", n], by rw [render, ht]; rfl, ?_⟩
    rw [bare, h.bare_keyword hword]
    exact congrArg (Option.map fun e => returnWith (.ofKeyword .returnWord) (some e)) hr
  | .classDef name none methods, ⟨hname, _, hm⟩ => by
    obtain ⟨ns, ht, hr⟩ := exists_nests_functions methods hm
    refine ⟨.group (.word "class" :: .name hname :: ns), by rw [render, ht]; rfl, ?_⟩
    -- A method is no word, so it is not taken for the sign in front of a superclass.
    have hgroup : ofNest? (.group (.word "class" :: .name hname :: ns)) =
        (ofNestAll? ns).map fun methods =>
        .classDef (.ofName name.lexeme) none (methods.filterMap function?) := by
      rcases ns with _ | ⟨_ | _, _⟩
      · rfl
      · cases hr
      · rfl
    rw [hgroup, hr, Option.map_some, filterMap_function?, bare, Token.bare_name hname.1]
    rfl
  | .classDef name (some e) methods, ⟨hname, hsuper, hm⟩ => by
    obtain ⟨id, superName, rfl, hname'⟩ := hsuper e rfl
    obtain ⟨n, ht, hr⟩ := Expr.exists_nest (.variable id superName) hname'
    obtain ⟨ns, ht', hr'⟩ := exists_nests_functions methods hm
    refine ⟨.group (.word "class" :: .name hname :: .word "<" :: n ::
      ns), by rw [render, ht, ht']; rfl, ?_⟩
    rw [bare, Token.bare_name hname.1, ← filterMap_function? (bareFunctions methods)]
    exact eq_of_parts (fun e ds => classDef (.ofName name.lexeme) (some e) (ds.filterMap function?))
      hr hr'

theorem exists_nests : ∀ body : List Stmt, MadeOfAll Token.Shown body →
    ∃ ns : List Nest, renderAll body = Nest.writeAll ns ∧ ofNestAll? ns = some (bareAll body)
  | [], _ => ⟨[], rfl, rfl⟩
  | s :: rest, ⟨hs, hrest⟩ => by
    obtain ⟨n, ht, hr⟩ := exists_nest s hs
    obtain ⟨ns, ht', hr'⟩ := exists_nests rest hrest
    exact ⟨n :: ns, by rw [renderAll, ht, ht']; rfl, by rw [ofNestAll?, hr, hr']; rfl⟩

theorem exists_nest_function : ∀ d : FunctionDecl, FunctionMadeOf Token.Shown d →
    ∃ n : Nest, renderFunction d = n.write ∧ ofNest? n = some (.function (bareFunction d))
  | ⟨name, params, body⟩, ⟨hname, hp, hb⟩ => by
    obtain ⟨ps, hparams, hbare⟩ := exists_params hp
    obtain ⟨ns, ht, hr⟩ := exists_nests body hb
    refine ⟨.group (.word "fun" :: .name hname :: .group ps ::
      ns), by rw [renderFunction, hparams, ht]; rfl, ?_⟩
    rw [bareFunction, Token.bare_name hname.1, ← hbare]
    exact congrArg (Option.map fun body => function ⟨_, _, body⟩) hr

theorem exists_nests_functions : ∀ ds : List FunctionDecl, MethodsMadeOf Token.Shown ds →
    ∃ ns : List Nest, renderFunctions ds = Nest.writeAll ns ∧
      ofNestAll? ns = some ((bareFunctions ds).map .function)
  | [], _ => ⟨[], rfl, rfl⟩
  | d :: rest, ⟨hd, hrest⟩ => by
    obtain ⟨n, ht, hr⟩ := exists_nest_function d hd
    obtain ⟨ns, ht', hr'⟩ := exists_nests_functions rest hrest
    exact ⟨n :: ns, by rw [renderFunctions, ht, ht']; rfl, by rw [ofNestAll?, hr, hr']; rfl⟩

end

end Stmt

/-! ## Programs of a source -/

/-- A kind that shows in prefix notation: no string, and a number only if it is finite. -/
def Kind.Plain : Kind → Prop
  | .string _ => False
  | .number x => Number.IsFinite x
  | _ => True

instance : DecidablePred Kind.Plain
  | .string _ => .isFalse id
  | .number x =>
    match h : Binary.ofFloat x with
    | .finite s m e => .isTrue ⟨s, m, e, h⟩
    | .infinite _ | .nan => .isFalse fun ⟨_, _, _, hfinite⟩ => by cases h.symm.trans hfinite
  | .symbol _ | .keyword _ | .identifier | .eof => .isTrue trivial

theorem isWord_lossy {b : UInt8} {rest : List UInt8} (hb : Byte.isWordStart b = true)
    (hrest : ∀ c ∈ rest, Byte.isWordPart c = true) :
    Nest.IsWord (Utf8.lossy (b :: rest)) ∧ looksNumeric (Utf8.lossy (b :: rest)) = false := by
  have hpart : ∀ n < 0x80, Byte.isWordPart (UInt8.ofNat n) = true →
      ¬Nest.divides (Char.ofNat n) := by decide
  have hstart : ∀ n < 0x80, Byte.isWordStart (UInt8.ofNat n) = true →
      ((Char.ofNat n).isDigit || Char.ofNat n == '.' || Char.ofNat n == '-') = false := by decide
  have hall : ∀ c ∈ b :: rest, Byte.isWordPart c = true :=
    List.forall_mem_cons.mpr ⟨by simp [Byte.isWordPart, hb], hrest⟩
  have htext : (Utf8.lossy (b :: rest)).toList = (b :: rest).map fun c => Char.ofNat c.toNat := by
    rw [Utf8.lossy, String.toList_ofList, Utf8.lossyChars_ascii fun c hc =>
      Segment.toNat_lt_of_isWordPart (hall c hc)]
  rw [Nest.isWord_iff, looksNumeric, htext]
  refine ⟨⟨List.cons_ne_nil _ _, List.forall_mem_map.mpr fun c hc => ?_⟩, ?_⟩
  · exact hpart c.toNat (Segment.toNat_lt_of_isWordPart (hall c hc))
      (by rw [UInt8.ofNat_toNat]; exact hall c hc)
  · refine hstart b.toNat (Segment.toNat_lt_of_isWordPart (hall b List.mem_cons_self)) ?_
    rw [UInt8.ofNat_toNat]
    exact hb

/-- A scanned token is shown by its text. -/
theorem Segment.shown_of_item? {s : Segment} {rest : List UInt8} {line : Nat} {t : Token}
    (h : s.form.MatchesAt s.bytes rest) (hitem : s.item? line = some (.ok t))
    (hplain : t.kind.Plain) : t.Shown := by
  have hspelled := spelled_of_item? hitem
  have hgives := gives_item? h line
  rw [hitem] at hgives
  obtain ⟨form, bytes⟩ := s
  cases hgives with
  | @token kind hkind =>
    refine ⟨hspelled, ?_, ?_, ?_, ?_⟩
    · rintro sym rfl
      cases hkind
      cases h with
      | rule h =>
        cases h
        exact Utf8.lossy_encode sym.text
    · rintro rfl
      cases hkind
      cases h with
      | rule h =>
        cases h with
        | word hb hrest => exact isWord_lossy hb hrest
    · rintro text rfl
      exact hplain
    · rintro x rfl
      exact hplain

/-- The tokens of a source without strings and infinite numbers show in prefix notation. -/
theorem Scan.shown {source : List UInt8} (h : ∀ t ∈ (ofSource source).tokens, t.kind.Plain) :
    ∀ t ∈ (ofSource source).tokens, t.Shown := by
  rw [tokens_ofSource] at h ⊢
  obtain ⟨h, -⟩ := List.forall_mem_append.mp h
  refine List.forall_mem_append.mpr ⟨?_, List.forall_mem_singleton.mpr ?_⟩
  · intro t ht
    obtain ⟨item, hmem, hitem⟩ := List.mem_filterMap.mp ht
    cases item with
    | ok t' =>
      cases hitem
      obtain ⟨s, rest, line, hmatch, hgives⟩ := Segment.exists_of_mem_itemsOf hmem
      exact Segment.shown_of_item? hmatch hgives (h _ ht)
    | error e => cases hitem
  · refine ⟨⟨fun _ hk => ?_, fun hk => ?_⟩, fun _ hk => ?_, fun hk => ?_, fun _ hk => ?_,
      fun _ hk => ?_⟩ <;> cases hk

namespace Parse

variable {source source' : List UInt8}

theorem exists_nests_program (h : ∀ t ∈ (Scan.ofSource source).tokens, t.kind.Plain)
    (nextId : NodeId) :
    ∃ ns : List Nest, Stmt.renderAll (ofTokens (Scan.ofSource source).tokens nextId).program =
      Nest.writeAll ns ∧
      Stmt.ofNestAll? ns =
      some (Stmt.bareAll (ofTokens (Scan.ofSource source).tokens nextId).program) :=
  Stmt.exists_nests _ (madeOf (Scan.shown h))

/-- **The text of a program in prefix notation shows the program.** Two programs that are read from
sources without strings and infinite numbers have the same text if and only if they differ in
nothing but the ids of nodes and the lines of tokens. This is so even if there are errors in the
sources. -/
theorem renderProgram_eq_iff_bareAll_eq (h : ∀ t ∈ (Scan.ofSource source).tokens, t.kind.Plain)
    (h' : ∀ t ∈ (Scan.ofSource source').tokens, t.kind.Plain) (nextId nextId' : NodeId) :
    Stmt.renderProgram (ofTokens (Scan.ofSource source).tokens nextId).program =
        Stmt.renderProgram (ofTokens (Scan.ofSource source').tokens nextId').program ↔
      Stmt.bareAll (ofTokens (Scan.ofSource source).tokens nextId).program =
        Stmt.bareAll (ofTokens (Scan.ofSource source').tokens nextId').program := by
  obtain ⟨ns, ht, hr⟩ := exists_nests_program h nextId
  obtain ⟨ns', ht', hr'⟩ := exists_nests_program h' nextId'
  constructor
  · intro htext
    rw [Stmt.renderProgram, Stmt.renderProgram, ht, ht'] at htext
    rw [Nest.eq_of_lines_eq htext, hr'] at hr
    exact (Option.some.inj hr).symm
  · intro hbare
    rw [Stmt.renderProgram, ← Stmt.renderAll_bare, hbare, Stmt.renderAll_bare, Stmt.renderProgram]

/-- Two ways to write down a difference. -/
theorem negations_shown_alike :
    (∀ t ∈ (Scan.ofSource (Utf8.encode "print -a - 1.5;")).tokens, t.kind.Plain) ∧
      (∀ t ∈ (Scan.ofSource (Utf8.encode "// minus\nprint-a-1.50;")).tokens, t.kind.Plain) ∧
      Stmt.bareAll (ofTokens (Scan.ofSource (Utf8.encode "print -a - 1.5;")).tokens 0).program =
        Stmt.bareAll
          (ofTokens (Scan.ofSource (Utf8.encode "// minus\nprint-a-1.50;")).tokens 7).program := by
  have h : ∀ t ∈ (Scan.ofSource (Utf8.encode "print -a - 1.5;")).tokens,
      t.kind.Plain := by decide +kernel
  have h' : ∀ t ∈ (Scan.ofSource (Utf8.encode "// minus\nprint-a-1.50;")).tokens,
      t.kind.Plain := by decide +kernel
  exact ⟨h, h', (renderProgram_eq_iff_bareAll_eq h h' 0 7).mp (by decide +kernel)⟩

end Parse

end Lox
