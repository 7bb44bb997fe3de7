import Lox.Proofs.Syntax.Making
import Lox.Proofs.Token.Lines

/-!
# What trees from a source look like

Not every tree can come from a source. The words `this` and `super` are spelled so, no declared name
is spelled like them, a superclass is a plain name, and a declaration never is the branch of an `if`
or the body of a loop. The last two come from the grammar, the others from the scanner: a word that
is spelled like a reserved word is one.
-/

namespace Lox

variable {t : Token}

/-! ## Spelling -/

/-- A token as the scanner gives it: a reserved word is spelled like one, and a name is not. -/
structure Token.Spelled (t : Token) : Prop where
  keyword : ∀ k, t.kind = .keyword k → t.lexeme = k.text
  identifier : t.kind = .identifier → ∀ k : Keyword, t.lexeme ≠ k.text

/-- A reserved word is spelled in one way. -/
theorem Keyword.text_of_ofText? {s : String} {k : Keyword} (h : ofText? s = some k) :
    s = k.text := by
  have hk := List.find?_some h
  exact (beq_iff_eq.mp hk).symm

theorem Keyword.ofText?_text (k : Keyword) : (ofText? k.text).isSome = true := by
  cases k <;> decide

/-- A scanned token is spelled as its kind says. -/
theorem Segment.spelled_of_item? {s : Segment} {line : Nat} (h : s.item? line = some (.ok t)) :
    t.Spelled := by
  unfold item? at h
  split at h <;> cases h
  · exact ⟨fun _ h => (nomatch h), fun h => (nomatch h)⟩
  · exact ⟨fun _ h => (nomatch h), fun h => (nomatch h)⟩
  · exact ⟨fun _ h => (nomatch h), fun h => (nomatch h)⟩
  · refine ⟨fun k hk => ?_, fun hi k hk => ?_⟩
    · simp only [wordKind] at hk
      split at hk <;> cases hk
      next h => exact Keyword.text_of_ofText? h
    · have hsome := k.ofText?_text
      simp only [wordKind] at hi hk
      rw [← hk] at hsome
      split at hi
      · cases hi
      · next h => rw [h] at hsome; cases hsome

theorem Segment.spelled_of_mem_items {line : Nat} {segments : List Segment}
    (h : .ok t ∈ items line segments) : t.Spelled := by
  induction segments generalizing line with
  | nil =>
    simp only [items, List.mem_singleton, Except.ok.injEq] at h
    subst h
    exact ⟨fun _ h => (by cases h), fun h => (by cases h)⟩
  | cons s rest ih =>
    rw [items, List.mem_append] at h
    rcases h with h | h
    · exact spelled_of_item? (Option.mem_toList.mp h)
    · exact ih h

/-- The tokens of a source are spelled as their kinds say. -/
theorem Scan.spelled {source : List UInt8} (h : t ∈ (Scan.ofSource source).tokens) : t.Spelled :=
  Segment.spelled_of_mem_items (mem_tokens_ofItems.mp h)

/-! ## Trees -/

namespace Expr

mutual

/-- The words `this` and `super` are spelled so. -/
def Formed : Expr → Prop
  | .literal _ => True
  | .grouping inner => Formed inner
  | .unary _ right => Formed right
  | .binary left _ right => Formed left ∧ Formed right
  | .logical left _ right => Formed left ∧ Formed right
  | .variable _ _ => True
  | .assign _ _ value => Formed value
  | .call callee _ arguments => Formed callee ∧ FormedAll arguments
  | .get object _ => Formed object
  | .set object _ value => Formed object ∧ Formed value
  | .thisRef _ word => word.lexeme = "this"
  | .superRef _ word _ => word.lexeme = "super"

/-- Each expression is formed. -/
def FormedAll : List Expr → Prop
  | [] => True
  | e :: rest => Formed e ∧ FormedAll rest

end

/-- An expression that may be missing is formed. -/
def Formed? (e? : Option Expr) : Prop :=
  ∀ e, e? = some e → e.Formed

end Expr

/-- A name that can be declared. -/
abbrev Token.IsFree (name : Token) : Prop := name.lexeme ≠ "this" ∧ name.lexeme ≠ "super"

namespace Stmt

mutual

/-- Declared names are free, a superclass is a name, and branches and bodies are no declarations. -/
def Formed : Stmt → Prop
  | .expression value => value.Formed
  | .print value => value.Formed
  | .var name initializer => name.IsFree ∧ Expr.Formed? initializer
  | .block body => FormedAll body
  | .ifThen condition thenBranch =>
    condition.Formed ∧ thenBranch.declares? = none ∧ Formed thenBranch
  | .ifThenElse condition thenBranch elseBranch =>
    condition.Formed ∧ (thenBranch.declares? = none ∧ Formed thenBranch) ∧
      elseBranch.declares? = none ∧ Formed elseBranch
  | .whileLoop condition body => condition.Formed ∧ body.declares? = none ∧ Formed body
  | .function decl => FormedFunction decl
  | .returnWith _ value => Expr.Formed? value
  | .classDef name superclass methods =>
    name.IsFree ∧ (∀ e, superclass = some e → ∃ id superName, e = .variable id superName) ∧
      FormedMethods methods

/-- Each statement is formed. -/
def FormedAll : List Stmt → Prop
  | [] => True
  | s :: rest => Formed s ∧ FormedAll rest

/-- The function's names are free and its body is formed. -/
def FormedFunction : FunctionDecl → Prop
  | ⟨name, params, body⟩ => name.IsFree ∧ (∀ p ∈ params, p.IsFree) ∧ FormedAll body

/-- Each method is formed. -/
def FormedMethods : List FunctionDecl → Prop
  | [] => True
  | d :: rest => FormedFunction d ∧ FormedMethods rest

end

end Stmt

/-! ## Trees made of spelled tokens -/

/-- A name is free, because `this` and `super` are reserved words. -/
theorem Token.Spelled.isFree (h : t.Spelled) (hname : Grammar.IsName t) : t.IsFree :=
  ⟨h.identifier hname .thisWord, h.identifier hname .superWord⟩

namespace Expr

mutual

/-- An expression made of such tokens is well-formed. -/
theorem formed_of_madeOf : ∀ (e : Expr), e.MadeOf Token.Spelled → e.Formed
  | .literal _, _ | .variable _ _, _ => trivial
  | .grouping e, h => formed_of_madeOf e h
  | .unary _ e, ⟨_, h⟩ | .assign _ _ e, ⟨_, h⟩ | .get e _, ⟨_, h⟩ => formed_of_madeOf e h
  | .binary a _ b, ⟨_, ha, hb⟩ | .logical a _ b, ⟨_, ha, hb⟩ | .set a _ b, ⟨_, ha, hb⟩ =>
    ⟨formed_of_madeOf a ha, formed_of_madeOf b hb⟩
  | .call callee _ arguments, ⟨_, hc, ha⟩ =>
    ⟨formed_of_madeOf callee hc, formedAll_of_madeOf arguments ha⟩
  | .thisRef _ _, ⟨hkind, h⟩ | .superRef _ _ _, ⟨⟨hkind, h⟩, _⟩ => h.keyword _ hkind

theorem formedAll_of_madeOf : ∀ (es : List Expr), MadeOfAll Token.Spelled es → FormedAll es
  | [], _ => trivial
  | e :: rest, ⟨h, hs⟩ => ⟨formed_of_madeOf e h, formedAll_of_madeOf rest hs⟩

end

theorem formed?_of_madeOf {e? : Option Expr} (h : MadeOf? Token.Spelled e?) : Formed? e? :=
  fun e he => formed_of_madeOf e (h e he)

end Expr

namespace Stmt

mutual

/-- A statement made of such tokens is well-formed. -/
theorem formed_of_madeOf : ∀ (s : Stmt), s.MadeOf Token.Spelled → s.Formed
  | .expression e, h | .print e, h => Expr.formed_of_madeOf e h
  | .var _ _, ⟨⟨hname, h⟩, hi⟩ => ⟨h.isFree hname, Expr.formed?_of_madeOf hi⟩
  | .block body, h => formedAll_of_madeOf body h
  | .ifThen e s, ⟨he, hd, hs⟩ | .whileLoop e s, ⟨he, hd, hs⟩ =>
    ⟨Expr.formed_of_madeOf e he, hd, formed_of_madeOf s hs⟩
  | .ifThenElse e s s', ⟨he, ⟨hd, hs⟩, hd', hs'⟩ =>
    ⟨Expr.formed_of_madeOf e he, ⟨hd, formed_of_madeOf s hs⟩, hd', formed_of_madeOf s' hs'⟩
  | .function decl, h => formedFunction_of_madeOf decl h
  | .returnWith _ _, ⟨_, h⟩ => Expr.formed?_of_madeOf h
  | .classDef _ _ methods, ⟨⟨hname, h⟩, hsuper, hm⟩ => by
    refine ⟨h.isFree hname, fun e he => ?_, formedMethods_of_madeOf methods hm⟩
    obtain ⟨id, superName, heq, -⟩ := hsuper e he
    exact ⟨id, superName, heq⟩

theorem formedAll_of_madeOf : ∀ (body : List Stmt), MadeOfAll Token.Spelled body → FormedAll body
  | [], _ => trivial
  | s :: rest, ⟨h, hs⟩ => ⟨formed_of_madeOf s h, formedAll_of_madeOf rest hs⟩

theorem formedFunction_of_madeOf :
    ∀ (d : FunctionDecl), FunctionMadeOf Token.Spelled d → FormedFunction d
  | ⟨_, _, body⟩, ⟨⟨hname, h⟩, hp, hb⟩ =>
    ⟨h.isFree hname, fun p hmem => (hp p hmem).2.isFree (hp p hmem).1, formedAll_of_madeOf body hb⟩

theorem formedMethods_of_madeOf :
    ∀ (ds : List FunctionDecl), MethodsMadeOf Token.Spelled ds → FormedMethods ds
  | [], _ => trivial
  | d :: rest, ⟨h, hs⟩ => ⟨formedFunction_of_madeOf d h, formedMethods_of_madeOf rest hs⟩

end

end Stmt

/-- **A program read from a source is formed, even if there are errors in it.** -/
theorem Parse.formed_of_source (source : List UInt8) (nextId : NodeId) :
    Stmt.FormedAll (Parse.ofTokens (Scan.ofSource source).tokens nextId).program :=
  Stmt.formedAll_of_madeOf _ (Parse.madeOf fun _ => Scan.spelled)

end Lox
