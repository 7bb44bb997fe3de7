import Lox.Syntax.Basic
import Mathlib.Data.List.Induction

/-!
# Outlines

The outline of a program is what its text says about scopes, as one list of marks: where a scope
opens and closes, which names are declared, and where names are used. Nothing in it is looked up. It
is in the order of the text, except that an assigned value stands before its target and the
increment of a `for` loop after its body; neither of the two can declare a name around the other.

The marks before a place say which scopes are around it. Between a mark and the place some scopes
are entered and not left; their number (`rise`) says how far out the mark stands. So the scope that
`d` others lie inside of is the one with its opening `d` scopes out (`Around`), and the names it
declares are those of the declarations `d` scopes out (`Declared`).
-/

namespace Lox

/-- What a scope is opened for. -/
inductive Opening where
  | block
  | function (name : Token)
  | method (name : Token)
  /-- Around a class that inherits, for `super`. -/
  | superclass
  /-- Around the methods of a class, for `this`. -/
  | methods (inherits : Bool)

namespace Opening

/-- Whether the scope is that of a function or a method. -/
def isFunction : Opening → Bool
  | function _ | method _ => true
  | _ => false

/-- Whether the scope is that around the methods of a class. -/
def isClass : Opening → Bool
  | methods _ => true
  | _ => false

end Opening

/-- A place in the text that has to do with scopes. -/
inductive Mark where
  | opens (o : Opening)
  | closes
  | declares (name : Token)
  /-- Declares a variable whose initial value comes next. -/
  | initializes (name : Token)
  /-- The initial value is over. -/
  | initialized
  /-- The language declares a word. -/
  | provides (word : String)
  | reads (id : NodeId) (name : Token)
  | assigns (id : NodeId) (name : Token)
  | usesThis (id : NodeId) (word : Token)
  | usesSuper (id : NodeId) (word : Token)
  | returns (word : Token) (hasValue : Bool)
  | inherits (name superName : Token)

namespace Mark

/-- The name that a mark declares. -/
def name? : Mark → Option String
  | declares name | initializes name => some name.lexeme
  | provides word => some word
  | _ => none

/-- The node and the name of a use. -/
def use? : Mark → Option (NodeId × String)
  | reads id name | assigns id name => some (id, name.lexeme)
  | usesThis id _ => some (id, "this")
  | usesSuper id _ => some (id, "super")
  | _ => none

/-- How many scopes are entered after a mark, if `d` are before it. There is none to leave if there
are none. -/
def move : Mark → Nat → Option Nat
  | opens _, d => some (d + 1)
  | closes, 0 => none
  | closes, d + 1 => some d
  | _, d => some d

end Mark

/-! ## The outline of a tree -/

namespace Expr

mutual

/-- The outline of an expression. -/
def outline : Expr → List Mark
  | .literal _ => []
  | .grouping inner => outline inner
  | .unary _ right => outline right
  | .binary left _ right => outline left ++ outline right
  | .logical left _ right => outline left ++ outline right
  | .variable id name => [.reads id name]
  | .assign id name value => outline value ++ [.assigns id name]
  | .call callee _ arguments => outline callee ++ outlineAll arguments
  | .get object _ => outline object
  | .set object _ value => outline value ++ outline object
  | .thisRef id word => [.usesThis id word]
  | .superRef id word _ => [.usesSuper id word]

/-- The outline of expressions. -/
def outlineAll : List Expr → List Mark
  | [] => []
  | e :: rest => outline e ++ outlineAll rest

end

/-- The outline of an expression that may be missing. -/
def outline? : Option Expr → List Mark
  | none => []
  | some e => e.outline

/-- The outline of what a class inherits from. -/
def superclassOutline (name : Token) : Expr → List Mark
  | .variable id superName => [.inherits name superName, .reads id superName]
  | e => e.outline

end Expr

namespace Stmt

/-- The outline of a class up to its methods. -/
def classEntry (name : Token) : Option Expr → List Mark
  | none => [.declares name, .opens (.methods false), .provides "this"]
  | some e => .declares name :: (e.superclassOutline name ++
      [.opens .superclass, .provides "super", .opens (.methods true), .provides "this"])

/-- The outline of a class after its methods. -/
def classExit : Option Expr → List Mark
  | none => [.closes]
  | some _ => [.closes, .closes]

mutual

/-- The outline of a statement. -/
def outline : Stmt → List Mark
  | .expression value => value.outline
  | .print value => value.outline
  | .var name none => [.declares name]
  | .var name (some value) => .initializes name :: (value.outline ++ [.initialized])
  | .block body => .opens .block :: (outlineAll body ++ [.closes])
  | .ifThen condition thenBranch => condition.outline ++ outline thenBranch
  | .ifThenElse condition thenBranch elseBranch =>
    condition.outline ++ outline thenBranch ++ outline elseBranch
  | .whileLoop condition body => condition.outline ++ outline body
  | .function decl => .declares decl.name :: functionOutline (.function decl.name) decl
  | .returnWith word value => .returns word value.isSome :: Expr.outline? value
  | .classDef name superclass methods =>
    classEntry name superclass ++ methodsOutline methods ++ classExit superclass

/-- The outline of a function: its parameters and its body. -/
def functionOutline (o : Opening) : FunctionDecl → List Mark
  | ⟨_, params, body⟩ => .opens o :: (params.map Mark.declares ++ outlineAll body ++ [.closes])

/-- The outline of statements. -/
def outlineAll : List Stmt → List Mark
  | [] => []
  | s :: rest => outline s ++ outlineAll rest

/-- The outline of methods. -/
def methodsOutline : List FunctionDecl → List Mark
  | [] => []
  | d :: rest => functionOutline (.method d.name) d ++ methodsOutline rest

end

end Stmt

/-! ## What is around a place -/

namespace Outline

/-- How many scopes the marks enter and do not leave. There is no such number if they leave a scope
that was open before. -/
def rise (marks : List Mark) : Option Nat :=
  marks.foldl (fun d? m => d?.bind m.move) (some 0)

/-- Some mark of a kind stands before the place, `d` scopes out. -/
def Behind (kind : Mark → Prop) (A : List Mark) (d : Nat) : Prop :=
  ∃ before m between, A = before ++ m :: between ∧ kind m ∧ rise between = some d

/-- The scope around the place that `d` scopes around the place lie inside of. -/
def Around (A : List Mark) (d : Nat) (o : Opening) : Prop :=
  Behind (· = .opens o) A d

/-- No scope is around the place. -/
def AtTop (A : List Mark) : Prop :=
  ∀ d o, ¬Around A d o

/-- The scope `d` scopes out declares a name before the place. -/
def Declared (A : List Mark) (d : Nat) (name : String) : Prop :=
  (∃ o, Around A d o) ∧ Behind (fun m => m.name? = some name) A d

/-- A name is declared before the place outside of all scopes. -/
def DeclaredOnTop (A : List Mark) (name : String) : Prop :=
  ∃ before m between, A = before ++ m :: between ∧ m.name? = some name ∧ AtTop before

/-- The place is in the initial value of a variable, and the marks `before` are those before the
variable. -/
def Initializing (A before : List Mark) (name : Token) : Prop :=
  ∃ between, A = before ++ .initializes name :: between ∧ .initialized ∉ between

/-- The innermost scope of a kind around the place, if there is one. -/
def Nearest (kind : Opening → Bool) (A : List Mark) : Option Opening → Prop
  | none => ∀ d o, Around A d o → kind o = false
  | some o => kind o = true ∧ ∃ d, Around A d o ∧ ∀ d' < d, ∀ o', Around A d' o' → kind o' = false

/-- The number of scopes inside the innermost scope around the place that declares a name. -/
def IsAddress (A : List Mark) (name : String) (d : Nat) : Prop :=
  Declared A d name ∧ ∀ d' < d, ¬Declared A d' name

/-! ## One mark more -/

variable {A : List Mark} {m : Mark} {d : Nat} {name : String} {o : Opening} {kind : Opening → Bool}

/-- One more mark moves the number of open scopes on. -/
theorem rise_concat (A : List Mark) (m : Mark) : rise (A ++ [m]) = (rise A).bind m.move := by
  simp [rise]

/-- A place of a list with one more mark is its end, or a place of the list. -/
theorem concat_eq_append_cons {before between : List Mark} {n : Mark}
    (h : A ++ [m] = before ++ n :: between) :
    before = A ∧ n = m ∧ between = [] ∨ ∃ rest, between = rest ++ [m] ∧
      A = before ++ n :: rest := by
  rcases between.eq_nil_or_concat with rfl | ⟨rest, m', rfl⟩
  · obtain ⟨rfl, hm⟩ := List.append_inj' h rfl
    cases hm
    exact .inl ⟨rfl, rfl, rfl⟩
  · rw [List.concat_eq_append, ← List.cons_append, ← List.append_assoc] at h
    obtain ⟨rfl, hm⟩ := List.append_inj' h rfl
    cases hm
    exact .inr ⟨rest, List.concat_eq_append, rfl⟩

theorem behind_nil {kind : Mark → Prop} : ¬Behind kind [] d := by
  rintro ⟨before, m, between, h, -⟩
  simp at h

/-- Of the marks before a place, the last one is in the innermost scope. -/
theorem behind_concat {kind : Mark → Prop} :
    Behind kind (A ++ [m]) d ↔ kind m ∧ d = 0 ∨ ∃ d', Behind kind A d' ∧ m.move d' = some d := by
  constructor
  · rintro ⟨before, n, between, hA, hn, hrise⟩
    rcases concat_eq_append_cons hA with ⟨rfl, rfl, rfl⟩ | ⟨between, rfl, rfl⟩
    · cases hrise
      exact .inl ⟨hn, rfl⟩
    · rw [rise_concat, Option.bind_eq_some_iff] at hrise
      obtain ⟨d', hd', hm⟩ := hrise
      exact .inr ⟨d', ⟨before, n, between, rfl, hn, hd'⟩, hm⟩
  · rintro (⟨hm, rfl⟩ | ⟨d', ⟨before, n, between, rfl, hn, hd'⟩, hm⟩)
    · exact ⟨A, m, [], rfl, hm, rfl⟩
    · exact ⟨before, n, between ++ [m], by simp, hn, by rw [rise_concat, hd']; exact hm⟩

/-- A scope that opens is the innermost, and the others are one further out. -/
theorem around_opens {o' : Opening} :
    Around (A ++ [Mark.opens o]) d o' ↔ d = 0 ∧ o' = o ∨ ∃ d', d = d' + 1 ∧ Around A d' o' := by
  simp only [Around, behind_concat, Mark.move, Mark.opens.injEq, Option.some.injEq]
  grind

/-- When a scope closes, the others are one nearer. -/
theorem around_closes : Around (A ++ [Mark.closes]) d o ↔ Around A (d + 1) o := by
  simp only [Around, behind_concat, reduceCtorEq, false_and, false_or]
  constructor
  · rintro ⟨_ | d', h, hm⟩
    · cases hm
    · cases hm
      exact h
  · intro h
    exact ⟨d + 1, h, rfl⟩

/-- Other marks leave the scopes alone. -/
theorem around_beside (hm : ∀ d, m.move d = some d) : Around (A ++ [m]) d o ↔ Around A d o := by
  have hne : m ≠ .opens o := by
    rintro rfl
    simp [Mark.move] at hm
  simp [Around, behind_concat, hm, hne]

/-- In a new scope nothing is declared yet. -/
theorem declared_opens :
    Declared (A ++ [Mark.opens o]) d name ↔ ∃ d', d = d' + 1 ∧ Declared A d' name := by
  simp only [Declared, around_opens, behind_concat, Mark.move, Mark.name?, reduceCtorEq, false_and,
    false_or, Option.some.injEq]
  grind

/-- When a scope closes, its names are gone. -/
theorem declared_closes : Declared (A ++ [Mark.closes]) d name ↔ Declared A (d + 1) name := by
  simp only [Declared, around_closes, behind_concat, Mark.name?, reduceCtorEq, false_and, false_or]
  refine and_congr_right fun _ => ⟨?_, fun h => ⟨d + 1, h, rfl⟩⟩
  rintro ⟨_ | d', h, hm⟩
  · cases hm
  · cases hm
    exact h

/-- A mark in a scope declares its name in the innermost one. -/
theorem declared_beside (hm : ∀ d, m.move d = some d) :
    Declared (A ++ [m]) d name ↔ Declared A d name ∨ m.name? = some name ∧ d = 0 ∧
      ∃ o, Around A 0 o := by
  simp only [Declared, around_beside hm, behind_concat, hm, Option.some.injEq]
  grind

theorem declaredOnTop_concat :
    DeclaredOnTop (A ++ [m]) name ↔ DeclaredOnTop A name ∨ m.name? = some name ∧ AtTop A := by
  constructor
  · rintro ⟨before, n, between, hA, hn, htop⟩
    rcases concat_eq_append_cons hA with ⟨rfl, rfl, rfl⟩ | ⟨between, rfl, rfl⟩
    · exact .inr ⟨hn, htop⟩
    · exact .inl ⟨before, n, between, rfl, hn, htop⟩
  · rintro (⟨before, n, between, rfl, hn, htop⟩ | ⟨hm, htop⟩)
    · exact ⟨before, n, between ++ [m], by simp, hn, htop⟩
    · exact ⟨A, m, [], rfl, hm, htop⟩

/-- An initial value lasts from its mark to the mark at its end. -/
theorem initializing_concat {before : List Mark} {t : Token} :
    Initializing (A ++ [m]) before t ↔
      m = .initializes t ∧ before = A ∨ Initializing A before t ∧ m ≠ .initialized := by
  constructor
  · rintro ⟨between, hA, hbetween⟩
    rcases concat_eq_append_cons hA with ⟨rfl, rfl, rfl⟩ | ⟨between, rfl, rfl⟩
    · exact .inl ⟨rfl, rfl⟩
    · simp only [List.mem_append, List.mem_singleton, not_or] at hbetween
      exact .inr ⟨⟨between, rfl, hbetween.1⟩, Ne.symm hbetween.2⟩
  · rintro (⟨rfl, rfl⟩ | ⟨⟨between, rfl, hbetween⟩, hm⟩)
    · exact ⟨[], rfl, by simp⟩
    · exact ⟨between ++ [m], by simp, by simp [hbetween, Ne.symm hm]⟩

/-- One scope is so far out. -/
theorem Around.unique {o o' : Opening} (h : Around A d o) (h' : Around A d o') : o = o' := by
  induction A using List.reverseRecOn generalizing d with
  | nil => exact absurd h behind_nil
  | append_singleton A m ih =>
    cases m with
    | opens =>
      rw [around_opens] at h h'
      grind
    | closes => exact ih (around_closes.mp h) (around_closes.mp h')
    | _ => exact ih ((around_beside fun _ => rfl).mp h) ((around_beside fun _ => rfl).mp h')

/-- There is one nearest scope of a kind. -/
theorem Nearest.unique {x y : Option Opening} (h : Nearest kind A x) (h' : Nearest kind A y) :
    x = y := by
  cases x with
  | none =>
    cases y with
    | none => rfl
    | some o' =>
      obtain ⟨ho', d, hd, -⟩ := h'
      exact absurd ho' (by simp [h d o' hd])
  | some o =>
    obtain ⟨ho, d, hd, hlow⟩ := h
    cases y with
    | none => exact absurd ho (by simp [h' d o hd])
    | some o' =>
      obtain ⟨ho', d', hd', hlow'⟩ := h'
      rcases Nat.lt_trichotomy d d' with hlt | rfl | hlt
      · exact absurd ho (by simp [hlow' d hlt o hd])
      · rw [hd.unique hd']
      · exact absurd ho' (by simp [hlow d' hlt o' hd'])

theorem nearest_opens_self (ho : kind o = true) : Nearest kind (A ++ [Mark.opens o]) (some o) :=
  ⟨ho, 0, around_opens.mpr (.inl ⟨rfl, rfl⟩), fun _ h => absurd h (Nat.not_lt_zero _)⟩

theorem Nearest.opens {x : Option Opening} (h : Nearest kind A x) (ho : kind o = false) :
    Nearest kind (A ++ [Mark.opens o]) x := by
  cases x with
  | none =>
    intro d o' h'
    rcases around_opens.mp h' with ⟨-, rfl⟩ | ⟨d', -, h'⟩
    · exact ho
    · exact h d' o' h'
  | some o₁ =>
    obtain ⟨ho₁, d, hd, hlow⟩ := h
    refine ⟨ho₁, d + 1, around_opens.mpr (.inr ⟨d, rfl, hd⟩), fun e he o' h' => ?_⟩
    rcases around_opens.mp h' with ⟨-, rfl⟩ | ⟨d', rfl, hd'⟩
    · exact ho
    · exact hlow d' (by omega) o' hd'

/-! ## Marks that leave the scopes as they are -/

/-- After the marks the scopes around are those before them. -/
def Balanced (marks : List Mark) : Prop :=
  ∀ A d o, Around (A ++ marks) d o ↔ Around A d o

namespace Balanced

theorem nil : Balanced [] := fun A d o => by rw [List.append_nil]

theorem append {M N : List Mark} (hM : Balanced M) (hN : Balanced N) :
    Balanced (M ++ N) := fun A d o => by
  rw [← List.append_assoc, hN, hM]

theorem single (hm : ∀ d, m.move d = some d) : Balanced [m] := fun _ _ _ => around_beside hm

theorem cons {M : List Mark} (hm : ∀ d, m.move d = some d) (hM : Balanced M) : Balanced (m :: M) :=
  (single hm).append hM

theorem of_forall {M : List Mark} (h : ∀ m ∈ M, ∀ d, m.move d = some d) : Balanced M := by
  induction M with
  | nil => exact nil
  | cons m M ih => exact cons (h m (by simp)) (ih fun n hn => h n (by simp [hn]))

/-- A scope that opens and closes is over. -/
theorem scope {M : List Mark} (o : Opening) (hM : Balanced M) :
    Balanced (.opens o :: (M ++ [Mark.closes])) := by
  intro A d o'
  have h : A ++ .opens o :: (M ++ [Mark.closes]) =
      A ++ [Mark.opens o] ++ M ++ [Mark.closes] := by simp
  rw [h, around_closes, hM, around_opens]
  simp

/-- Balanced marks do not change the nearest scope. -/
theorem nearest {M : List Mark} (hM : Balanced M) {x : Option Opening} :
    Nearest kind (A ++ M) x ↔ Nearest kind A x := by
  cases x <;> simp only [Nearest, hM A]

end Balanced

end Outline

/-- A mark that only names a variable. -/
theorem Mark.beside_of_use? {m : Mark} (h : m.use?.isSome = true) :
    (∀ d, m.move d = some d) ∧ m.name? = none ∧ m ≠ .initialized := by
  cases m <;> simp [use?] at h <;> exact ⟨fun _ => rfl, rfl, nofun⟩

namespace Outline

variable {A M : List Mark}

theorem initializing_append_uses (hM : ∀ m ∈ M, m.use?.isSome = true) {before : List Mark}
    {t : Token} : Initializing (A ++ M) before t ↔ Initializing A before t := by
  induction M using List.reverseRecOn with
  | nil => rw [List.append_nil]
  | append_singleton M m ih =>
    obtain ⟨-, hname, hend⟩ := Mark.beside_of_use? (hM m (by simp))
    have hbegin : m ≠ .initializes t := by
      rintro rfl
      cases hname
    simp [← List.append_assoc, initializing_concat, hbegin, hend,
      ih fun n hn => hM n (by simp [hn])]

theorem declaredOnTop_append_uses (hM : ∀ m ∈ M, m.use?.isSome = true) {name : String} :
    DeclaredOnTop (A ++ M) name ↔ DeclaredOnTop A name := by
  induction M using List.reverseRecOn with
  | nil => rw [List.append_nil]
  | append_singleton M m ih =>
    obtain ⟨-, hname, -⟩ := Mark.beside_of_use? (hM m (by simp))
    simp [← List.append_assoc, declaredOnTop_concat, hname, ih fun n hn => hM n (by simp [hn])]

end Outline

open Outline (Balanced)

namespace Expr

mutual

/-- An expression only uses names. -/
theorem use?_of_mem_outline : ∀ (e : Expr), ∀ m ∈ e.outline, m.use?.isSome = true
  | .literal _ => by simp [outline]
  | .grouping e | .unary _ e | .get e _ => use?_of_mem_outline e
  | .binary a _ b | .logical a _ b | .set b _ a =>
    List.forall_mem_append.mpr ⟨use?_of_mem_outline a, use?_of_mem_outline b⟩
  | .variable _ _ | .thisRef _ _ | .superRef _ _ _ => by simp [outline, Mark.use?]
  | .assign _ _ value => List.forall_mem_append.mpr ⟨use?_of_mem_outline value, by simp [Mark.use?]⟩
  | .call callee _ arguments =>
    List.forall_mem_append.mpr ⟨use?_of_mem_outline callee, use?_of_mem_outlineAll arguments⟩

theorem use?_of_mem_outlineAll : ∀ (es : List Expr), ∀ m ∈ outlineAll es, m.use?.isSome = true
  | [] => by simp [outlineAll]
  | e :: rest => List.forall_mem_append.mpr ⟨use?_of_mem_outline e, use?_of_mem_outlineAll rest⟩

end

theorem balanced_outline (e : Expr) : Balanced e.outline :=
  .of_forall fun m hm => (Mark.beside_of_use? (e.use?_of_mem_outline m hm)).1

theorem balanced_outline? : ∀ (e? : Option Expr), Balanced (outline? e?)
  | none => .nil
  | some e => e.balanced_outline

theorem balanced_superclassOutline (name : Token) (e : Expr) :
    Balanced (e.superclassOutline name) := by
  cases e with
  | «variable» => exact .cons (fun _ => rfl) (.single fun _ => rfl)
  | _ => exact balanced_outline _

end Expr

namespace Stmt

theorem balanced_params (params : List Token) : Balanced (params.map Mark.declares) :=
  .of_forall <| by simp [Mark.move]

/-- The marks of a class are balanced if those of its methods are. -/
theorem balanced_class (name : Token) (superclass : Option Expr) {methods : List Mark}
    (h : Balanced methods) :
    Balanced (classEntry name superclass ++ methods ++ classExit superclass) := by
  have hmethods (b : Bool) :
      Balanced (.opens (.methods b) :: (.provides "this" :: methods ++ [Mark.closes])) :=
    .scope _ (.cons (fun _ => rfl) h)
  cases superclass with
  | none => exact .cons (fun _ => rfl) (hmethods false)
  | some e =>
    have hsuper : Balanced (.opens .superclass :: (.provides "super" ::
        (.opens (.methods true) :: (.provides "this" :: methods ++ [Mark.closes])) ++
          [Mark.closes])) :=
      .scope _ (.cons (fun _ => rfl) (hmethods true))
    have hclass := Balanced.cons (m := .declares name) (fun _ => rfl)
      ((e.balanced_superclassOutline name).append hsuper)
    simpa [classEntry, classExit] using hclass

mutual

/-- A statement leaves the scopes that it enters. -/
theorem balanced_outline : ∀ (s : Stmt), Balanced s.outline
  | .expression value | .print value => value.balanced_outline
  | .var _ none => .single fun _ => rfl
  | .var _ (some value) =>
    .cons (fun _ => rfl) (value.balanced_outline.append (.single fun _ => rfl))
  | .block body => .scope _ (balanced_outlineAll body)
  | .ifThen condition branch | .whileLoop condition branch =>
    condition.balanced_outline.append (balanced_outline branch)
  | .ifThenElse condition thenBranch elseBranch =>
    (condition.balanced_outline.append (balanced_outline thenBranch)).append
      (balanced_outline elseBranch)
  | .function decl => .cons (fun _ => rfl) (balanced_functionOutline _ decl)
  | .returnWith _ value => .cons (fun _ => rfl) (Expr.balanced_outline? value)
  | .classDef name superclass methods =>
    balanced_class name superclass (balanced_methodsOutline methods)

theorem balanced_functionOutline :
    ∀ (o : Opening) (d : FunctionDecl), Balanced (functionOutline o d)
  | _, ⟨_, params, body⟩ => .scope _ ((balanced_params params).append (balanced_outlineAll body))

theorem balanced_outlineAll : ∀ (body : List Stmt), Balanced (outlineAll body)
  | [] => .nil
  | s :: rest => (balanced_outline s).append (balanced_outlineAll rest)

theorem balanced_methodsOutline : ∀ (ds : List FunctionDecl), Balanced (methodsOutline ds)
  | [] => .nil
  | d :: rest => (balanced_functionOutline _ d).append (balanced_methodsOutline rest)

end

end Stmt

end Lox
