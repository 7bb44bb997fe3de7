import Lox.Proofs.Lexical.Enclosures

/-!
# Renaming in trees

`Stmt.RenamesLocalAll R` gives one local variable of a program another name: in its declaration, and
at those nodes with its name whose recorded distance leads from their place to the scope of that
declaration. The scope is marked when the renaming comes to it, and inside it the marks tell how far
out it is.

The proofs work with a wider relation, `Stmt.Renamed R marks`, in which any scopes may be marked. A
statement in which one local variable was renamed is so related to the statement before
(`Stmt.RenamesLocal.renamed`).
-/

namespace Lox

variable {n : String}

/-- A new name for variables that are called `old`. The distances are those recorded for the
program. -/
structure Renaming where
  old : String
  new : String
  distances : Distances

namespace Renaming

/-- What becomes of a name; `here` says whether it stands for a variable that is renamed. -/
def name (R : Renaming) (here : Bool) (n : String) : String :=
  if here && n == R.old then R.new else n

/-- What becomes of a token that names a variable. -/
def token (R : Renaming) (here : Bool) (t : Token) : Token :=
  { t with lexeme := R.name here t.lexeme }

/-- Both names can be declared, and they are different. -/
structure Proper (R : Renaming) : Prop where
  old : R.old ≠ "this" ∧ R.old ≠ "super"
  new : R.new ≠ "this" ∧ R.new ≠ "super"
  ne : R.new ≠ R.old

variable {R : Renaming}

@[simp] theorem name_false (n : String) : R.name false n = n := rfl

@[simp] theorem name_old : R.name true R.old = R.new := by simp [name]

/-- Only one name is changed. -/
theorem name_of_ne (here : Bool) (h : n ≠ R.old) : R.name here n = n := by
  simp [name, h]

@[simp] theorem token_false (t : Token) : R.token false t = t := rfl

/-- Only tokens with one name are changed. -/
theorem token_of_ne (here : Bool) {t : Token} (h : t.lexeme ≠ R.old) : R.token here t = t := by
  rw [token, name_of_ne here h]

@[simp] theorem lexeme_token (here : Bool) (t : Token) :
    (R.token here t).lexeme = R.name here t.lexeme := rfl

/-- In one scope, different names stay different. -/
theorem name_inj {here : Bool} {m : String} (hm : m ≠ R.new) (hn : n ≠ R.new) :
    R.name here m = R.name here n ↔ m = n := by
  cases here with
  | false => simp
  | true =>
    by_cases hmo : m = R.old <;> by_cases hno : n = R.old
    · simp [hmo, hno]
    · rw [hmo, name_old, name_of_ne true hno]
      exact ⟨fun h => absurd h.symm hn, fun h => absurd h.symm hno⟩
    · rw [hno, name_old, name_of_ne true hmo]
      exact ⟨fun h => absurd h hm, fun h => absurd h hmo⟩
    · rw [name_of_ne true hmo, name_of_ne true hno]

/-- A name never becomes what the old name is or becomes on the other side of a mark. -/
theorem name_ne_other (hR : R.new ≠ R.old) {here : Bool} (hn : n ≠ R.new) :
    R.name here n ≠ R.name (!here) R.old := by
  cases here with
  | false => simpa using hn
  | true =>
    by_cases h : n = R.old
    · simpa [h] using hR
    · simpa [name_of_ne true h] using h

end Renaming

/-! ## Marked scopes -/

/-- For the scopes around a place, the innermost first and the top level last: whether the variable
of the old name in that scope is renamed. -/
abbrev Marks := List Bool

namespace Marks

/-- Whether what is declared at the place is renamed. -/
def here (marks : Marks) : Bool :=
  marks.headD false

/-- Whether what is found at a distance is renamed. Global variables are not. -/
def at? (marks : Marks) : Option Nat → Bool
  | some d => marks[d]?.getD false
  | none => false

/-- The marks around the methods of a class. Its scopes hold `this`, and `super` if the class
inherits. -/
def inClass (marks : Marks) : Option Expr → Marks
  | none => false :: marks
  | some _ => false :: false :: marks

end Marks

/-! ## Renaming at a place -/

namespace Expr

mutual

/-- The expression with the variables of marked scopes renamed. -/
def rename (R : Renaming) (marks : Marks) : Expr → Expr
  | .literal l => .literal l
  | .grouping inner => .grouping (rename R marks inner)
  | .unary operator right => .unary operator (rename R marks right)
  | .binary left operator right => .binary (rename R marks left) operator (rename R marks right)
  | .logical left operator right => .logical (rename R marks left) operator (rename R marks right)
  | .variable id name => .variable id (R.token (marks.at? R.distances[id]?) name)
  | .assign id name value =>
    .assign id (R.token (marks.at? R.distances[id]?) name) (rename R marks value)
  | .call callee paren arguments =>
    .call (rename R marks callee) paren (renameAll R marks arguments)
  | .get object name => .get (rename R marks object) name
  | .set object name value => .set (rename R marks object) name (rename R marks value)
  | .thisRef id word => .thisRef id word
  | .superRef id word method => .superRef id word method

/-- The expressions with the variables of marked scopes renamed. -/
def renameAll (R : Renaming) (marks : Marks) : List Expr → List Expr
  | [] => []
  | e :: rest => rename R marks e :: renameAll R marks rest

end

mutual

/-- The names of the variables that occur in an expression. -/
def names : Expr → List String
  | .literal _ => []
  | .grouping inner => names inner
  | .unary _ right => names right
  | .binary left _ right => names left ++ names right
  | .logical left _ right => names left ++ names right
  | .variable _ name => [name.lexeme]
  | .assign _ name value => name.lexeme :: names value
  | .call callee _ arguments => names callee ++ namesAll arguments
  | .get object _ => names object
  | .set object _ value => names object ++ names value
  | .thisRef _ _ => []
  | .superRef _ _ _ => []

/-- The names of the variables that occur in expressions. -/
def namesAll : List Expr → List String
  | [] => []
  | e :: rest => names e ++ namesAll rest

end

end Expr

namespace Stmt

mutual

/-- The statement with the variables of marked scopes renamed. The scopes inside are not marked. -/
def rename (R : Renaming) (marks : Marks) : Stmt → Stmt
  | .expression value => .expression (value.rename R marks)
  | .print value => .print (value.rename R marks)
  | .var name none => .var (R.token marks.here name) none
  | .var name (some value) => .var (R.token marks.here name) (some (value.rename R marks))
  | .block body => .block (renameAll R (false :: marks) body)
  | .ifThen condition thenBranch => .ifThen (condition.rename R marks) (rename R marks thenBranch)
  | .ifThenElse condition thenBranch elseBranch =>
    .ifThenElse (condition.rename R marks) (rename R marks thenBranch) (rename R marks elseBranch)
  | .whileLoop condition body => .whileLoop (condition.rename R marks) (rename R marks body)
  | .function decl => .function (renameFunction R marks false decl)
  | .returnWith word none => .returnWith word none
  | .returnWith word (some value) => .returnWith word (some (value.rename R marks))
  | .classDef name none methods =>
    .classDef name none (renameMethods R (marks.inClass none) methods)
  | .classDef name (some superclass) methods =>
    .classDef name (some (superclass.rename R marks))
      (renameMethods R (marks.inClass (some superclass)) methods)

/-- The function with the variables of marked scopes renamed; `here` says whether its own scope is
marked. -/
def renameFunction (R : Renaming) (marks : Marks) (here : Bool) : FunctionDecl → FunctionDecl
  | ⟨name, params, body⟩ => ⟨name, params.map (R.token here), renameAll R (here :: marks) body⟩

/-- The statements with the variables of marked scopes renamed. -/
def renameAll (R : Renaming) (marks : Marks) : List Stmt → List Stmt
  | [] => []
  | s :: rest => rename R marks s :: renameAll R marks rest

/-- The methods with the variables of marked scopes renamed. -/
def renameMethods (R : Renaming) (marks : Marks) : List FunctionDecl → List FunctionDecl
  | [] => []
  | d :: rest => renameFunction R marks false d :: renameMethods R marks rest

end

mutual

/-- The names of variables, functions and classes that occur in a statement. -/
def names : Stmt → List String
  | .expression value => value.names
  | .print value => value.names
  | .var name none => [name.lexeme]
  | .var name (some value) => name.lexeme :: value.names
  | .block body => namesAll body
  | .ifThen condition thenBranch => condition.names ++ names thenBranch
  | .ifThenElse condition thenBranch elseBranch =>
    condition.names ++ (names thenBranch ++ names elseBranch)
  | .whileLoop condition body => condition.names ++ names body
  | .function decl => decl.name.lexeme :: functionNames decl
  | .returnWith _ none => []
  | .returnWith _ (some value) => value.names
  | .classDef name none methods => name.lexeme :: methodNames methods
  | .classDef name (some superclass) methods =>
    name.lexeme :: (superclass.names ++ methodNames methods)

/-- The names of variables, functions and classes that occur in a function. -/
def functionNames : FunctionDecl → List String
  | ⟨_, params, body⟩ => params.map Token.lexeme ++ namesAll body

/-- The names of variables, functions and classes that occur in statements. -/
def namesAll : List Stmt → List String
  | [] => []
  | s :: rest => names s ++ namesAll rest

/-- The names of variables, functions and classes that occur in methods. -/
def methodNames : List FunctionDecl → List String
  | [] => []
  | d :: rest => functionNames d ++ methodNames rest

end

/-! ## Renaming one local variable -/

/-- The variable that a statement declares. -/
def varName? : Stmt → Option String
  | .var name _ => some name.lexeme
  | _ => none

/-- The function or the class that a statement declares. -/
def definition? : Stmt → Option String
  | .function decl => some decl.name.lexeme
  | .classDef name _ _ => some name.lexeme
  | _ => none

/-- The variables that statements declare in the scope they stand in. -/
def varNames (body : List Stmt) : List String :=
  body.filterMap varName?

/-- The functions and classes that statements declare in the scope they stand in. -/
def definitions (body : List Stmt) : List String :=
  body.filterMap definition?

end Stmt

/-- The parameters of a function and the variables that its body declares. -/
def FunctionDecl.varNames (d : FunctionDecl) : List String :=
  d.params.map Token.lexeme ++ Stmt.varNames d.body

mutual

/-- One local variable of a statement has been renamed: a variable of the block that the statement
is, or one of a statement, a function or a method inside. -/
inductive Stmt.RenamesLocal (R : Renaming) : Marks → Stmt → Stmt → Prop where
  | here {marks : Marks} {body : List Stmt} (h : R.old ∈ Stmt.varNames body) :
      RenamesLocal R marks (.block body) (.block (Stmt.renameAll R (true :: marks) body))
  | block {marks : Marks} {before after : List Stmt} {s s' : Stmt}
      (h : RenamesLocal R (false :: marks) s s') :
      RenamesLocal R marks (.block (before ++ s :: after)) (.block (before ++ s' :: after))
  | ifThen {marks : Marks} {condition : Expr} {s s' : Stmt} (h : RenamesLocal R marks s s') :
      RenamesLocal R marks (.ifThen condition s) (.ifThen condition s')
  | thenBranch {marks : Marks} {condition : Expr} {s s' other : Stmt}
      (h : RenamesLocal R marks s s') :
      RenamesLocal R marks (.ifThenElse condition s other) (.ifThenElse condition s' other)
  | elseBranch {marks : Marks} {condition : Expr} {other s s' : Stmt}
      (h : RenamesLocal R marks s s') :
      RenamesLocal R marks (.ifThenElse condition other s) (.ifThenElse condition other s')
  | whileLoop {marks : Marks} {condition : Expr} {s s' : Stmt} (h : RenamesLocal R marks s s') :
      RenamesLocal R marks (.whileLoop condition s) (.whileLoop condition s')
  | function {marks : Marks} {d d' : FunctionDecl} (h : Stmt.RenamesLocalFunction R marks d d') :
      RenamesLocal R marks (.function d) (.function d')
  | method {marks : Marks} {name : Token} {superclass : Option Expr}
      {before after : List FunctionDecl} {d d' : FunctionDecl}
      (h : Stmt.RenamesLocalFunction R (marks.inClass superclass) d d') :
      RenamesLocal R marks (.classDef name superclass (before ++ d :: after))
        (.classDef name superclass (before ++ d' :: after))

/-- One local variable of a function has been renamed: a parameter, a variable of its body, or one
of a statement inside. -/
inductive Stmt.RenamesLocalFunction (R : Renaming) :
    Marks → FunctionDecl → FunctionDecl → Prop where
  | here {marks : Marks} {d : FunctionDecl} (h : R.old ∈ d.varNames) :
      RenamesLocalFunction R marks d (Stmt.renameFunction R marks true d)
  | body {marks : Marks} {name : Token} {params : List Token} {before after : List Stmt}
      {s s' : Stmt} (h : Stmt.RenamesLocal R (false :: marks) s s') :
      RenamesLocalFunction R marks ⟨name, params, before ++ s :: after⟩
      ⟨name, params, before ++ s' :: after⟩

end

/-- One local variable of a program has been renamed. The top level is not marked: its variables are
global. -/
inductive Stmt.RenamesLocalAll (R : Renaming) : List Stmt → List Stmt → Prop where
  | mk {before after : List Stmt} {s s' : Stmt} (h : Stmt.RenamesLocal R [false] s s') :
      RenamesLocalAll R (before ++ s :: after) (before ++ s' :: after)

/-! ## Any marked scopes -/

/-- A name that a function or a class at a place can have. -/
structure Renaming.Keeps (R : Renaming) (marks : Marks) (n : String) : Prop where
  fresh : n ≠ R.new
  here : marks.here = true → n ≠ R.old

/-- A name that is kept stays as it is. -/
theorem Renaming.Keeps.name_eq {R : Renaming} {marks : Marks} (h : R.Keeps marks n) :
    R.name marks.here n = n := by
  cases hhere : marks.here with
  | false => rfl
  | true => exact name_of_ne true (h.here hhere)

mutual

/-- An expression with the variables of marked scopes renamed. -/
inductive Expr.Renamed (R : Renaming) (marks : Marks) : Expr → Expr → Prop where
  | literal (l : Literal) : Renamed R marks (.literal l) (.literal l)
  | grouping {e e' : Expr} (h : Renamed R marks e e') : Renamed R marks (.grouping e) (.grouping e')
  | unary {operator : Token} {e e' : Expr} (h : Renamed R marks e e') :
      Renamed R marks (.unary operator e) (.unary operator e')
  | binary {operator : Token} {l l' r r' : Expr} (hl : Renamed R marks l l')
      (hr : Renamed R marks r r') : Renamed R marks (.binary l operator r) (.binary l' operator r')
  | logical {operator : Token} {l l' r r' : Expr} (hl : Renamed R marks l l')
      (hr : Renamed R marks r r') :
      Renamed R marks (.logical l operator r) (.logical l' operator r')
  | variable {id : NodeId} {name : Token} (hname : name.lexeme ≠ R.new) :
      Renamed R marks (.variable id name) (.variable id (R.token (marks.at? R.distances[id]?) name))
  | assign {id : NodeId} {name : Token} {e e' : Expr} (hname : name.lexeme ≠ R.new)
      (h : Renamed R marks e e') :
      Renamed R marks (.assign id name e)
      (.assign id (R.token (marks.at? R.distances[id]?) name) e')
  | call {paren : Token} {e e' : Expr} {es es' : List Expr} (h : Renamed R marks e e')
      (hs : Expr.RenamedAll R marks es es') :
      Renamed R marks (.call e paren es) (.call e' paren es')
  | get {name : Token} {e e' : Expr} (h : Renamed R marks e e') :
      Renamed R marks (.get e name) (.get e' name)
  | set {name : Token} {o o' v v' : Expr} (ho : Renamed R marks o o') (hv : Renamed R marks v v') :
      Renamed R marks (.set o name v) (.set o' name v')
  | thisRef (id : NodeId) {word : Token} (h : word.lexeme = "this") :
      Renamed R marks (.thisRef id word) (.thisRef id word)
  | superRef (id : NodeId) {word : Token} (h : word.lexeme = "super") (method : Token) :
      Renamed R marks (.superRef id word method) (.superRef id word method)

/-- Expressions with the variables of marked scopes renamed. -/
inductive Expr.RenamedAll (R : Renaming) (marks : Marks) : List Expr → List Expr → Prop where
  | nil : RenamedAll R marks [] []
  | cons {e e' : Expr} {es es' : List Expr} (h : Expr.Renamed R marks e e')
      (hs : RenamedAll R marks es es') : RenamedAll R marks (e :: es) (e' :: es')

end

mutual

/-- A statement with the variables of marked scopes renamed. The scopes inside may be marked or
not. -/
inductive Stmt.Renamed (R : Renaming) : Marks → Stmt → Stmt → Prop where
  | expression {marks : Marks} {e e' : Expr} (h : e.Renamed R marks e') :
      Renamed R marks (.expression e) (.expression e')
  | print {marks : Marks} {e e' : Expr} (h : e.Renamed R marks e') :
      Renamed R marks (.print e) (.print e')
  | var {marks : Marks} {name : Token} (hname : name.lexeme ≠ R.new) :
      Renamed R marks (.var name none) (.var (R.token marks.here name) none)
  | initialized {marks : Marks} {name : Token} {e e' : Expr} (hname : name.lexeme ≠ R.new)
      (h : e.Renamed R marks e') :
      Renamed R marks (.var name (some e)) (.var (R.token marks.here name) (some e'))
  | block {marks : Marks} {body body' : List Stmt} (here : Bool)
      (h : Stmt.RenamedAll R (here :: marks) body body') :
      Renamed R marks (.block body) (.block body')
  | ifThen {marks : Marks} {e e' : Expr} {s s' : Stmt} (he : e.Renamed R marks e')
      (hs : Renamed R marks s s') : Renamed R marks (.ifThen e s) (.ifThen e' s')
  | ifThenElse {marks : Marks} {e e' : Expr} {s s' t t' : Stmt} (he : e.Renamed R marks e')
      (hs : Renamed R marks s s') (ht : Renamed R marks t t') :
      Renamed R marks (.ifThenElse e s t) (.ifThenElse e' s' t')
  | whileLoop {marks : Marks} {e e' : Expr} {s s' : Stmt} (he : e.Renamed R marks e')
      (hs : Renamed R marks s s') : Renamed R marks (.whileLoop e s) (.whileLoop e' s')
  | function {marks : Marks} {d d' : FunctionDecl} (hname : R.Keeps marks d.name.lexeme)
      (h : Stmt.RenamedFunction R marks d d') : Renamed R marks (.function d) (.function d')
  | returnNothing {marks : Marks} (word : Token) :
      Renamed R marks (.returnWith word none) (.returnWith word none)
  | returnValue {marks : Marks} {word : Token} {e e' : Expr} (h : e.Renamed R marks e') :
      Renamed R marks (.returnWith word (some e)) (.returnWith word (some e'))
  | plainClass {marks : Marks} {name : Token} {ds ds' : List FunctionDecl}
      (hname : R.Keeps marks name.lexeme) (h : Stmt.RenamedMethods R (false :: marks) ds ds') :
      Renamed R marks (.classDef name none ds) (.classDef name none ds')
  | subclass {marks : Marks} {name : Token} {e e' : Expr} {ds ds' : List FunctionDecl}
      (hname : R.Keeps marks name.lexeme) (he : e.Renamed R marks e')
      (h : Stmt.RenamedMethods R (false :: false :: marks) ds ds') :
      Renamed R marks (.classDef name (some e) ds) (.classDef name (some e') ds')

/-- A function with the variables of marked scopes renamed. -/
inductive Stmt.RenamedFunction (R : Renaming) : Marks → FunctionDecl → FunctionDecl → Prop where
  | mk {marks : Marks} {name : Token} {params : List Token} {body body' : List Stmt} (here : Bool)
      (hparams : ∀ p ∈ params, p.lexeme ≠ R.new)
      (h : Stmt.RenamedAll R (here :: marks) body body') :
      RenamedFunction R marks ⟨name, params, body⟩ ⟨name, params.map (R.token here), body'⟩

/-- Statements with the variables of marked scopes renamed. -/
inductive Stmt.RenamedAll (R : Renaming) : Marks → List Stmt → List Stmt → Prop where
  | nil {marks : Marks} : RenamedAll R marks [] []
  | cons {marks : Marks} {s s' : Stmt} {body body' : List Stmt} (hs : Stmt.Renamed R marks s s')
      (h : RenamedAll R marks body body') : RenamedAll R marks (s :: body) (s' :: body')

/-- Methods with the variables of marked scopes renamed. -/
inductive Stmt.RenamedMethods (R : Renaming) :
    Marks → List FunctionDecl → List FunctionDecl → Prop where
  | nil {marks : Marks} : RenamedMethods R marks [] []
  | cons {marks : Marks} {d d' : FunctionDecl} {ds ds' : List FunctionDecl}
      (hd : Stmt.RenamedFunction R marks d d') (h : RenamedMethods R marks ds ds') :
      RenamedMethods R marks (d :: ds) (d' :: ds')

end

namespace Stmt.RenamedFunction

variable {R : Renaming} {marks : Marks} {d d' : FunctionDecl} (h : RenamedFunction R marks d d')

include h

theorem name_eq : d'.name = d.name := by
  cases h
  rfl

theorem length_params : d'.params.length = d.params.length := by
  cases h
  exact List.length_map _

/-- The parameters and the body of a renamed function. -/
theorem parts :
    ∃ here, (∀ p ∈ d.params, p.lexeme ≠ R.new) ∧ d'.params = d.params.map (R.token here) ∧
      RenamedAll R (here :: marks) d.body d'.body := by
  cases h with
  | mk here hparams h => exact ⟨here, hparams, rfl, h⟩

end Stmt.RenamedFunction

/-! ## From one local variable to marked scopes -/

/-- No scope is marked. -/
def Marks.Unmarked (marks : Marks) : Prop :=
  ∀ b ∈ marks, b = false

namespace Marks.Unmarked

variable {marks : Marks}

theorem cons (h : marks.Unmarked) : Unmarked (false :: marks) :=
  List.forall_mem_cons.mpr ⟨rfl, h⟩

theorem inClass (h : marks.Unmarked) (superclass : Option Expr) :
    (marks.inClass superclass).Unmarked := by
  cases superclass with
  | none => exact h.cons
  | some e => exact h.cons.cons

/-- Where nothing is marked, nothing is renamed here. -/
theorem here_eq (h : marks.Unmarked) : marks.here = false := by
  cases marks with
  | nil => rfl
  | cons b marks => exact h b List.mem_cons_self

/-- Where nothing is marked, nothing is renamed at any distance. -/
theorem at?_eq (h : marks.Unmarked) (d? : Option Nat) : marks.at? d? = false := by
  cases d? with
  | none => rfl
  | some d =>
    cases hd : marks[d]? with
    | none => simp [at?, hd]
    | some b => simp [at?, hd, h b (List.mem_of_getElem? hd)]

end Marks.Unmarked

variable {R : Renaming} {marks : Marks}

namespace Expr

mutual

/-- Without a marked scope nothing is renamed. -/
theorem rename_of_unmarked (h : marks.Unmarked) : ∀ (e : Expr), e.rename R marks = e
  | .literal _ | .thisRef _ _ | .superRef _ _ _ => rfl
  | .variable _ _ => by simp [rename, h.at?_eq]
  | .assign _ _ value => by simp [rename, h.at?_eq, rename_of_unmarked h value]
  | .grouping e | .unary _ e | .get e _ => by simp [rename, rename_of_unmarked h e]
  | .binary a _ b | .logical a _ b | .set a _ b => by
    simp [rename, rename_of_unmarked h a, rename_of_unmarked h b]
  | .call callee _ arguments => by
    simp [rename, rename_of_unmarked h callee, renameAll_of_unmarked h arguments]

theorem renameAll_of_unmarked (h : marks.Unmarked) : ∀ (es : List Expr), renameAll R marks es = es
  | [] => rfl
  | e :: rest => by simp [renameAll, rename_of_unmarked h e, renameAll_of_unmarked h rest]

end

mutual

/-- Renaming an expression gives a related one. -/
theorem renamed_rename :
    ∀ {e : Expr}, e.Formed → R.new ∉ e.names → e.Renamed R marks (e.rename R marks)
  | .literal l, _, _ => .literal l
  | .grouping _, h, hnew => .grouping (renamed_rename h hnew)
  | .unary _ _, h, hnew => .unary (renamed_rename h hnew)
  | .binary _ _ _, h, hnew => by
    simp only [names, List.mem_append, not_or] at hnew
    exact .binary (renamed_rename h.1 hnew.1) (renamed_rename h.2 hnew.2)
  | .logical _ _ _, h, hnew => by
    simp only [names, List.mem_append, not_or] at hnew
    exact .logical (renamed_rename h.1 hnew.1) (renamed_rename h.2 hnew.2)
  | .variable _ _, _, hnew => by
    simp only [names, List.mem_singleton] at hnew
    exact .variable (Ne.symm hnew)
  | .assign _ _ _, h, hnew => by
    simp only [names, List.mem_cons, not_or] at hnew
    exact .assign (Ne.symm hnew.1) (renamed_rename h hnew.2)
  | .call _ _ _, h, hnew => by
    simp only [names, List.mem_append, not_or] at hnew
    exact .call (renamed_rename h.1 hnew.1) (renamedAll_renameAll h.2 hnew.2)
  | .get _ _, h, hnew => .get (renamed_rename h hnew)
  | .set _ _ _, h, hnew => by
    simp only [names, List.mem_append, not_or] at hnew
    exact .set (renamed_rename h.1 hnew.1) (renamed_rename h.2 hnew.2)
  | .thisRef id _, h, _ => .thisRef id h
  | .superRef id _ method, h, _ => .superRef id h method

theorem renamedAll_renameAll : ∀ {es : List Expr}, FormedAll es → R.new ∉ namesAll es →
    RenamedAll R marks es (renameAll R marks es)
  | [], _, _ => .nil
  | _ :: _, h, hnew => by
    simp only [namesAll, List.mem_append, not_or] at hnew
    exact .cons (renamed_rename h.1 hnew.1) (renamedAll_renameAll h.2 hnew.2)

end

/-- An expression is related to itself where nothing is marked. -/
theorem renamed_self (hmarks : marks.Unmarked) {e : Expr} (h : e.Formed) (hnew : R.new ∉ e.names) :
    e.Renamed R marks e := by
  have hrenamed : e.Renamed R marks (e.rename R marks) := renamed_rename h hnew
  rwa [rename_of_unmarked hmarks] at hrenamed

end Expr

namespace Stmt

mutual

/-- Where nothing is marked, renaming changes nothing. -/
theorem rename_of_unmarked : ∀ {marks : Marks}, marks.Unmarked → ∀ (s : Stmt), s.rename R marks = s
  | _, h, .expression e | _, h, .print e => by simp [rename, Expr.rename_of_unmarked h e]
  | _, h, .var _ none => by simp [rename, h.here_eq]
  | _, h, .var _ (some e) => by simp [rename, h.here_eq, Expr.rename_of_unmarked h e]
  | _, h, .block body => by simp [rename, renameAll_of_unmarked h.cons body]
  | _, h, .ifThen e s | _, h, .whileLoop e s => by
    simp [rename, Expr.rename_of_unmarked h e, rename_of_unmarked h s]
  | _, h, .ifThenElse e s t => by
    simp [rename, Expr.rename_of_unmarked h e, rename_of_unmarked h s, rename_of_unmarked h t]
  | _, h, .function d => by simp [rename, renameFunction_of_unmarked h d]
  | _, _, .returnWith _ none => rfl
  | _, h, .returnWith _ (some e) => by simp [rename, Expr.rename_of_unmarked h e]
  | _, h, .classDef _ none ds => by simp [rename, renameMethods_of_unmarked (h.inClass none) ds]
  | _, h, .classDef _ (some e) ds => by
    simp [rename, Expr.rename_of_unmarked h e, renameMethods_of_unmarked (h.inClass (some e)) ds]

theorem renameFunction_of_unmarked : ∀ {marks : Marks}, marks.Unmarked → ∀ (d : FunctionDecl),
    renameFunction R marks false d = d
  | _, h, ⟨name, params, body⟩ => by
    have hparams : params.map (R.token false) = params := List.map_id params
    simp [renameFunction, hparams, renameAll_of_unmarked h.cons body]

theorem renameAll_of_unmarked :
    ∀ {marks : Marks}, marks.Unmarked → ∀ (body : List Stmt), renameAll R marks body = body
  | _, _, [] => rfl
  | _, h, s :: rest => by simp [renameAll, rename_of_unmarked h s, renameAll_of_unmarked h rest]

theorem renameMethods_of_unmarked : ∀ {marks : Marks}, marks.Unmarked → ∀ (ds : List FunctionDecl),
    renameMethods R marks ds = ds
  | _, _, [] => rfl
  | _, h, d :: rest => by
    simp [renameMethods, renameFunction_of_unmarked h d, renameMethods_of_unmarked h rest]

end

/-- A statement that declares nothing declares no function and no class. -/
theorem definition?_of_declares? {s : Stmt} (h : s.declares? = none) : s.definition? = none := by
  cases s <;> first | rfl | cases h

mutual

/-- Renaming is as related, if no function and no class in the innermost scope has the name that is
renamed there. -/
theorem renamed_rename : ∀ {marks : Marks} {s : Stmt}, s.Formed → R.new ∉ s.names →
    (marks.here = true → s.definition? ≠ some R.old) → s.Renamed R marks (s.rename R marks)
  | _, .expression _, h, hnew, _ => .expression (Expr.renamed_rename h hnew)
  | _, .print _, h, hnew, _ => .print (Expr.renamed_rename h hnew)
  | _, .var _ none, _, hnew, _ => by
    simp only [names, List.mem_singleton] at hnew
    exact .var (Ne.symm hnew)
  | _, .var _ (some e), h, hnew, _ => by
    simp only [names, List.mem_cons, not_or] at hnew
    exact .initialized (Ne.symm hnew.1) (Expr.renamed_rename (h.2 e rfl) hnew.2)
  | _, .block _, h, hnew, _ => .block false (renamedAll_renameAll h hnew fun hhere => nomatch hhere)
  | _, .ifThen _ _, ⟨he, hs, h⟩, hnew, _ => by
    simp only [names, List.mem_append, not_or] at hnew
    exact .ifThen (Expr.renamed_rename he hnew.1)
      (renamed_rename h hnew.2 fun _ => by simp [definition?_of_declares? hs])
  | _, .ifThenElse _ _ _, ⟨he, ⟨hs, h⟩, hs', h'⟩, hnew, _ => by
    simp only [names, List.mem_append, not_or] at hnew
    exact .ifThenElse (Expr.renamed_rename he hnew.1)
      (renamed_rename h hnew.2.1 fun _ => by simp [definition?_of_declares? hs])
      (renamed_rename h' hnew.2.2 fun _ => by simp [definition?_of_declares? hs'])
  | _, .whileLoop _ _, ⟨he, hs, h⟩, hnew, _ => by
    simp only [names, List.mem_append, not_or] at hnew
    exact .whileLoop (Expr.renamed_rename he hnew.1)
      (renamed_rename h hnew.2 fun _ => by simp [definition?_of_declares? hs])
  | _, .function _, h, hnew, hdef => by
    simp only [names, List.mem_cons, not_or] at hnew
    exact .function ⟨Ne.symm hnew.1, fun hhere heq => hdef hhere (congrArg some heq)⟩
      (renamedFunction_renameFunction h hnew.2 fun hhere => nomatch hhere)
  | _, .returnWith word none, _, _, _ => .returnNothing word
  | _, .returnWith _ (some e), h, hnew, _ => .returnValue (Expr.renamed_rename (h e rfl) hnew)
  | _, .classDef _ none _, ⟨_, _, h⟩, hnew, hdef => by
    simp only [names, List.mem_cons, not_or] at hnew
    exact .plainClass ⟨Ne.symm hnew.1, fun hhere heq => hdef hhere (congrArg some heq)⟩
      (renamedMethods_renameMethods h hnew.2)
  | _, .classDef _ (some e) _, ⟨_, hvar, h⟩, hnew, hdef => by
    simp only [names, List.mem_cons, List.mem_append, not_or] at hnew
    obtain ⟨id, superName, rfl⟩ := hvar e rfl
    exact .subclass ⟨Ne.symm hnew.1, fun hhere heq => hdef hhere (congrArg some heq)⟩
      (Expr.renamed_rename trivial hnew.2.1) (renamedMethods_renameMethods h hnew.2.2)

theorem renamedFunction_renameFunction :
    ∀ {marks : Marks} {d : FunctionDecl} {here : Bool}, FormedFunction d → R.new ∉ functionNames d →
      (here = true → R.old ∉ definitions d.body) →
    RenamedFunction R marks d (renameFunction R marks here d)
  | _, ⟨_, _, _⟩, here, ⟨_, _, h⟩, hnew, hdef => by
    simp only [functionNames, List.mem_append, not_or] at hnew
    exact .mk here (fun p hp heq => hnew.1 (heq ▸ List.mem_map_of_mem hp))
      (renamedAll_renameAll h hnew.2 hdef)

/-- Renaming statements gives related ones. -/
theorem renamedAll_renameAll :
    ∀ {marks : Marks} {body : List Stmt}, FormedAll body → R.new ∉ namesAll body →
      (marks.here = true → R.old ∉ definitions body) →
      RenamedAll R marks body (renameAll R marks body)
  | _, [], _, _, _ => .nil
  | _, s :: rest, h, hnew, hdef => by
    simp only [namesAll, List.mem_append, not_or] at hnew
    have hsplit : definitions (s :: rest) = s.definition?.toList ++ definitions rest := by
      cases hs : s.definition? <;> simp [definitions, hs]
    simp only [hsplit, List.mem_append, Option.mem_toList, not_or] at hdef
    exact .cons (renamed_rename h.1 hnew.1 fun hhere => (hdef hhere).1)
      (renamedAll_renameAll h.2 hnew.2 fun hhere => (hdef hhere).2)

theorem renamedMethods_renameMethods :
    ∀ {marks : Marks} {ds : List FunctionDecl}, FormedMethods ds → R.new ∉ methodNames ds →
      RenamedMethods R marks ds (renameMethods R marks ds)
  | _, [], _, _ => .nil
  | _, _ :: _, h, hnew => by
    simp only [methodNames, List.mem_append, not_or] at hnew
    exact .cons (renamedFunction_renameFunction h.1 hnew.1 fun hhere => nomatch hhere)
      (renamedMethods_renameMethods h.2 hnew.2)

end

variable (hmarks : marks.Unmarked)

include hmarks

/-- A statement is related to itself where nothing is marked. -/
theorem renamed_self {s : Stmt} (h : s.Formed) (hnew : R.new ∉ s.names) : s.Renamed R marks s := by
  have hrenamed := renamed_rename h hnew fun hhere => by rw [hmarks.here_eq] at hhere; cases hhere
  rwa [rename_of_unmarked hmarks] at hrenamed

theorem renamedAll_self {body : List Stmt} (h : FormedAll body) (hnew : R.new ∉ namesAll body) :
    RenamedAll R marks body body := by
  have hrenamed :=
    renamedAll_renameAll h hnew fun hhere => by rw [hmarks.here_eq] at hhere; cases hhere
  rwa [renameAll_of_unmarked hmarks] at hrenamed

theorem renamedFunction_self {d : FunctionDecl} (h : FormedFunction d)
    (hnew : R.new ∉ functionNames d) :
    RenamedFunction R marks d d := by
  have hrenamed : RenamedFunction R marks d (renameFunction R marks false d) :=
    renamedFunction_renameFunction h hnew fun hhere => nomatch hhere
  rwa [renameFunction_of_unmarked hmarks] at hrenamed

theorem renamedMethods_self {ds : List FunctionDecl} (h : FormedMethods ds)
    (hnew : R.new ∉ methodNames ds) :
    RenamedMethods R marks ds ds := by
  have hrenamed : RenamedMethods R marks ds (renameMethods R marks ds) :=
    renamedMethods_renameMethods h hnew
  rwa [renameMethods_of_unmarked hmarks] at hrenamed

end Stmt

end Lox
