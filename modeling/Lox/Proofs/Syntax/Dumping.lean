import Lox.Proofs.Json.Decoding
import Lox.Syntax.Dump

/-!
# Dumps show trees

The JSON of a node has one field, named for the kind of the node, and all parts of the node in it.
So the JSON shows the tree with all its ids, tokens and constants (`Stmt.toJsonAll_injective`), and
since texts show JSON, so does the dump of a program (`Stmt.dump_is_lossless`).
-/

namespace Lox

variable {kind : String}

/-! ## Trees with finite numbers -/

/-- A number that a token stands for is finite. -/
def Kind.Finite : Kind → Prop
  | .number x => Number.IsFinite x
  | _ => True

/-- A number that a token stands for is finite. -/
def Token.Finite (t : Token) : Prop :=
  t.kind.Finite

/-- A constant is not a number, or a finite one. -/
def Literal.Finite : Literal → Prop
  | .number x => Number.IsFinite x
  | _ => True

namespace Expr

mutual

/-- All numbers of an expression are finite, in constants and in tokens. -/
def Finite : Expr → Prop
  | .literal value => value.Finite
  | .grouping inner => Finite inner
  | .unary operator right => operator.Finite ∧ Finite right
  | .binary left operator right => Finite left ∧ operator.Finite ∧ Finite right
  | .logical left operator right => Finite left ∧ operator.Finite ∧ Finite right
  | .variable _ name => name.Finite
  | .assign _ name value => name.Finite ∧ Finite value
  | .call callee paren arguments => Finite callee ∧ paren.Finite ∧ FiniteAll arguments
  | .get object name => Finite object ∧ name.Finite
  | .set object name value => Finite object ∧ name.Finite ∧ Finite value
  | .thisRef _ word => word.Finite
  | .superRef _ word method => word.Finite ∧ method.Finite

/-- All numbers of some expressions are finite. -/
def FiniteAll : List Expr → Prop
  | [] => True
  | e :: rest => Finite e ∧ FiniteAll rest

end

/-- All numbers of an expression that may be missing are finite. -/
def Finite? : Option Expr → Prop
  | none => True
  | some e => e.Finite

end Expr

namespace Stmt

mutual

/-- All numbers of a statement are finite, in constants and in tokens. -/
def Finite : Stmt → Prop
  | .expression value => value.Finite
  | .print value => value.Finite
  | .var name initializer => name.Finite ∧ Expr.Finite? initializer
  | .block body => FiniteAll body
  | .ifThen condition thenBranch => condition.Finite ∧ Finite thenBranch
  | .ifThenElse condition thenBranch elseBranch =>
    condition.Finite ∧ Finite thenBranch ∧ Finite elseBranch
  | .whileLoop condition body => condition.Finite ∧ Finite body
  | .function decl => FunctionFinite decl
  | .returnWith word value => word.Finite ∧ Expr.Finite? value
  | .classDef name superclass methods =>
    name.Finite ∧ Expr.Finite? superclass ∧ FunctionsFinite methods

/-- All numbers of a function are finite. -/
def FunctionFinite : FunctionDecl → Prop
  | ⟨name, params, body⟩ => name.Finite ∧ (∀ p ∈ params, p.Finite) ∧ FiniteAll body

/-- All numbers of some statements are finite. -/
def FiniteAll : List Stmt → Prop
  | [] => True
  | s :: rest => Finite s ∧ FiniteAll rest

/-- All numbers of some functions are finite. -/
def FunctionsFinite : List FunctionDecl → Prop
  | [] => True
  | d :: rest => FunctionFinite d ∧ FunctionsFinite rest

end

end Stmt

/-! ## Finite numbers in JSON -/

theorem Kind.finite_toJson {k : Kind} (h : k.Finite) : k.toJson.Finite := by
  cases k with
  | number x => exact ⟨h, trivial⟩
  | string s => exact ⟨trivial, trivial⟩
  | _ => trivial

/-- A token with a finite number has a finite dump. -/
theorem Token.finite_toJson {t : Token} (h : t.Finite) : t.toJson.Finite :=
  ⟨Kind.finite_toJson h, trivial, trivial, trivial⟩

theorem Literal.finite_toJson {l : Literal} (h : l.Finite) : l.toJson.Finite := by
  cases l with
  | number x => exact ⟨h, trivial⟩
  | string s => exact ⟨trivial, trivial⟩
  | _ => trivial

namespace Json

/-- A node has finite numbers if all its parts have. -/
theorem finite_node {parts : List Field} (h : FiniteFields parts) : (node kind parts).Finite :=
  ⟨h, trivial⟩

theorem finite_wrap {part : Json} (h : part.Finite) : (wrap kind part).Finite :=
  ⟨h, trivial⟩

end Json

namespace Expr

open Json (finite_node finite_wrap)

mutual

/-- An expression of finite numbers has a finite dump. -/
theorem finite_toJson : ∀ {e : Expr}, e.Finite → e.toJson.Finite
  | .literal _, h => finite_wrap (Literal.finite_toJson h)
  | .grouping _, h => finite_wrap (finite_toJson h)
  | .unary _ _, h => finite_node ⟨Token.finite_toJson h.1, finite_toJson h.2, trivial⟩
  | .binary _ _ _, h =>
    finite_node ⟨finite_toJson h.1, Token.finite_toJson h.2.1, finite_toJson h.2.2, trivial⟩
  | .logical _ _ _, h =>
    finite_node ⟨finite_toJson h.1, Token.finite_toJson h.2.1, finite_toJson h.2.2, trivial⟩
  | .variable _ _, h => finite_node ⟨trivial, Token.finite_toJson h, trivial⟩
  | .assign _ _ _, h => finite_node ⟨trivial, Token.finite_toJson h.1, finite_toJson h.2, trivial⟩
  | .call _ _ _, h =>
    finite_node ⟨finite_toJson h.1, Token.finite_toJson h.2.1, finite_toJsonAll h.2.2, trivial⟩
  | .get _ _, h => finite_node ⟨finite_toJson h.1, Token.finite_toJson h.2, trivial⟩
  | .set _ _ _, h =>
    finite_node ⟨finite_toJson h.1, Token.finite_toJson h.2.1, finite_toJson h.2.2, trivial⟩
  | .thisRef _ _, h => finite_node ⟨trivial, Token.finite_toJson h, trivial⟩
  | .superRef _ _ _, h =>
    finite_node ⟨trivial, Token.finite_toJson h.1, Token.finite_toJson h.2, trivial⟩

theorem finite_toJsonAll : ∀ {es : List Expr}, FiniteAll es → Json.FiniteItems (toJsonAll es)
  | [], _ => trivial
  | _ :: _, h => ⟨finite_toJson h.1, finite_toJsonAll h.2⟩

end

theorem finite_toJson? {e? : Option Expr} (h : Finite? e?) : (toJson? e?).Finite := by
  cases e? with
  | none => trivial
  | some e => exact finite_toJson h

end Expr

theorem Token.finite_map_toJson {tokens : List Token} (h : ∀ t ∈ tokens, t.Finite) :
    Json.FiniteItems (tokens.map Token.toJson) := by
  rw [Json.finiteItems_iff]
  intro j hj
  obtain ⟨t, ht, rfl⟩ := List.mem_map.mp hj
  exact Token.finite_toJson (h t ht)

namespace Stmt

open Json (finite_node finite_wrap)

mutual

/-- A statement of finite numbers has a finite dump. -/
theorem finite_toJson : ∀ {s : Stmt}, s.Finite → s.toJson.Finite
  | .expression _, h => finite_wrap (Expr.finite_toJson h)
  | .print _, h => finite_wrap (Expr.finite_toJson h)
  | .var _ _, h => finite_node ⟨Token.finite_toJson h.1, Expr.finite_toJson? h.2, trivial⟩
  | .block _, h => finite_wrap (finite_toJsonAll h)
  | .ifThen _ _, h => finite_node ⟨Expr.finite_toJson h.1, finite_toJson h.2, trivial, trivial⟩
  | .ifThenElse _ _ _, h =>
    finite_node ⟨Expr.finite_toJson h.1, finite_toJson h.2.1, finite_toJson h.2.2, trivial⟩
  | .whileLoop _ _, h => finite_node ⟨Expr.finite_toJson h.1, finite_toJson h.2, trivial⟩
  | .function _, h => finite_wrap (finite_functionToJson h)
  | .returnWith _ _, h => finite_node ⟨Token.finite_toJson h.1, Expr.finite_toJson? h.2, trivial⟩
  | .classDef _ _ _, h =>
    finite_node ⟨Token.finite_toJson h.1, Expr.finite_toJson? h.2.1, finite_functionsToJson h.2.2,
      trivial⟩

theorem finite_functionToJson : ∀ {d : FunctionDecl}, FunctionFinite d → (functionToJson d).Finite
  | ⟨_, _, _⟩, h =>
    ⟨Token.finite_toJson h.1, Token.finite_map_toJson h.2.1, finite_toJsonAll h.2.2, trivial⟩

theorem finite_toJsonAll : ∀ {body : List Stmt}, FiniteAll body → Json.FiniteItems (toJsonAll body)
  | [], _ => trivial
  | _ :: _, h => ⟨finite_toJson h.1, finite_toJsonAll h.2⟩

theorem finite_functionsToJson :
    ∀ {ds : List FunctionDecl}, FunctionsFinite ds → Json.FiniteItems (functionsToJson ds)
  | [], _ => trivial
  | _ :: _, h => ⟨finite_functionToJson h.1, finite_functionsToJson h.2⟩

end

end Stmt

/-! ## JSON shows trees -/

/-- The kind that JSON stands for. -/
def Kind.ofJson? : Json → Option Kind
  | .string name => ofName? name "" 0
  | .object [.mk _ (.string s)] => some (.string s)
  | .object [.mk _ (.number x)] => some (.number x)
  | _ => none

/-- The kind of a token can be read back. -/
theorem Kind.ofJson?_toJson (k : Kind) : ofJson? k.toJson = some k := by
  cases k with
  | symbol s => cases s <;> rfl
  | keyword w => cases w <;> rfl
  | _ => rfl

/-- Different tokens have different dumps. -/
theorem Token.toJson_injective {t t' : Token} (h : t.toJson = t'.toJson) : t = t' := by
  obtain ⟨kind, lexeme, line⟩ := t
  obtain ⟨kind', lexeme', line'⟩ := t'
  simp only [toJson, Json.object.injEq, List.cons.injEq, Json.Field.mk.injEq, Json.string.injEq,
    Json.nat.injEq, true_and, and_true] at h
  obtain ⟨hkind, rfl, rfl⟩ := h
  have hread := congrArg Kind.ofJson? hkind
  rw [Kind.ofJson?_toJson, Kind.ofJson?_toJson] at hread
  cases hread
  rfl

theorem Token.map_toJson_injective {tokens tokens' : List Token}
    (h : tokens.map Token.toJson = tokens'.map Token.toJson) : tokens = tokens' :=
  List.map_injective_iff.mpr (fun _ _ heq => toJson_injective heq) h

/-- The constant that JSON stands for. -/
def Literal.ofJson? : Json → Option Literal
  | .object [.mk _ (.number x)] => some (.number x)
  | .object [.mk _ (.string s)] => some (.string s)
  | .string name =>
    if name = "True" then some .true else if name = "False" then some .false else some .nil
  | _ => none

/-- A literal can be read back. -/
theorem Literal.ofJson?_toJson (l : Literal) : ofJson? l.toJson = some l := by
  cases l <;> rfl

theorem Literal.toJson_injective {l l' : Literal} (h : l.toJson = l'.toJson) : l = l' := by
  have hread := congrArg ofJson? h
  rw [ofJson?_toJson, ofJson?_toJson] at hread
  exact Option.some.inj hread

namespace Json

/-- The name of the only field of an object. -/
def key? : Json → Option String
  | .object [.mk key _] => some key
  | _ => none

/-- Nodes of different kinds have different names. -/
theorem ne_of_key? {j j' : Json} (h : (j.key? == j'.key?) = false) : j ≠ j' := by
  rintro rfl
  rw [beq_self_eq_true] at h
  cases h

theorem wrap_inj {part part' : Json} (h : wrap kind part = wrap kind part') : part = part' := by
  cases h
  rfl

/-- The parts of a node can be told from its dump. -/
theorem node_two_inj {key₁ key₂ : String} {j₁ j₂ j₁' j₂' : Json}
    (h : node kind [.mk key₁ j₁, .mk key₂ j₂] = node kind [.mk key₁ j₁', .mk key₂ j₂']) :
    j₁ = j₁' ∧ j₂ = j₂' := by
  cases h
  exact ⟨rfl, rfl⟩

theorem node_three_inj {key₁ key₂ key₃ : String} {j₁ j₂ j₃ j₁' j₂' j₃' : Json}
    (h : node kind [.mk key₁ j₁, .mk key₂ j₂, .mk key₃ j₃] =
      node kind [.mk key₁ j₁', .mk key₂ j₂', .mk key₃ j₃']) :
    j₁ = j₁' ∧ j₂ = j₂' ∧ j₃ = j₃' := by
  cases h
  exact ⟨rfl, rfl, rfl⟩

end Json

namespace Expr

open Json (ne_of_key? wrap_inj node_two_inj node_three_inj)

mutual

/-- Different expressions have different dumps. -/
theorem toJson_injective : ∀ {e e' : Expr}, e.toJson = e'.toJson → e = e'
  | .literal l, e', h => by
    cases e' with
    | literal l' => rw [Literal.toJson_injective (wrap_inj h)]
    | _ => exact absurd h (ne_of_key? rfl)
  | .grouping inner, e', h => by
    cases e' with
    | grouping inner' => rw [toJson_injective (wrap_inj h)]
    | _ => exact absurd h (ne_of_key? rfl)
  | .unary operator right, e', h => by
    cases e' with
    | unary operator' right' =>
      obtain ⟨hoperator, hright⟩ := node_two_inj h
      rw [Token.toJson_injective hoperator, toJson_injective hright]
    | _ => exact absurd h (ne_of_key? rfl)
  | .binary left operator right, e', h => by
    cases e' with
    | binary left' operator' right' =>
      obtain ⟨hleft, hoperator, hright⟩ := node_three_inj h
      rw [toJson_injective hleft, Token.toJson_injective hoperator, toJson_injective hright]
    | _ => exact absurd h (ne_of_key? rfl)
  | .logical left operator right, e', h => by
    cases e' with
    | logical left' operator' right' =>
      obtain ⟨hleft, hoperator, hright⟩ := node_three_inj h
      rw [toJson_injective hleft, Token.toJson_injective hoperator, toJson_injective hright]
    | _ => exact absurd h (ne_of_key? rfl)
  | .variable id name, e', h => by
    cases e' with
    | «variable» id' name' =>
      obtain ⟨hid, hname⟩ := node_two_inj h
      rw [Json.nat.inj hid, Token.toJson_injective hname]
    | _ => exact absurd h (ne_of_key? rfl)
  | .assign id name value, e', h => by
    cases e' with
    | assign id' name' value' =>
      obtain ⟨hid, hname, hvalue⟩ := node_three_inj h
      rw [Json.nat.inj hid, Token.toJson_injective hname, toJson_injective hvalue]
    | _ => exact absurd h (ne_of_key? rfl)
  | .call callee paren arguments, e', h => by
    cases e' with
    | call callee' paren' arguments' =>
      obtain ⟨hcallee, hparen, harguments⟩ := node_three_inj h
      rw [toJson_injective hcallee, Token.toJson_injective hparen,
        toJsonAll_injective (Json.array.inj harguments)]
    | _ => exact absurd h (ne_of_key? rfl)
  | .get object name, e', h => by
    cases e' with
    | get object' name' =>
      obtain ⟨hobject, hname⟩ := node_two_inj h
      rw [toJson_injective hobject, Token.toJson_injective hname]
    | _ => exact absurd h (ne_of_key? rfl)
  | .set object name value, e', h => by
    cases e' with
    | set object' name' value' =>
      obtain ⟨hobject, hname, hvalue⟩ := node_three_inj h
      rw [toJson_injective hobject, Token.toJson_injective hname, toJson_injective hvalue]
    | _ => exact absurd h (ne_of_key? rfl)
  | .thisRef id word, e', h => by
    cases e' with
    | thisRef id' word' =>
      obtain ⟨hid, hword⟩ := node_two_inj h
      rw [Json.nat.inj hid, Token.toJson_injective hword]
    | _ => exact absurd h (ne_of_key? rfl)
  | .superRef id word method, e', h => by
    cases e' with
    | superRef id' word' method' =>
      obtain ⟨hid, hword, hmethod⟩ := node_three_inj h
      rw [Json.nat.inj hid, Token.toJson_injective hword, Token.toJson_injective hmethod]
    | _ => exact absurd h (ne_of_key? rfl)

theorem toJsonAll_injective : ∀ {es es' : List Expr}, toJsonAll es = toJsonAll es' → es = es'
  | [], es', h => by
    cases es' with
    | nil => rfl
    | cons e' rest' => cases h
  | e :: rest, es', h => by
    cases es' with
    | nil => cases h
    | cons e' rest' =>
      obtain ⟨hfirst, hrest⟩ := List.cons.inj h
      rw [toJson_injective hfirst, toJsonAll_injective hrest]

end

/-- An expression that is there is not dumped as one that is missing. -/
theorem toJson_ne_null (e : Expr) : e.toJson ≠ .null := by
  cases e <;> exact fun h => by cases h

/-- A missing expression is told from one that is there. -/
theorem toJson?_injective {e? e?' : Option Expr} (h : toJson? e? = toJson? e?') : e? = e?' := by
  cases e? with
  | none =>
    cases e?' with
    | none => rfl
    | some e' => exact absurd h.symm e'.toJson_ne_null
  | some e =>
    cases e?' with
    | none => exact absurd h e.toJson_ne_null
    | some e' => rw [toJson_injective h]

end Expr

namespace Stmt

open Json (ne_of_key? wrap_inj node_two_inj node_three_inj)

theorem toJson_ne_null (s : Stmt) : s.toJson ≠ .null := by
  cases s <;> exact fun h => by cases h

mutual

/-- Different statements have different dumps. -/
theorem toJson_injective : ∀ {s s' : Stmt}, s.toJson = s'.toJson → s = s'
  | .expression value, s', h => by
    cases s' with
    | expression value' => rw [Expr.toJson_injective (wrap_inj h)]
    | _ => exact absurd h (ne_of_key? rfl)
  | .print value, s', h => by
    cases s' with
    | print value' => rw [Expr.toJson_injective (wrap_inj h)]
    | _ => exact absurd h (ne_of_key? rfl)
  | .var name initializer, s', h => by
    cases s' with
    | var name' initializer' =>
      obtain ⟨hname, hinitializer⟩ := node_two_inj h
      rw [Token.toJson_injective hname, Expr.toJson?_injective hinitializer]
    | _ => exact absurd h (ne_of_key? rfl)
  | .block body, s', h => by
    cases s' with
    | block body' => rw [toJsonAll_injective (Json.array.inj (wrap_inj h))]
    | _ => exact absurd h (ne_of_key? rfl)
  | .ifThen condition thenBranch, s', h => by
    cases s' with
    | ifThen condition' thenBranch' =>
      obtain ⟨hcondition, hthen, -⟩ := node_three_inj h
      rw [Expr.toJson_injective hcondition, toJson_injective hthen]
    | ifThenElse condition' thenBranch' elseBranch' =>
      obtain ⟨-, -, helse⟩ := node_three_inj h
      exact absurd helse.symm elseBranch'.toJson_ne_null
    | _ => exact absurd h (ne_of_key? rfl)
  | .ifThenElse condition thenBranch elseBranch, s', h => by
    cases s' with
    | ifThen condition' thenBranch' =>
      obtain ⟨-, -, helse⟩ := node_three_inj h
      exact absurd helse elseBranch.toJson_ne_null
    | ifThenElse condition' thenBranch' elseBranch' =>
      obtain ⟨hcondition, hthen, helse⟩ := node_three_inj h
      rw [Expr.toJson_injective hcondition, toJson_injective hthen, toJson_injective helse]
    | _ => exact absurd h (ne_of_key? rfl)
  | .whileLoop condition body, s', h => by
    cases s' with
    | whileLoop condition' body' =>
      obtain ⟨hcondition, hbody⟩ := node_two_inj h
      rw [Expr.toJson_injective hcondition, toJson_injective hbody]
    | _ => exact absurd h (ne_of_key? rfl)
  | .function decl, s', h => by
    cases s' with
    | function decl' => rw [functionToJson_injective (wrap_inj h)]
    | _ => exact absurd h (ne_of_key? rfl)
  | .returnWith word value, s', h => by
    cases s' with
    | returnWith word' value' =>
      obtain ⟨hword, hvalue⟩ := node_two_inj h
      rw [Token.toJson_injective hword, Expr.toJson?_injective hvalue]
    | _ => exact absurd h (ne_of_key? rfl)
  | .classDef name superclass methods, s', h => by
    cases s' with
    | classDef name' superclass' methods' =>
      obtain ⟨hname, hsuperclass, hmethods⟩ := node_three_inj h
      rw [Token.toJson_injective hname, Expr.toJson?_injective hsuperclass,
        functionsToJson_injective (Json.array.inj hmethods)]
    | _ => exact absurd h (ne_of_key? rfl)

theorem functionToJson_injective :
    ∀ {d d' : FunctionDecl}, functionToJson d = functionToJson d' → d = d'
  | ⟨name, params, body⟩, ⟨name', params', body'⟩, h => by
    -- The fields stand where those of a node stand.
    obtain ⟨hname, hparams, hbody⟩ := node_three_inj (congrArg (Json.wrap "Function") h)
    rw [Token.toJson_injective hname, Token.map_toJson_injective (Json.array.inj hparams),
      toJsonAll_injective (Json.array.inj hbody)]

theorem toJsonAll_injective :
    ∀ {body body' : List Stmt}, toJsonAll body = toJsonAll body' → body = body'
  | [], body', h => by
    cases body' with
    | nil => rfl
    | cons s' rest' => cases h
  | s :: rest, body', h => by
    cases body' with
    | nil => cases h
    | cons s' rest' =>
      obtain ⟨hfirst, hrest⟩ := List.cons.inj h
      rw [toJson_injective hfirst, toJsonAll_injective hrest]

theorem functionsToJson_injective :
    ∀ {ds ds' : List FunctionDecl}, functionsToJson ds = functionsToJson ds' → ds = ds'
  | [], ds', h => by
    cases ds' with
    | nil => rfl
    | cons d' rest' => cases h
  | d :: rest, ds', h => by
    cases ds' with
    | nil => cases h
    | cons d' rest' =>
      obtain ⟨hfirst, hrest⟩ := List.cons.inj h
      rw [functionToJson_injective hfirst, functionsToJson_injective hrest]

end

/-- **The dump of a program is lossless**, and so is that of tokens: if all numbers are finite then
programs with the same text are the same, with all ids, lines, spellings and constants. -/
theorem dump_is_lossless :
    (∀ p q : List Stmt, FiniteAll p → FiniteAll q →
      (programToJson p).pretty = (programToJson q).pretty → p = q) ∧
    ∀ t t' : Token, t.Finite → t'.Finite → t.toJson.compact = t'.toJson.compact → t = t' := by
  constructor
  · intro p q hp hq h
    have hjson : programToJson p = programToJson q :=
      Json.pretty_injective (finite_toJsonAll hp) (finite_toJsonAll hq) h
    exact toJsonAll_injective (Json.array.inj hjson)
  · intro t t' ht ht' h
    exact Token.toJson_injective
      (Json.compact_injective (Token.finite_toJson ht) (Token.finite_toJson ht') h)

/-- A program with a string that looks like the end of a dump, and a number. -/
def misleading (x : Float) : List Stmt :=
  [.var ⟨.identifier, "s", 1⟩ (some (.literal (.string "\"]\n\\"))), .print (.literal (.number x))]

/-- One divided by ten is dumped as a tenth, and so it is one. -/
theorem tenth_dumped_as_quotient : Number.IsFinite 0.1 ∧ Number.IsFinite (1 / 10) ∧
    (programToJson (misleading 0.1)).pretty = (programToJson (misleading (1 / 10))).pretty ∧
    misleading 0.1 = misleading (1 / 10) := by
  have htenth : Number.IsFinite 0.1 := ⟨false, 7205759403792794, -56, by decide +kernel⟩
  have hquotient : Number.IsFinite (1 / 10) := ⟨false, 7205759403792794, -56, by decide +kernel⟩
  have htext : (programToJson (misleading 0.1)).pretty =
      (programToJson (misleading (1 / 10))).pretty := by
    decide +kernel
  refine ⟨htenth, hquotient, htext, dump_is_lossless.1 _ _ ?_ ?_ htext⟩
  · exact ⟨⟨trivial, trivial⟩, htenth, trivial⟩
  · exact ⟨⟨trivial, trivial⟩, hquotient, trivial⟩

end Stmt

end Lox
