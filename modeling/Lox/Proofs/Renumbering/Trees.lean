import Lox.Proofs.Syntax.Ids

/-!
# Renumbering trees

Ids tell the nodes of a tree apart, and that is all they are for. `renumber f` gives each node the
id `f id` in place of `id`. What it makes of a tree depends only on what it does to the ids of the
tree (`Stmt.renumber_congr`).
-/

namespace Lox

/-! ## Trees -/

namespace Expr

mutual

/-- The expression with other ids. -/
def renumber (f : NodeId → NodeId) : Expr → Expr
  | .literal l => .literal l
  | .grouping inner => .grouping (renumber f inner)
  | .unary operator right => .unary operator (renumber f right)
  | .binary left operator right => .binary (renumber f left) operator (renumber f right)
  | .logical left operator right => .logical (renumber f left) operator (renumber f right)
  | .variable id name => .variable (f id) name
  | .assign id name value => .assign (f id) name (renumber f value)
  | .call callee paren arguments => .call (renumber f callee) paren (renumberAll f arguments)
  | .get object name => .get (renumber f object) name
  | .set object name value => .set (renumber f object) name (renumber f value)
  | .thisRef id word => .thisRef (f id) word
  | .superRef id word method => .superRef (f id) word method

/-- The expressions with other ids. -/
def renumberAll (f : NodeId → NodeId) : List Expr → List Expr
  | [] => []
  | e :: rest => renumber f e :: renumberAll f rest

end

variable {f g : NodeId → NodeId}

mutual

/-- What matters of a renumbering is what it does to the ids of the tree. -/
theorem renumber_congr : ∀ (e : Expr), (∀ id ∈ e.ids, f id = g id) → e.renumber f = e.renumber g
  | .literal _, _ => rfl
  | .grouping inner, h => by simp only [renumber, renumber_congr inner h]
  | .unary _ right, h => by simp only [renumber, renumber_congr right h]
  | .binary left _ right, h | .logical left _ right, h => by
    simp only [ids, List.mem_append] at h
    simp only [renumber, renumber_congr left fun id hid => h id (.inl hid),
      renumber_congr right fun id hid => h id (.inr hid)]
  | .variable id _, h | .thisRef id _, h | .superRef id _ _, h => by
    simp only [renumber, h id List.mem_cons_self]
  | .assign id _ value, h => by
    simp only [ids, List.mem_append, List.mem_singleton] at h
    simp only [renumber, h id (.inr rfl), renumber_congr value fun id hid => h id (.inl hid)]
  | .call callee _ arguments, h => by
    simp only [ids, List.mem_append] at h
    simp only [renumber, renumber_congr callee fun id hid => h id (.inl hid),
      renumberAll_congr arguments fun id hid => h id (.inr hid)]
  | .get object _, h => by simp only [renumber, renumber_congr object h]
  | .set object _ value, h => by
    simp only [ids, List.mem_append] at h
    simp only [renumber, renumber_congr object fun id hid => h id (.inl hid),
      renumber_congr value fun id hid => h id (.inr hid)]

theorem renumberAll_congr : ∀ (es : List Expr), (∀ id ∈ idsAll es, f id = g id) →
    renumberAll f es = renumberAll g es
  | [], _ => rfl
  | e :: rest, h => by
    simp only [idsAll, List.mem_append] at h
    simp only [renumberAll, renumber_congr e fun id hid => h id (.inl hid),
      renumberAll_congr rest fun id hid => h id (.inr hid)]

end

theorem renumber?_congr {e? : Option Expr} (h : ∀ id ∈ ids? e?, f id = g id) :
    e?.map (renumber f) = e?.map (renumber g) := by
  cases e? with
  | none => rfl
  | some e => simp only [Option.map_some, renumber_congr e h]

mutual

/-- Expressions with the ids they have. -/
theorem renumber_id : ∀ (e : Expr), e.renumber id = e
  | .literal _ | .variable _ _ | .thisRef _ _ | .superRef _ _ _ => rfl
  | .grouping e | .unary _ e | .assign _ _ e | .get e _ => by
    simp only [renumber, renumber_id e, id_eq]
  | .binary a _ b | .logical a _ b | .set a _ b => by
    simp only [renumber, renumber_id a, renumber_id b]
  | .call callee _ arguments => by
    simp only [renumber, renumber_id callee, renumberAll_id arguments]

theorem renumberAll_id : ∀ (es : List Expr), renumberAll id es = es
  | [] => rfl
  | e :: rest => by simp only [renumberAll, renumber_id e, renumberAll_id rest]

end

/-- The node of a level keeps its form. -/
theorem renumber_node (f : NodeId → NodeId) (l : Level) (left right : Expr) (operator : Token) :
    (l.node left operator right).renumber f =
      l.node (left.renumber f) operator (right.renumber f) := by
  cases l <;> rfl

/-- A renumbering that leaves the ids of a tree alone leaves the tree alone. -/
theorem renumber_eq_self {e : Expr} (h : ∀ id ∈ e.ids, f id = id) : e.renumber f = e :=
  (renumber_congr (g := id) e h).trans (renumber_id e)

end Expr

namespace Stmt

mutual

/-- The statement with other ids. -/
def renumber (f : NodeId → NodeId) : Stmt → Stmt
  | .expression value => .expression (value.renumber f)
  | .print value => .print (value.renumber f)
  | .var name initializer => .var name (initializer.map (Expr.renumber f))
  | .block body => .block (renumberAll f body)
  | .ifThen condition thenBranch => .ifThen (condition.renumber f) (renumber f thenBranch)
  | .ifThenElse condition thenBranch elseBranch =>
    .ifThenElse (condition.renumber f) (renumber f thenBranch) (renumber f elseBranch)
  | .whileLoop condition body => .whileLoop (condition.renumber f) (renumber f body)
  | .function decl => .function (renumberFunction f decl)
  | .returnWith word value => .returnWith word (value.map (Expr.renumber f))
  | .classDef name superclass methods =>
    .classDef name (superclass.map (Expr.renumber f)) (renumberMethods f methods)

/-- The statements with other ids. -/
def renumberAll (f : NodeId → NodeId) : List Stmt → List Stmt
  | [] => []
  | s :: rest => renumber f s :: renumberAll f rest

/-- The function with other ids. -/
def renumberFunction (f : NodeId → NodeId) : FunctionDecl → FunctionDecl
  | ⟨name, params, body⟩ => ⟨name, params, renumberAll f body⟩

/-- The methods with other ids. -/
def renumberMethods (f : NodeId → NodeId) : List FunctionDecl → List FunctionDecl
  | [] => []
  | d :: rest => renumberFunction f d :: renumberMethods f rest

end

variable {f g : NodeId → NodeId}

mutual

/-- Only the ids of a statement matter. -/
theorem renumber_congr : ∀ (s : Stmt), (∀ id ∈ s.ids, f id = g id) → s.renumber f = s.renumber g
  | .expression value, h | .print value, h => by simp only [renumber, value.renumber_congr h]
  | .var _ _, h | .returnWith _ _, h => by simp only [renumber, Expr.renumber?_congr h]
  | .block body, h => by simp only [renumber, renumberAll_congr body h]
  | .ifThen condition s, h | .whileLoop condition s, h => by
    simp only [ids, List.mem_append] at h
    simp only [renumber, condition.renumber_congr fun id hid => h id (.inl hid),
      renumber_congr s fun id hid => h id (.inr hid)]
  | .ifThenElse condition thenBranch elseBranch, h => by
    simp only [ids, List.mem_append] at h
    simp only [renumber, condition.renumber_congr fun id hid => h id (.inl hid),
      renumber_congr thenBranch fun id hid => h id (.inr (.inl hid)),
      renumber_congr elseBranch fun id hid => h id (.inr (.inr hid))]
  | .function decl, h => by simp only [renumber, renumberFunction_congr decl h]
  | .classDef _ superclass methods, h => by
    simp only [ids, List.mem_append] at h
    simp only [renumber, Expr.renumber?_congr fun id hid => h id (.inl hid),
      renumberMethods_congr methods fun id hid => h id (.inr hid)]

theorem renumberAll_congr : ∀ (body : List Stmt), (∀ id ∈ idsAll body, f id = g id) →
    renumberAll f body = renumberAll g body
  | [], _ => rfl
  | s :: rest, h => by
    simp only [idsAll, List.mem_append] at h
    simp only [renumberAll, renumber_congr s fun id hid => h id (.inl hid),
      renumberAll_congr rest fun id hid => h id (.inr hid)]

theorem renumberFunction_congr : ∀ (d : FunctionDecl), (∀ id ∈ functionIds d, f id = g id) →
    renumberFunction f d = renumberFunction g d
  | ⟨_, _, body⟩, h => by simp only [renumberFunction, renumberAll_congr body h]

theorem renumberMethods_congr : ∀ (ds : List FunctionDecl), (∀ id ∈ methodIds ds, f id = g id) →
    renumberMethods f ds = renumberMethods g ds
  | [], _ => rfl
  | d :: rest, h => by
    simp only [methodIds, List.mem_append] at h
    simp only [renumberMethods, renumberFunction_congr d fun id hid => h id (.inl hid),
      renumberMethods_congr rest fun id hid => h id (.inr hid)]

end

theorem map_renumber_id (e? : Option Expr) : e?.map (Expr.renumber id) = e? := by
  cases e? with
  | none => rfl
  | some e => rw [Option.map_some, e.renumber_id]

mutual

/-- Statements with the ids they have. -/
theorem renumber_id : ∀ (s : Stmt), s.renumber id = s
  | .expression value | .print value => by simp only [renumber, value.renumber_id]
  | .var _ _ | .returnWith _ _ => by simp only [renumber, map_renumber_id]
  | .block body => by simp only [renumber, renumberAll_id body]
  | .ifThen condition s | .whileLoop condition s => by
    simp only [renumber, condition.renumber_id, renumber_id s]
  | .ifThenElse condition thenBranch elseBranch => by
    simp only [renumber, condition.renumber_id, renumber_id thenBranch, renumber_id elseBranch]
  | .function decl => by simp only [renumber, renumberFunction_id decl]
  | .classDef _ _ methods => by simp only [renumber, map_renumber_id, renumberMethods_id methods]

theorem renumberAll_id : ∀ (body : List Stmt), renumberAll id body = body
  | [] => rfl
  | s :: rest => by simp only [renumberAll, renumber_id s, renumberAll_id rest]

theorem renumberFunction_id : ∀ (d : FunctionDecl), renumberFunction id d = d
  | ⟨_, _, body⟩ => by simp only [renumberFunction, renumberAll_id body]

theorem renumberMethods_id : ∀ (ds : List FunctionDecl), renumberMethods id ds = ds
  | [] => rfl
  | d :: rest => by simp only [renumberMethods, renumberFunction_id d, renumberMethods_id rest]

end

/-- Statements whose ids do not change are the same. -/
theorem renumberAll_eq_self {body : List Stmt} (h : ∀ id ∈ idsAll body, f id = id) :
    renumberAll f body = body :=
  (renumberAll_congr (g := id) body h).trans (renumberAll_id body)

/-- Programs are renumbered piece by piece. -/
theorem renumberAll_append (f : NodeId → NodeId) (xs ys : List Stmt) :
    renumberAll f (xs ++ ys) = renumberAll f xs ++ renumberAll f ys := by
  induction xs with
  | nil => rfl
  | cons s rest ih => simp only [List.cons_append, renumberAll, ih]

theorem renumberAll_toList (f : NodeId → NodeId) (s? : Option Stmt) :
    renumberAll f s?.toList = (s?.map (renumber f)).toList := by
  cases s? <;> rfl

/-- A `for` loop keeps its form. -/
theorem renumber_forLoop (f : NodeId → NodeId) (initializer : Option Stmt)
    (condition increment : Option Expr) (body : Stmt) :
    (forLoop initializer condition increment body).renumber f =
      forLoop (initializer.map (renumber f)) (condition.map (Expr.renumber f))
      (increment.map (Expr.renumber f))
        (body.renumber f) := by
  cases initializer <;> cases condition <;> cases increment <;> rfl

end Stmt

/-- The cursor with some ids left out. -/
def Cursor.skipIds (k : Nat) (c : Cursor) : Cursor :=
  { c with nextId := c.nextId + k }

end Lox
