import Lox.Syntax.Parse

/-!
# Ids of nodes

Every node that names a variable gets an id of its own. `Between lo hi` says of the ids of a tree
that they come from one stretch of a counter, and that none occurs twice.
-/

namespace Lox

/-! ## The ids of a tree -/

namespace Expr

mutual

/-- The ids of the nodes of an expression. -/
def ids : Expr → List NodeId
  | .literal _ => []
  | .grouping inner => ids inner
  | .unary _ right => ids right
  | .binary left _ right => ids left ++ ids right
  | .logical left _ right => ids left ++ ids right
  | .variable id _ => [id]
  | .assign id _ value => ids value ++ [id]
  | .call callee _ arguments => ids callee ++ idsAll arguments
  | .get object _ => ids object
  | .set object _ value => ids object ++ ids value
  | .thisRef id _ => [id]
  | .superRef id _ _ => [id]

/-- The ids of the nodes of expressions. -/
def idsAll : List Expr → List NodeId
  | [] => []
  | e :: rest => ids e ++ idsAll rest

end

/-- The ids of the nodes of an expression that may be missing. -/
def ids? : Option Expr → List NodeId
  | none => []
  | some e => e.ids

end Expr

namespace Stmt

mutual

/-- The ids of the nodes of a statement. -/
def ids : Stmt → List NodeId
  | .expression value => value.ids
  | .print value => value.ids
  | .var _ initializer => Expr.ids? initializer
  | .block body => idsAll body
  | .ifThen condition thenBranch => condition.ids ++ ids thenBranch
  | .ifThenElse condition thenBranch elseBranch =>
    condition.ids ++ (ids thenBranch ++ ids elseBranch)
  | .whileLoop condition body => condition.ids ++ ids body
  | .function decl => functionIds decl
  | .returnWith _ value => Expr.ids? value
  | .classDef _ superclass methods => Expr.ids? superclass ++ methodIds methods

/-- The ids of the nodes of statements. -/
def idsAll : List Stmt → List NodeId
  | [] => []
  | s :: rest => ids s ++ idsAll rest

/-- The ids of the nodes of a function. -/
def functionIds : FunctionDecl → List NodeId
  | ⟨_, _, body⟩ => idsAll body

/-- The ids of the nodes of methods. -/
def methodIds : List FunctionDecl → List NodeId
  | [] => []
  | d :: rest => functionIds d ++ methodIds rest

end

/-- The ids of an initializer that may be missing. -/
def ids? : Option Stmt → List NodeId
  | none => []
  | some s => s.ids

end Stmt

/-! ## Ids from a stretch of the counter -/

/-- Ids from `lo` up to, but not including, `hi`, none of them twice. -/
structure Between (lo hi : Nat) (ids : List Nat) : Prop where
  bounds : ∀ id ∈ ids, lo ≤ id ∧ id < hi
  nodup : ids.Nodup

namespace Between

variable {lo mid hi : Nat} {xs ys : List Nat}

theorem nil : Between lo hi [] :=
  ⟨by simp, List.nodup_nil⟩

/-- One id is taken. -/
theorem single : Between lo (lo + 1) [lo] := by
  refine ⟨fun id h => ?_, by simp⟩
  rw [List.mem_singleton.mp h]
  exact ⟨Nat.le_refl _, Nat.lt_succ_self _⟩

/-- A later stretch can be put after an earlier one. -/
theorem append (hx : Between lo mid xs) (hy : Between mid hi ys) (hlo : lo ≤ mid) (hhi : mid ≤ hi) :
    Between lo hi (xs ++ ys) := by
  refine ⟨fun id h => ?_, List.nodup_append.mpr ⟨hx.nodup, hy.nodup, fun a ha b hb => ?_⟩⟩
  · rcases List.mem_append.mp h with h | h
    · have := hx.bounds id h
      omega
    · have := hy.bounds id h
      omega
  · have := hx.bounds a ha
    have := hy.bounds b hb
    omega

/-- The order of ids does not matter, so a later stretch can also be put before an earlier one. -/
theorem perm (h : Between lo hi xs) (hp : xs.Perm ys) : Between lo hi ys :=
  ⟨fun id hid => h.bounds id (hp.mem_iff.mpr hid), hp.nodup_iff.mp h.nodup⟩

theorem widen {lo' : Nat} (h : Between lo hi xs) (hlo : lo' ≤ lo) : Between lo' hi xs :=
  ⟨fun id hid => ⟨Nat.le_trans hlo (h.bounds id hid).1, (h.bounds id hid).2⟩, h.nodup⟩

end Between

theorem Expr.ids_node (l : Level) (left right : Expr) (operator : Token) :
    (l.node left operator right).ids = left.ids ++ right.ids := by
  cases l <;> rfl

namespace Stmt

/-- A `for` loop has the ids of its parts, in another order. -/
theorem ids_forLoop (initializer : Option Stmt) (condition increment : Option Expr) (body : Stmt) :
    (ids? initializer ++ (Expr.ids? condition ++ (Expr.ids? increment ++ body.ids))).Perm
      (forLoop initializer condition increment body).ids := by
  have hswap (a b : List NodeId) : (a ++ b).Perm (b ++ a) := List.perm_append_comm
  cases initializer <;> cases condition <;> cases increment <;>
    simp [forLoop, ids, idsAll, ids?, Expr.ids?, Expr.ids, hswap, List.Perm.append_left]

theorem idsAll_toList (s? : Option Stmt) (rest : List Stmt) :
    idsAll (s?.toList ++ rest) = ids? s? ++ idsAll rest := by
  cases s? <;> simp [idsAll, ids?]

end Stmt

/-! ## Readers -/

/-- Where reading stands after a reader. -/
def Reading.cursor {α : Type} : Reading α → Cursor
  | .done _ c => c
  | .failed _ c => c

/-- Reads one item and, after a comma, the others. -/
def Reader.commaList {α : Type} (first : Reader α) (others : Reader (List α)) :
    Reader (List α) := do
  let a ← first
  match ← Reader.acceptSymbol .comma with
  | some _ =>
    let rest ← others
    return a :: rest
  | none => return [a]

end Lox
