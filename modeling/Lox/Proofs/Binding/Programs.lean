import Lox.Machine.Run
import Lox.Proofs.Binding.Following

/-!
# Programs and their scopes

The two results on the walk over a program that was read from a source, with or without errors: the
distances that it records are the lexical addresses in the outline of the program, whatever was
recorded before and whichever global variables there are, and it reports just the places that break
a rule.
-/

namespace Lox

open Outline

/-! ## The ids in an outline -/

theorem Outline.uses_framed {m n : Mark} (hm : m.use? = none) (hn : n.use? = none) (M : List Mark) :
    uses (m :: (M ++ [n])) = uses M := by
  simp [uses, hm, hn]

namespace Expr

mutual

/-- The uses in the outline of an expression are its ids. -/
theorem uses_outline : ∀ (e : Expr), (uses e.outline).Perm e.ids
  | .literal _ => .nil
  | .grouping e | .unary _ e | .get e _ => uses_outline e
  | .binary a _ b | .logical a _ b => by
    rw [outline, uses_append]
    exact (uses_outline a).append (uses_outline b)
  | .variable _ _ | .thisRef _ _ | .superRef _ _ _ => .refl _
  | .assign _ _ value => by
    rw [outline, uses_append]
    exact (uses_outline value).append (.refl _)
  | .call callee _ arguments => by
    rw [outline, uses_append]
    exact (uses_outline callee).append (uses_outlineAll arguments)
  | .set object _ value => by
    rw [outline, uses_append]
    exact ((uses_outline value).append (uses_outline object)).trans List.perm_append_comm

theorem uses_outlineAll : ∀ (es : List Expr), (uses (outlineAll es)).Perm (idsAll es)
  | [] => .nil
  | e :: rest => by
    rw [outlineAll, uses_append]
    exact (uses_outline e).append (uses_outlineAll rest)

end

theorem uses_outline? : ∀ (e? : Option Expr), (uses (outline? e?)).Perm (ids? e?)
  | none => .nil
  | some e => e.uses_outline

theorem uses_superclassOutline (name : Token) (e : Expr) :
    (uses (e.superclassOutline name)).Perm e.ids := by
  cases e with
  | «variable» => exact .refl _
  | _ => exact uses_outline _

end Expr

namespace Stmt

theorem uses_params (params : List Token) : uses (params.map .declares) = [] := by
  simp [uses, Mark.use?]

/-- Before its methods a class uses what its superclass uses. -/
theorem uses_classEntry (name : Token) : ∀ (superclass : Option Expr),
    (uses (classEntry name superclass)).Perm (Expr.ids? superclass)
  | none => .nil
  | some e => by
    have h : uses (classEntry name (some e)) = uses (e.superclassOutline name) := by
      rw [classEntry, ← List.singleton_append, uses_append, uses_append]
      exact List.append_nil _
    rw [h]
    exact e.uses_superclassOutline name

theorem uses_classExit (superclass : Option Expr) : uses (classExit superclass) = [] := by
  cases superclass <;> rfl

mutual

/-- The uses in an outline belong to the nodes of the statement that carry an id, one to each. -/
theorem uses_outline : ∀ (s : Stmt), (uses s.outline).Perm s.ids
  | .expression value | .print value => value.uses_outline
  | .var _ none => .nil
  | .var name (some value) => by
    rw [outline, uses_framed rfl rfl]
    exact value.uses_outline
  | .block body => by
    rw [outline, uses_framed rfl rfl]
    exact uses_outlineAll body
  | .ifThen condition branch | .whileLoop condition branch => by
    rw [outline, uses_append]
    exact condition.uses_outline.append (uses_outline branch)
  | .ifThenElse condition thenBranch elseBranch => by
    rw [outline, uses_append, uses_append, List.append_assoc]
    exact condition.uses_outline.append ((uses_outline thenBranch).append (uses_outline elseBranch))
  | .function decl => uses_functionOutline (.function decl.name) decl
  | .returnWith _ value => Expr.uses_outline? value
  | .classDef name superclass methods => by
    rw [outline, uses_append, uses_append, uses_classExit, List.append_nil]
    exact (uses_classEntry name superclass).append (uses_methodsOutline methods)

theorem uses_functionOutline :
    ∀ (o : Opening) (d : FunctionDecl), (uses (functionOutline o d)).Perm (functionIds d)
  | _, ⟨_, params, body⟩ => by
    rw [functionOutline, uses_framed rfl rfl, uses_append, uses_params, List.nil_append]
    exact uses_outlineAll body

theorem uses_outlineAll : ∀ (body : List Stmt), (uses (outlineAll body)).Perm (idsAll body)
  | [] => .nil
  | s :: rest => by
    rw [outlineAll, uses_append]
    exact (uses_outline s).append (uses_outlineAll rest)

theorem uses_methodsOutline :
    ∀ (ds : List FunctionDecl), (uses (methodsOutline ds)).Perm (methodIds ds)
  | [] => .nil
  | d :: rest => by
    rw [methodsOutline, uses_append]
    exact (uses_functionOutline _ d).append (uses_methodsOutline rest)

end

end Stmt

/-! ## The walk over a program -/

/-- The walk starts where nothing is declared. -/
theorem Resolver.atStatement_start (isGlobal : String → Bool) (D : Distances) :
    AtStatement isGlobal D [] (start isGlobal D) where
  scopes := .nil
  settled := List.forall_mem_nil _
  quiet before t := by simp [Initializing]
  defined name := by simp [start, DeclaredOnTop]
  globals := rfl
  initializing := rfl
  errors := .nil
  distances := .nil

theorem Resolver.kindsAt_start (isGlobal : String → Bool) (D : Distances) :
    KindsAt [] (start isGlobal D) :=
  ⟨⟨none, fun _ _ h => absurd h behind_nil, rfl⟩, ⟨none, fun _ _ h => absurd h behind_nil, rfl⟩⟩

/-- Resolving a program records and reports what its outline says. -/
theorem Resolution.ofProgram_follows (isGlobal : String → Bool) (D : Distances)
    {program : List Stmt} (h : Stmt.FormedAll program) :
    Records D (Stmt.outlineAll program) (ofProgram isGlobal D program).distances ∧
      Faults isGlobal (Stmt.outlineAll program) (ofProgram isGlobal D program).errors := by
  have hend := Stmt.atStatement_resolveAll program h (Resolver.atStatement_start isGlobal D)
    (Resolver.kindsAt_start isGlobal D)
  exact ⟨hend.distances, hend.errors⟩

/-- **Recorded distances are lexical addresses.** Whatever the interpreter knows, the walk over a
program from a source records for each use its distance in the outline of the program. A use without
one, and a node that is no use, keeps what was recorded before. Looking at the same program once
more changes nothing. -/
theorem Interpreter.distances_are_addresses (st : Interpreter) (source : List UInt8)
    (nextId : NodeId) :
    let program := (Parse.ofTokens (Scan.ofSource source).tokens nextId).program
    let st' := (st.resolve program).2
    (∀ before m after id name, Stmt.outlineAll program = before ++ m :: after →
      m.use? = some (id, name) → (∀ d, Locates before m id d → st'.distances[id]? = some d) ∧
        ((∀ d, ¬Locates before m id d) → st'.distances[id]? = st.distances[id]?)) ∧
      (∀ id ∉ uses (Stmt.outlineAll program), st'.distances[id]? = st.distances[id]?) ∧
      ∀ id : NodeId, (st'.resolve program).2.distances[id]? = st'.distances[id]? := by
  intro program st'
  have hformed : Stmt.FormedAll program := Parse.formed_of_source source nextId
  have hids : (uses (Stmt.outlineAll program)).Nodup :=
    (Stmt.uses_outlineAll program).nodup_iff.mpr (Parse.ids_between _ nextId).2.nodup
  have hrecords (st : Interpreter) : Records st.distances (Stmt.outlineAll program)
      (st.resolve program).2.distances :=
    (Resolution.ofProgram_follows _ st.distances hformed).1
  refine ⟨fun before m after id name hA hm => (hrecords st).getElem?_use hids hA hm,
    fun id hid => (hrecords st).getElem?_of_notMem hid, fun id => ?_⟩
  by_cases hid : id ∈ uses (Stmt.outlineAll program)
  · obtain ⟨m, hmem, name, hm⟩ := mem_uses.mp hid
    obtain ⟨before, after, hA⟩ := List.append_of_mem hmem
    obtain ⟨hfound, -⟩ := (hrecords st).getElem?_use hids hA hm
    obtain ⟨hfound', hmissing⟩ := (hrecords st').getElem?_use hids hA hm
    by_cases hd : ∃ d, Locates before m id d
    · obtain ⟨d, hd⟩ := hd
      exact (hfound' d hd).trans (hfound d hd).symm
    · exact hmissing fun d hd' => hd ⟨d, hd'⟩
  · exact (hrecords st').getElem?_of_notMem hid

end Lox
