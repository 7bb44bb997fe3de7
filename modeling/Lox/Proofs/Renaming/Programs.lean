import Lox.Proofs.Renaming.Step
import Lox.Proofs.Renaming.Walk
import Lox.Proofs.Session.Reports
import Lox.Proofs.Text.Utf8

/-!
# Programs with a renamed local variable

Between two statements of a program nothing is left but the global scope, which is not marked, so
that related states go on to related states from statement to statement
(`Interpreter.executeAll_renamed`). A program in which one local variable was renamed is accepted if
the program was, records the same distances, and runs alike (`Session.local_names_do_not_matter`).

There is one way for the name to show. In `{ var a = a = nil; }` the assignment comes before the
variable, and the report that it is missing names it.
-/

namespace Lox

variable {R : Renaming} {M : ScopeMarks} {marks : Marks} {s : Stmt} {program program' : List Stmt}

/-! ## The renamed variable -/

namespace Stmt

variable {n : String} {d : FunctionDecl}

theorem formed_of_mem : ∀ {body : List Stmt}, FormedAll body → s ∈ body → s.Formed
  | _ :: _, h, .head _ => h.1
  | _ :: _, h, .tail _ hs => formed_of_mem h.2 hs

theorem formedFunction_of_mem : ∀ {ds : List FunctionDecl}, FormedMethods ds → d ∈ ds →
    FormedFunction d
  | _ :: _, h, .head _ => h.1
  | _ :: _, h, .tail _ hd => formedFunction_of_mem h.2 hd

theorem mem_namesAll (hn : n ∈ s.names) : ∀ {body : List Stmt}, s ∈ body → n ∈ namesAll body
  | _ :: _, .head _ => List.mem_append_left _ hn
  | _ :: _, .tail _ hs => List.mem_append_right _ (mem_namesAll hn hs)

theorem mem_methodNames (hn : n ∈ functionNames d) : ∀ {ds : List FunctionDecl},
    d ∈ ds → n ∈ methodNames ds
  | _ :: _, .head _ => List.mem_append_left _ hn
  | _ :: _, .tail _ hd => List.mem_append_right _ (mem_methodNames hn hd)

/-- The name of a variable that statements declare is one of their names, and it is no reserved
word. -/
theorem variable_free {body : List Stmt} (h : FormedAll body) (hn : n ∈ varNames body) :
    n ∈ namesAll body ∧ n ≠ "this" ∧ n ≠ "super" := by
  obtain ⟨s, hs, hname⟩ := List.mem_filterMap.mp hn
  have hformed := formed_of_mem h hs
  cases s <;> cases hname
  rename_i name initializer
  refine ⟨mem_namesAll ?_ hs, hformed.1⟩
  cases initializer <;> exact List.mem_cons_self

mutual

/-- The renamed variable has a name that occurs in the statement and is no reserved word. -/
theorem RenamesLocal.old_free :
    ∀ {marks : Marks} {s s' : Stmt}, RenamesLocal R marks s s' → s.Formed → R.old ∈ s.names ∧
      R.old ≠ "this" ∧ R.old ≠ "super"
  | _, _, _, .here h, hs => variable_free hs h
  | _, .block _, _, .block h, hs =>
    have hmem := List.mem_append_right _ List.mem_cons_self
    have ih := h.old_free (formed_of_mem hs hmem)
    ⟨mem_namesAll ih.1 hmem, ih.2⟩
  | _, _, _, .ifThen h, hs =>
    have ih := h.old_free hs.2.2
    ⟨List.mem_append_right _ ih.1, ih.2⟩
  | _, _, _, .thenBranch h, hs =>
    have ih := h.old_free hs.2.1.2
    ⟨List.mem_append_right _ (List.mem_append_left _ ih.1), ih.2⟩
  | _, _, _, .elseBranch h, hs =>
    have ih := h.old_free hs.2.2.2
    ⟨List.mem_append_right _ (List.mem_append_right _ ih.1), ih.2⟩
  | _, _, _, .whileLoop h, hs =>
    have ih := h.old_free hs.2.2
    ⟨List.mem_append_right _ ih.1, ih.2⟩
  | _, _, _, .function h, hs =>
    have ih := h.old_free hs
    ⟨List.mem_cons_of_mem _ ih.1, ih.2⟩
  | _, .classDef _ none _, _, .method h, hs =>
    have hmem := List.mem_append_right _ List.mem_cons_self
    have ih := h.old_free (formedFunction_of_mem hs.2.2 hmem)
    ⟨List.mem_cons_of_mem _ (mem_methodNames ih.1 hmem), ih.2⟩
  | _, .classDef _ (some _) _, _, .method h, hs =>
    have hmem := List.mem_append_right _ List.mem_cons_self
    have ih := h.old_free (formedFunction_of_mem hs.2.2 hmem)
    ⟨List.mem_cons_of_mem _ (List.mem_append_right _ (mem_methodNames ih.1 hmem)), ih.2⟩

theorem RenamesLocalFunction.old_free :
    ∀ {marks : Marks} {d d' : FunctionDecl}, RenamesLocalFunction R marks d d' → FormedFunction d →
      R.old ∈ functionNames d ∧ R.old ≠ "this" ∧ R.old ≠ "super"
  | _, ⟨_, _, _⟩, _, .here h, hd => by
    rcases List.mem_append.mp h with hparam | hvar
    · obtain ⟨p, hp, hname⟩ := List.mem_map.mp hparam
      exact ⟨List.mem_append_left _ hparam, hname ▸ hd.2.1 p hp⟩
    · obtain ⟨hmem, hfree⟩ := variable_free hd.2.2 hvar
      exact ⟨List.mem_append_right _ hmem, hfree⟩
  | _, _, _, .body h, hd =>
    have hmem := List.mem_append_right _ List.mem_cons_self
    have ih := h.old_free (formed_of_mem hd.2.2 hmem)
    ⟨List.mem_append_right _ (mem_namesAll ih.1 hmem), ih.2⟩

end

end Stmt

/-- A name that is no reserved word can be given to a variable. -/
theorem Keyword.free_of_ofText? {x : String} (h : ofText? x = none) : x ≠ "this" ∧ x ≠ "super" := by
  constructor
  · rintro rfl
    exact absurd h (by decide)
  · rintro rfl
    exact absurd h (by decide)

namespace Stmt.RenamesLocalAll

variable {program program' : List Stmt}

theorem proper (h : RenamesLocalAll R program program') (hformed : FormedAll program)
    (hword : Keyword.ofText? R.new = none) (hfresh : R.new ∉ namesAll program) : R.Proper := by
  cases h with
  | @mk before after s s' h =>
    have hs : s ∈ before ++ s :: after := List.mem_append_right _ List.mem_cons_self
    obtain ⟨hmem, hold⟩ := h.old_free (formed_of_mem hformed hs)
    exact ⟨hold, Keyword.free_of_ofText? hword, fun heq => hfresh (heq ▸ mem_namesAll hmem hs)⟩

theorem renamed (h : RenamesLocalAll R program program') {D : Distances} {r : Resolver}
    (haccepted : Visit.Accepted D ⟨.stmts program, r⟩) (hfresh : R.new ∉ namesAll program) :
    RenamedAll R [false] program program' := by
  have htop : Marks.Unmarked [false] := by simp [Marks.Unmarked]
  cases h with
  | mk h =>
    exact renamedAll_append htop haccepted hfresh fun r hs hnames => h.renamed htop hs hnames

end Stmt.RenamesLocalAll

/-! ## Running -/

/-- How two runs ended that belong together, back at the top level. -/
inductive Ended {α : Type} (R : Renaming) (P : ScopeMarks → α → α → Prop)
    (r r' : Except Fault α × Interpreter) : Prop where
  | mk {M : ScopeMarks} (answers : Answers R (P M) r.1 r'.1)
      (state : r.2.Renamed R M [false] r'.2) : Ended R P r r'

namespace Interpreter

variable {st st' : Interpreter}

/-- At rest there is only the global scope. -/
theorem Renamed.marks_eq (h : st.Renamed R M marks st') (hrest : AtRest st) : marks = [false] := by
  obtain ⟨-, henv, hglobal, -⟩ := h
  rw [hrest.env] at henv
  cases henv with
  | cons hb hnil =>
    cases hnil
    cases hglobal.symm.trans hb
    rfl

theorem execute_renamed (hR : R.Proper) (budget : Nat) (hst : st.Renamed R M [false] st')
    (hrest : AtRest st) {s' : Stmt} (hs : s.Renamed R [false] s') :
    Option.Rel (Ended R (Flow.Renamed R)) (st.execute budget s) (st'.execute budget s') := by
  have hplace {e : Ending × Interpreter} (he : st.execute budget s = some e) : AtRest e.2 :=
    hrest.of_samePlace (execute_samePlace he)
  have hrun := Machine.run_renamed hR budget (.mk (.exec hs) .nil hst)
  simp only [execute] at hplace ⊢
  generalize Machine.run budget ⟨.exec s, [], st⟩ = m at hrun hplace
  generalize Machine.run budget ⟨.exec s', [], st'⟩ = m' at hrun
  -- The marks at the end are some marks; that the machine is back at its place says which.
  obtain ⟨hc, hf, hst⟩ := hrun
  cases hf with
  | frame => cases hc <;> exact .none
  | leave => cases hc <;> exact .none
  | nil =>
    cases hc with
    | eval => exact .none
    | exec => exact .none
    | value hv =>
      obtain rfl := hst.marks_eq (hplace rfl)
      exact .some (.mk (.ok .normal) hst)
    | flow hflow =>
      obtain rfl := hst.marks_eq (hplace rfl)
      exact .some (.mk (.ok hflow) hst)
    | fault hfault =>
      obtain rfl := hst.marks_eq (hplace rfl)
      exact .some (.mk (.error hfault) hst)

/-- Related statements, run one after the other, end alike. -/
theorem executeAll_renamed (hR : R.Proper) (budget : Nat) (hst : st.Renamed R M [false] st')
    (hrest : AtRest st) (hprogram : Stmt.RenamedAll R [false] program program') :
    Option.Rel (Ended R fun _ _ _ => True) (st.executeAll budget program) (st'.executeAll budget
      program') := by
  induction program generalizing st st' M program' with
  | nil =>
    cases hprogram
    exact .some (.mk (.ok trivial) hst)
  | cons s rest ih =>
    cases hprogram with
    | cons hs hprogram =>
      have hfirst := execute_renamed hR budget hst hrest hs
      have hback {e : Ending × Interpreter} (he : st.execute budget s = some e) : AtRest e.2 :=
        hrest.of_samePlace (execute_samePlace he)
      simp only [executeAll]
      generalize st.execute budget s = e? at hfirst hback
      generalize st'.execute budget _ = e'? at hfirst
      cases hfirst with
      | none => exact .none
      | @some e e' hended =>
        obtain ⟨ending, st⟩ := e
        obtain ⟨ending', st'⟩ := e'
        obtain ⟨hanswers, hst⟩ := hended
        cases hanswers with
        | error hfault => exact .some (.mk (.error hfault) hst)
        | ok _ => exact ih hst (hback rfl) hprogram

theorem interpret_renamed (hR : R.Proper) (budget : Nat) (hst : st.Renamed R M [false] st')
    (hrest : AtRest st) (hprogram : Stmt.RenamedAll R [false] program program') :
    Option.Rel (Ended R fun _ _ _ => True) (st.interpret budget program) (st'.interpret budget
      program') := by
  have hall := executeAll_renamed hR budget hst hrest hprogram
  simp only [interpret]
  generalize st.executeAll budget program = e? at hall
  generalize st'.executeAll budget program' = e'? at hall
  cases hall with
  | none => exact .none
  | @some e e' hended =>
    obtain ⟨result, st⟩ := e
    obtain ⟨result', st'⟩ := e'
    obtain ⟨hanswers, hst⟩ := hended
    cases hanswers with
    | error hfault => exact .some (.mk (.error hfault) hst)
    | ok _ =>
      have houtput : st'.output = st.output := hst.output_eq
      refine .some (.mk ?_ hst)
      simp only [flush, houtput]
      split
      · exact .error (.same _)
      · exact .ok trivial

end Interpreter

/-! ## Sessions -/

/-- Two runs that end alike and print the same. If they fail for want of a variable, each may report
its own name. -/
structure Run.Alike (R : Renaming) (r r' : Run) : Prop where
  outcome : r'.outcome = r.outcome
  output : r'.session.interpreter.output = r.session.interpreter.output
  reports : r'.reports = r.reports ∨ ∃ line,
    r.reports = [Fault.diagnostic (.runtime line (.undefinedVariable R.old))] ∧
      r'.reports = [Fault.diagnostic (.runtime line (.undefinedVariable R.new))]

theorem Fault.Renamed.diagnostic {f f' : Fault} (h : f.Renamed R f') :
    f' = f ∨ ∃ line, f = .runtime line (.undefinedVariable R.old) ∧
      f' = .runtime line (.undefinedVariable R.new) := by
  cases h with
  | same => exact .inl rfl
  | undefined line here n =>
    by_cases hn : here = true ∧ n = R.old
    · obtain ⟨rfl, rfl⟩ := hn
      rw [Renaming.name_old]
      exact .inr ⟨line, rfl, rfl⟩
    · refine .inl ?_
      have hname : R.name here n =
          n := by simpa [Renaming.name] using fun hhere hold => absurd ⟨hhere, hold⟩ hn
      rw [hname]

namespace Interpreter

/-- Before anything has run, there are native functions only. -/
theorem renamed_new (natives : List Native) (output : Output) (maxCallDepth : Nat)
    (clock : Nat → Float) :
    (new natives output maxCallDepth clock).store.Renamed R [false]
      (new natives output maxCallDepth clock).store := by
  have hempty : Store.Renamed R [] .empty .empty :=
    ⟨rfl, rfl, rfl, rfl, fun hi => (nomatch hi), fun _ _ => .none⟩
  have hnone (n : String) (v : Value) (h : (∅ : NameTable Value).find? n = some v) :
      ∃ m, v = .native m := nomatch h
  refine hempty.addScope fun {n} _ => ?_
  rw [Renaming.name_false]
  cases hfind : (natives.foldl (fun t n => t.insert n.name (.native n)) (∅ : NameTable Value)).find?
    n with
  | none => exact .none
  | some v =>
    obtain ⟨native, rfl⟩ := native_of_find? hnone hfind
    exact .some (.native native)

/-- The walk over the renamed program breaks no rule and records the same distances. -/
theorem resolve_renamed (hR : R.Proper) (st : Interpreter) (haccepted : Visit.Accepted R.distances
      ⟨.stmts program, .start (fun name => st.store.contains st.globals name) st.distances⟩)
    (hprogram : Stmt.RenamedAll R [false] program program') :
    st.resolve program' = st.resolve program := by
  have hstart : Resolver.Renamed R [false]
      (.start (fun name => st.store.contains st.globals name) st.distances)
      (.start (fun name => st.store.contains st.globals name) st.distances) :=
    ⟨.top, rfl, fun h => (nomatch h)⟩
  have hwalk := Stmt.resolveAll_renamed hR program hprogram haccepted hstart
  simp only [resolve, resolution, Resolution.ofProgram]
  rw [hwalk.rest]

end Interpreter

namespace Session

/-- Related programs run alike. -/
theorem runProgram_alike (hR : R.Proper) {st st₁ : Interpreter}
    (hresolve : st.resolve program = ([], st₁)) (hresolve' : st.resolve program' = ([], st₁))
    (hst : st₁.Renamed R M [false] st₁) (hrest : Interpreter.AtRest st₁)
    (hprogram : Stmt.RenamedAll R [false] program program') (n n' : NodeId) (budget : Nat) :
    Option.Rel (Run.Alike R) (runProgram budget ⟨st, n⟩ program) (runProgram budget ⟨st, n'⟩
      program') := by
  have hended := Interpreter.interpret_renamed hR budget hst hrest hprogram
  rw [runProgram_of_clean hresolve, runProgram_of_clean hresolve']
  generalize st₁.interpret budget program = e? at hended
  generalize st₁.interpret budget program' = e'? at hended
  cases hended with
  | none => exact .none
  | @some e e' hended =>
    obtain ⟨result, st⟩ := e
    obtain ⟨result', st'⟩ := e'
    obtain ⟨hanswers, hst⟩ := hended
    have houtput : st'.output = st.output := hst.output_eq
    cases hanswers with
    | ok _ => exact .some ⟨rfl, houtput, .inl rfl⟩
    | error hfault =>
      refine .some ⟨rfl, houtput, ?_⟩
      rcases hfault.diagnostic with rfl | ⟨line, rfl, rfl⟩
      · exact .inl rfl
      · exact .inr ⟨line, rfl, rfl⟩

/-- **The name of a local variable does not matter.** Take a source that a session accepts in which
nothing has run, a variable declared in a block or a function of it or a parameter, and a name that
is no reserved word and does not occur in the program. The program with the variable renamed, in its
declaration and at just the nodes that are bound to it, breaks no rule, and the same distances are
recorded for it. It runs as the source does, with any budget: both end or neither does, and then
they end alike and have printed the same. So does every source that reads as that program. -/
theorem local_names_do_not_matter {natives : List Native} {output : Output} {maxCallDepth : Nat}
    {clock : Nat → Float} {s : Session} (hs : s = .new (.new natives output maxCallDepth clock))
    {source : List UInt8} {R : Renaming} {program' : List Stmt}
    (hread : s.syntaxReports source = [])
    (hresolve : (s.interpreter.resolve (s.parse source).program).1 = [])
    (hdistances : R.distances = (s.interpreter.resolve (s.parse source).program).2.distances)
    (hword : Keyword.ofText? R.new = none) (hfresh : R.new ∉ Stmt.namesAll (s.parse source).program)
    (hlocal : Stmt.RenamesLocalAll R (s.parse source).program program') :
    (s.interpreter.resolve program').1 = [] ∧
      (s.interpreter.resolve program').2.distances = R.distances ∧
      (∀ budget, Option.Rel (Run.Alike R) (s.run budget source) (s.runProgram budget program')) ∧
      ∀ source', s.syntaxReports source' = [] → (s.parse source').program = program' →
        ∀ budget, Option.Rel (Run.Alike R) (s.run budget source) (s.run budget source') := by
  have haccepts : s.accepts source = true := by
    obtain ⟨hscan, hparse⟩ := syntaxReports_eq_nil.mp hread
    exact accepts_iff.mpr ⟨hscan, hparse, hresolve⟩
  have hfits : Fits [] s := hs ▸ .new natives output maxCallDepth clock
  have haccepted : (s.visit source).Accepted R.distances :=
    hdistances ▸ (hfits.accept haccepts).accepted _ List.mem_cons_self
  have hR := hlocal.proper haccepted.formed hword hfresh
  have hprogram := hlocal.renamed haccepted hfresh
  -- The walks agree, so both programs start in the same state, which is related to itself.
  have hsame := Interpreter.resolve_renamed hR s.interpreter haccepted hprogram
  have hpair : s.interpreter.resolve (s.parse source).program =
      ([], (s.interpreter.resolve (s.parse source).program).2) := Prod.ext hresolve rfl
  have hstate : (s.interpreter.resolve (s.parse source).program).2.Renamed R [false] [false]
      (s.interpreter.resolve (s.parse source).program).2 := by
    subst hs
    have henv : Env.Marked [false] [Store.empty.nextScope] [false] := List.Forall₂.cons rfl .nil
    exact .mk (Interpreter.renamed_new natives output maxCallDepth clock) henv rfl hdistances.symm
  have hrest : Interpreter.AtRest (s.interpreter.resolve (s.parse source).program).2 :=
    ⟨hfits.rest.env, hfits.rest.callDepth⟩
  have halike (n : NodeId) (budget : Nat) :=
    runProgram_alike hR hpair (hsame.trans hpair) hstate hrest hprogram (s.parse source).nextId n
      budget
  refine ⟨by rw [hsame, hresolve], by rw [hsame, hdistances], fun budget => ?_, ?_⟩
  · rw [run_eq_runProgram hread]
    exact halike s.nextId budget
  · rintro source' hread' rfl budget
    rw [run_eq_runProgram hread, run_eq_runProgram hread']
    exact halike (s.parse source').nextId budget

/-- The source `var a = "o"; fun f() { return a; } { var a = "i"; print f() + a; }`, in which a
variable is captured by a function and hidden by another of the same name. -/
def shadowing : List UInt8 :=
  "var a = \"o\"; fun f() \x7b return a; \x7d \x7b var a = \"i\"; print f() + a; \x7d".toUTF8.toList

/-- The same with `b` for the outer variable. -/
def shadowingRenamed : List UInt8 :=
  "var b = \"o\"; fun f() \x7b return b; \x7d \x7b var a = \"i\"; print f() + a; \x7d".toUTF8.toList

/-- A source as a block. -/
def blockOf (source : List UInt8) : List UInt8 :=
  "\x7b".toUTF8.toList ++ source ++ "\x7d".toUTF8.toList

/-- The renaming of `a` to `b` in the block. -/
def shadowingRenaming : Renaming :=
  ⟨"a", "b", ((new (.new [] .unlimited 9 fun _ => 0)).interpreter.resolve
    (parse (new (.new [] .unlimited 9 fun _ => 0)) (blockOf shadowing)).program).2.distances⟩

/-- The function still returns the outer variable, and the inner one keeps its name. -/
theorem shadowing_runs_alike :
    ∃ s : Session, s = .new (.new [] .unlimited 9 fun _ => 0) ∧
      s.syntaxReports (blockOf shadowing) = [] ∧
      (s.interpreter.resolve (s.parse (blockOf shadowing)).program).1 = [] ∧
      Stmt.RenamesLocalAll shadowingRenaming (s.parse (blockOf shadowing)).program
        (s.parse (blockOf shadowingRenamed)).program ∧
      (s.interpreter.resolve (s.parse (blockOf shadowingRenamed)).program).1 = [] ∧
      (s.run 40 (blockOf shadowingRenamed)).map
          (fun r => (r.outcome, r.session.interpreter.output.text)) =
        some (.success, "oi\n") := by
  obtain ⟨s, hs⟩ : ∃ s : Session, s = .new (.new [] .unlimited 9 fun _ => 0) := ⟨_, rfl⟩
  have hsource : shadowing = _ := Utf8.encode_ofList _
  have hread : s.syntaxReports (blockOf shadowing) = [] ∧
      s.syntaxReports (blockOf shadowingRenamed) = [] := by
    rw [hs]
    decide +kernel
  have hresolve : (s.interpreter.resolve (s.parse (blockOf shadowing)).program).1 = [] := by
    rw [hs]
    decide +kernel
  have hlocal : Stmt.RenamesLocalAll shadowingRenaming (s.parse (blockOf shadowing)).program
      (s.parse (blockOf shadowingRenamed)).program := by
    have hvar : "a" ∈ Stmt.varNames (s.parse shadowing).program := by
      rw [hs]
      decide +kernel
    have hblock : (s.parse (blockOf shadowing)).program = [.block (s.parse shadowing).program] := by
      rw [hs, hsource]
      cbv
    have hrenamed : (s.parse (blockOf shadowingRenamed)).program =
        [.block (Stmt.renameAll shadowingRenaming [true, false] (s.parse shadowing).program)] := by
      rw [hs, shadowingRenaming, hsource, show shadowingRenamed = _ from Utf8.encode_ofList _]
      cbv
    rw [hblock, hrenamed]
    exact @Stmt.RenamesLocalAll.mk shadowingRenaming [] [] _ _ (.here hvar)
  have hruns : (s.run 40 (blockOf shadowing)).map (fun r =>
      (r.outcome, r.session.interpreter.output.text)) = some (.success, "oi\n") := by
    rw [hs, hsource]
    cbv
  have hdistances : shadowingRenaming.distances =
      (s.interpreter.resolve (s.parse (blockOf shadowing)).program).2.distances := by
    rw [hs, shadowingRenaming]
  have hword : Keyword.ofText? shadowingRenaming.new = none := by decide
  have hfresh : shadowingRenaming.new ∉ Stmt.namesAll (s.parse (blockOf shadowing)).program := by
    rw [hs]
    decide +kernel
  obtain ⟨hclean, -, -, halike⟩ :=
    local_names_do_not_matter hs hread.1 hresolve hdistances hword hfresh hlocal
  refine ⟨s, hs, hread.1, hresolve, hlocal, hclean, ?_⟩
  -- What is printed is computed for the first source only.
  have hrun := halike (blockOf shadowingRenamed) hread.2 rfl 40
  generalize s.run 40 (blockOf shadowing) = r? at hrun hruns
  generalize s.run 40 (blockOf shadowingRenamed) = r'? at hrun
  cases hrun with
  | none => cases hruns
  | some h => simpa only [Option.map_some, h.outcome, h.output] using hruns

end Session

end Lox
