import Lox.Proofs.Binding.Following
import Lox.Proofs.Lines.Items
import Lox.Proofs.Lines.Machine
import Lox.Proofs.Session.Reports

/-!
# Reports point into the source

Whatever is wrong with a source, the report names one of its lines
(`Session.reports_point_into_source`). Broken rules are reported at tokens of the tree
(`Stmt.resolve_within`), and a program that is read without an error is made of tokens of the source
(`Parse.madeOf`), so this comes down to where tokens are.
-/

namespace Lox

variable {Q : Nat → Prop} {name : Token}

/-! ## Broken rules -/

/-- The broken rules so far are on lines that satisfy `Q`. -/
def Resolver.Within (Q : Nat → Prop) (r : Resolver) : Prop :=
  ∀ e ∈ r.errors, Q e.line

namespace Resolver.Within

variable {r : Resolver}

variable (h : r.Within Q)

include h

theorem of_errors_eq {r' : Resolver} (heq : r'.errors = r.errors) : r'.Within Q := by
  intro e he
  rw [heq] at he
  exact h e he

/-- A report is on the line of its token. -/
theorem report {t : Token} (ht : Q t.line) (fault : StaticFault) : (r.report t fault).Within Q := by
  intro e he
  rcases List.mem_append.mp he with hold | hnew
  · exact h e hold
  · rw [List.mem_singleton.mp hnew]
    exact ht

theorem reportIf (broken : Bool) {t : Token} (ht : Q t.line) (fault : StaticFault) :
    (r.reportIf broken t fault).Within Q := by
  cases broken with
  | true => exact h.report ht fault
  | false => exact h

theorem record (id : NodeId) (name : String) : (r.record id name).Within Q :=
  h.of_errors_eq (errors_record r id name)

theorem declare (hname : Q name.line) : (r.declare name).Within Q :=
  (h.of_errors_eq (r.errors_mark name.lexeme false)).reportIf _ hname _

theorem introduceOne (hname : Q name.line) : ((r.declare name).define name).Within Q :=
  (h.declare hname).of_errors_eq (errors_define _ name)

/-- Parameters are declared on their own lines. -/
theorem introduce {names : List Token} (hnames : ∀ name ∈ names, Q name.line) :
    (r.introduce names).Within Q := by
  induction names generalizing r with
  | nil => exact h
  | cons name rest ih =>
    obtain ⟨hname, hrest⟩ := List.forall_mem_cons.mp hnames
    exact ih (h.introduceOne hname) hrest

end Resolver.Within

namespace Expr

mutual

/-- Resolving an expression reports on lines of the expression only. -/
theorem resolve_within : ∀ (e : Expr) {r : Resolver}, e.MadeOf (Token.On Q) → r.Within Q →
      (e.resolve r).Within Q
  | .literal _, _, _, h => h
  | .grouping inner, _, he, h => resolve_within inner he h
  | .unary _ right, _, he, h => resolve_within right he.2 h
  | .binary left _ right, _, he, h => resolve_within right he.2.2 (resolve_within left he.2.1 h)
  | .logical left _ right, _, he, h => resolve_within right he.2.2 (resolve_within left he.2.1 h)
  | .variable _ _, _, he, h => ((h.reportIf _ he.2 _).reportIf _ he.2 _).record _ _
  | .assign _ _ value, _, he, h => (resolve_within value he.2 h).record _ _
  | .call callee _ arguments, _, he, h =>
    resolveAll_within arguments he.2.2 (resolve_within callee he.2.1 h)
  | .get object _, _, he, h => resolve_within object he.2 h
  | .set object _ value, _, he, h => resolve_within object he.2.1 (resolve_within value he.2.2 h)
  | .thisRef _ _, r, he, h => by
    rw [resolve]
    cases r.classKind with
    | none => exact h.report he.2 _
    | _ => exact h.record _ _
  | .superRef _ _ _, _, he, h => ((h.reportIf _ he.1.2 _).reportIf _ he.1.2 _).record _ _

theorem resolveAll_within :
    ∀ (es : List Expr) {r : Resolver}, MadeOfAll (Token.On Q) es → r.Within Q →
      (resolveAll es r).Within Q
  | [], _, _, h => h
  | e :: rest, _, hes, h => resolveAll_within rest hes.2 (resolve_within e hes.1 h)

end

end Expr

/-- Entering a class reports on lines of the class only. -/
theorem Resolver.Within.enterClass {r : Resolver} (h : r.Within Q) (hname : Q name.line)
    {superclass : Option Expr} (hsuper : Expr.IsName? (Token.On Q) superclass) :
    (r.enterClass name superclass).Within Q := by
  have hplain : Resolver.Within Q { r with classKind := .plain } := h
  have hdeclared := hplain.introduceOne hname
  cases superclass with
  | none => exact hdeclared
  | some e =>
    obtain ⟨id, superName, rfl, hsuperName⟩ := hsuper e rfl
    have hreported :=
      hdeclared.reportIf (superName.lexeme == name.lexeme) hsuperName.2 .inheritsFromItself
    have hinside : Resolver.Within Q { Resolver.reportIf _ _ superName _ with
        classKind := .subclass } := hreported
    exact (Expr.resolve_within (.variable id superName) hsuperName hinside).of_errors_eq rfl

namespace Stmt

mutual

/-- Broken rules are reported at tokens of the tree. -/
theorem resolve_within : ∀ (s : Stmt) {r : Resolver}, s.MadeOf (Token.On Q) → r.Within Q →
      (s.resolve r).Within Q
  | .expression value, _, hs, h => value.resolve_within hs h
  | .print value, _, hs, h => value.resolve_within hs h
  | .var _ none, _, hs, h => h.introduceOne hs.1.2
  | .var name (some value), r, hs, h => by
    have hbegin := (h.declare hs.1.2).of_errors_eq (Resolver.errors_beginInitializer _ name.lexeme)
    have hvalue := value.resolve_within (hs.2 value rfl) hbegin
    exact hvalue.of_errors_eq (Resolver.errors_define _ name)
  | .block body, r, hs, h => resolveAll_within body (r := r.push ∅) hs h
  | .ifThen condition thenBranch, _, hs, h =>
    resolve_within thenBranch hs.2.2 (condition.resolve_within hs.1 h)
  | .ifThenElse condition thenBranch elseBranch, _, hs, h =>
    resolve_within elseBranch hs.2.2.2
      (resolve_within thenBranch hs.2.1.2 (condition.resolve_within hs.1 h))
  | .whileLoop condition body, _, hs, h =>
    resolve_within body hs.2.2 (condition.resolve_within hs.1 h)
  | .function ⟨name, params, body⟩, _, hs, h =>
    function_within _ ⟨name, params, body⟩ hs (h.introduceOne hs.1.2)
  | .returnWith word value, r, hs, h => by
    have hoften := (h.reportIf (r.functionKind == .none) hs.1.2 .returnAtTopLevel)
    rw [resolve]
    cases value with
    | none => exact hoften
    | some e =>
      exact e.resolve_within (hs.2 e rfl) (hoften.reportIf _ hs.1.2 .returnFromInitializer)
  | .classDef name superclass methods, r, hs, h => by
    have hmethods := methods_within methods hs.2.2 (h.enterClass hs.1.2 hs.2.1)
    cases superclass with
    | none => exact hmethods
    | some e => exact hmethods

theorem function_within : ∀ (kind : FunctionKind) (d : FunctionDecl) {r : Resolver},
    FunctionMadeOf (Token.On Q) d → r.Within Q → (resolveFunction kind d r).Within Q
  | kind, ⟨_, params, body⟩, r, hd, h => by
    have hscope : Resolver.Within Q (({ r with functionKind := kind } : Resolver).push ∅) := h
    have hparams := hscope.introduce fun p hp => (hd.2.1 p hp).2
    exact resolveAll_within body hd.2.2 hparams

theorem resolveAll_within : ∀ (body : List Stmt) {r : Resolver}, MadeOfAll (Token.On Q) body →
      r.Within Q →
    (resolveAll body r).Within Q
  | [], _, _, h => h
  | s :: rest, _, hbody, h => resolveAll_within rest hbody.2 (resolve_within s hbody.1 h)

theorem methods_within : ∀ (ds : List FunctionDecl) {r : Resolver}, MethodsMadeOf (Token.On Q) ds →
      r.Within Q →
    (resolveMethods ds r).Within Q
  | [], _, _, h => h
  | d :: rest, _, hds, h => methods_within rest hds.2 (function_within _ d hds.1 h)

end

end Stmt

/-- Resolving a program reports on lines of the program only. -/
theorem Interpreter.resolve_errors_within (st : Interpreter) {program : List Stmt}
    (hprogram : Stmt.MadeOfAll (Token.On Q) program) : ∀ e ∈ (st.resolve program).1, Q e.line :=
  Stmt.resolveAll_within program hprogram (List.forall_mem_nil _)

/-! ## Sessions -/

/-- A report on a line of a source. -/
def Diagnostic.PointsInto (source : List UInt8) (d : Diagnostic) : Prop :=
  ∃ line, d.line? = some line ∧ InSource source line

theorem inSource_one (source : List UInt8) : InSource source 1 :=
  ⟨Nat.le_refl 1, Nat.le_add_right 1 _⟩

namespace Session

variable {s : Session} {budget : Nat} {source : List UInt8} {r : Run}

/-- Errors in tokens and syntax are on lines of the source. -/
theorem syntaxReports_point_into (s : Session) (source : List UInt8) :
    ∀ d ∈ s.syntaxReports source, d.PointsInto source := by
  intro d hd
  rcases List.mem_append.mp hd with hlex | hparse
  · obtain ⟨e, he, rfl⟩ := List.mem_map.mp hlex
    exact ⟨e.line, rfl, Scan.inSource_of_mem_errors he⟩
  · obtain ⟨e, he, rfl⟩ := List.mem_map.mp hparse
    refine ⟨e.line, rfl, Parse.within_of_mem_errors (Q := InSource source) ?_ (inSource_one source)
      he⟩
    exact fun t ht => Scan.inSource_of_mem_tokens ht

/-- A program is made of tokens of its source. -/
theorem program_on_lines (s : Session) (source : List UInt8) :
    Stmt.MadeOfAll (Token.On (InSource source)) (s.parse source).program :=
  Parse.madeOf fun _ => Scan.inSource_of_mem_tokens

theorem Ends.points_into (h : Ends budget s source r)
    (hst : s.interpreter.Within (InSource source)) :
    ∀ d ∈ r.reports, d.PointsInto source ∨ d.stage = .io := by
  intro d hd
  cases h with
  | unread hne => exact .inl (s.syntaxReports_point_into source d hd)
  | refused hnil hresolve hne =>
    obtain ⟨e, he, rfl⟩ := List.mem_map.mp hd
    have hlines := s.interpreter.resolve_errors_within (program_on_lines s source)
    rw [hresolve] at hlines
    exact .inl ⟨e.line, rfl, hlines e he⟩
  | ran hnil hresolve hrun => cases hd
  | @failed hnil st st' f hresolve hrun =>
    rw [List.mem_singleton.mp hd]
    have hst' : (s.interpreter.resolve (s.parse source).program).2.Within (InSource source) :=
      ⟨hst.store, hst.env, hst.bindings, hst.fields⟩
    rw [hresolve] at hst'
    have hfault := Interpreter.interpret_within hst' (program_on_lines s source) hrun
    cases f with
    | runtime line fault => exact .inl ⟨line, rfl, hfault⟩
    | output fault => exact .inr rfl

/-- **Every report points into the source.** All that a fresh session reports about a source names a
line of it, but for faults of the output, which name none. The tokens of the source are on its lines
too, in order. -/
theorem reports_point_into_source (natives : List Native) (output : Output) (maxCallDepth : Nat)
    (clock : Nat → Float) (source : List UInt8) :
    (∀ budget r, (Session.new (.new natives output maxCallDepth clock)).run budget source = some r →
      ∀ d ∈ r.reports, d.PointsInto source ∨ d.stage = .io) ∧
    (Scan.ofSource source).tokens.Pairwise (fun t t' => t.line ≤ t'.line) ∧
    ∀ t ∈ (Scan.ofSource source).tokens, InSource source t.line := by
  refine ⟨?_, Scan.tokens_in_order source, fun t ht => Scan.inSource_of_mem_tokens ht⟩
  intro budget r hr
  exact (ends_of_run hr).points_into (Interpreter.new_within natives output maxCallDepth clock)

/-- The source of a function that fails on the second line when the last line calls it. -/
def failingCall : List UInt8 :=
  "\nfun f() \x7b return -nil; \x7d\n\nf();".toUTF8.toList

/-- The fault is reported on the line of the operator, not of the call. -/
theorem failingCall_points_into_source :
    ∃ r : Run, (Session.new (.new [] .unlimited 9 fun _ => 0)).run 40 failingCall = some r ∧
      r.reports.map Diagnostic.line? = [some 2] ∧
      ∀ d ∈ r.reports, d.PointsInto failingCall ∨ d.stage = .io := by
  have hreports : ((Session.new (.new [] .unlimited 9 fun _ => 0)).run 40 failingCall).map
      (fun r => r.reports.map Diagnostic.line?) = some [some 2] := by decide +kernel
  obtain ⟨r, hr, hlines⟩ := Option.map_eq_some_iff.mp hreports
  obtain ⟨hpoints, -, -⟩ := reports_point_into_source [] .unlimited 9 (fun _ => 0) failingCall
  exact ⟨r, hr, hlines, hpoints 40 r hr⟩

end Session

end Lox
