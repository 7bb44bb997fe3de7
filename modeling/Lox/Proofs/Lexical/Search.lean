import Lox.Proofs.Lexical.Sessions
import Lox.Proofs.Scope.Variables

/-!
# Looking variables up without distances

A variable could also be looked up by searching the environment from the innermost scope on, with no
regard to the distances (`Machine.searchStep`). This is not the same: a scope may declare, below a
use of a variable, a variable of the same name, and once that is bound the search stops there. But
for a program that does no such thing (`Session.noLateShadowing`), both run alike (`run_by_search`).

The scopes inside that of the variable never have its name, since a scope has only names that its
text declares. And the scope that the distance leads to has it.
-/

namespace Lox

variable {st : Interpreter} {E : List Enclosure}

/-! ## Running by steps of another kind -/

/-- Runs with another kind of step. -/
def Machine.runBy (step : Machine → Machine) : Nat → Machine → Machine
  | 0, m => m
  | budget + 1, m => if m.isDone then m else runBy step budget (step m)

namespace Interpreter

/-- Executes statements in turn, as `executeAll`, by steps of another kind. -/
def executeAllBy (step : Machine → Machine) (budget : Nat) (st : Interpreter) :
    List Stmt → Option (Except Fault Unit × Interpreter)
  | [] => some (.ok (), st)
  | s :: rest =>
    match (Machine.runBy step budget ⟨.exec s, [], st⟩).ending? with
    | some (.ok _, st) => st.executeAllBy step budget rest
    | some (.error f, st) => some (.error f, st)
    | none => none

/-- Runs a program, as `interpret`, by steps of another kind. -/
def interpretBy (step : Machine → Machine) (budget : Nat) (st : Interpreter) (program : List Stmt) :
    Option (Except Fault Unit × Interpreter) :=
  match st.executeAllBy step budget program with
  | some (.ok _, st) => some (st.flush, st)
  | other => other

end Interpreter

namespace Session

/-- Resolves and runs a program, as `runProgram`, by steps of another kind. -/
def runProgramBy (step : Machine → Machine) (budget : Nat) (s : Session) (program : List Stmt) :
    Option Run :=
  let ⟨distances, errors, hadError⟩ := s.interpreter.resolution program
  let st := { s.interpreter with distances := distances }
  let reports := errors.map StaticError.diagnostic
  if hadError then some ⟨.staticError, reports, ⟨st, s.nextId⟩⟩
  else
    match st.interpretBy step budget program with
    | some (.ok _, st) => some ⟨.success, reports, ⟨st, s.nextId⟩⟩
    | some (.error f, st) => some ⟨.runtimeError, reports ++ [f.diagnostic], ⟨st, s.nextId⟩⟩
    | none => none

/-- Runs a source, as `run`, by steps of another kind. -/
def runBy (step : Machine → Machine) (budget : Nat) (s : Session) (source : List UInt8) :
    Option Run :=
  let scan := Scan.ofSource source
  let parse := Parse.ofTokens scan.tokens s.nextId
  let s : Session := ⟨s.interpreter, parse.nextId⟩
  let reports := scan.errors.map LexError.diagnostic ++ parse.errors.map ParseError.diagnostic
  if scan.hadError || parse.hadError then some ⟨.syntaxError, reports, s⟩
  else (s.runProgramBy step budget parse.program).map (Run.after reports)

end Session

section

variable {step : Machine → Machine}

/-- Steps that are the same wherever a run leads make the same run. -/
theorem Machine.runBy_eq {m : Machine} (h : ∀ n, step (run n m) = (run n m).step) (budget : Nat) :
    runBy step budget m = run budget m := by
  induction budget generalizing m with
  | zero => rfl
  | succ budget ih =>
    rw [runBy, run]
    split
    · rfl
    · next hdone =>
      have hfirst : step m = m.step := h 0
      rw [hfirst]
      refine ih fun n => ?_
      have hnext := h (n + 1)
      rw [run, if_neg hdone] at hnext
      exact hnext

theorem Interpreter.executeAllBy_eq {program : List Stmt}
    (h : ∀ m, st.Passes program m → step m = m.step) (budget : Nat) :
    st.executeAllBy step budget program = st.executeAll budget program := by
  induction program generalizing st with
  | nil => rfl
  | cons s rest ih =>
    have hrun : (Machine.runBy step budget ⟨.exec s, [], st⟩).ending? = st.execute budget s := by
      rw [Machine.runBy_eq (fun n => h _ (.here n))]
      rfl
    rw [executeAllBy, executeAll, hrun]
    cases hs : st.execute budget s with
    | none => rfl
    | some e =>
      obtain ⟨ending, st'⟩ := e
      cases ending with
      | ok f => exact ih fun m hm => h m (.later hs hm)
      | error f => rfl

theorem Interpreter.interpretBy_eq {program : List Stmt}
    (h : ∀ m, st.Passes program m → step m = m.step) (budget : Nat) :
    st.interpretBy step budget program = st.interpret budget program := by
  have hall := executeAllBy_eq h budget
  unfold interpretBy interpret
  generalize st.executeAllBy step budget program = r at hall ⊢
  subst hall
  rfl

/-- Steps that are the same while a source is run give the same run. -/
theorem Session.runBy_eq {s : Session} {source : List UInt8}
    (h : ∀ m, (s.interpreter.resolve (s.parse source).program).2.Passes (s.parse source).program m →
      step m = m.step)
    (budget : Nat) : s.runBy step budget source = s.run budget source := by
  have hprogram : Session.runProgramBy step budget ⟨s.interpreter, (s.parse source).nextId⟩
      (s.parse source).program = Session.runProgram budget ⟨s.interpreter, (s.parse source).nextId⟩
      (s.parse source).program := by
    have hinterpret := Interpreter.interpretBy_eq h budget
    simp only [Interpreter.resolve] at hinterpret
    simp only [runProgramBy, hinterpret]
    rfl
  simp only [parse] at hprogram
  simp only [runBy, run, hprogram]

end

/-! ## Uses of variables -/

/-- A use of a variable, with the enclosures around it. -/
structure Occurrence where
  enclosures : List Enclosure
  id : NodeId
  name : Token

namespace Expr

mutual

/-- The uses of variables in an expression inside enclosures. -/
def occurrences (E : List Enclosure) : Expr → List Occurrence
  | .literal _ => []
  | .grouping inner => occurrences E inner
  | .unary _ right => occurrences E right
  | .binary left _ right => occurrences E left ++ occurrences E right
  | .logical left _ right => occurrences E left ++ occurrences E right
  | .variable id name => [⟨E, id, name⟩]
  | .assign _ _ value => occurrences E value
  | .call callee _ arguments => occurrences E callee ++ occurrencesAll E arguments
  | .get object _ => occurrences E object
  | .set object _ value => occurrences E object ++ occurrences E value
  | .thisRef _ _ => []
  | .superRef _ _ _ => []

/-- The uses of variables in expressions. -/
def occurrencesAll (E : List Enclosure) : List Expr → List Occurrence
  | [] => []
  | e :: rest => occurrences E e ++ occurrencesAll E rest

end

/-- The uses of variables in an expression that may be missing. -/
def occurrences? (E : List Enclosure) : Option Expr → List Occurrence
  | none => []
  | some e => e.occurrences E

end Expr

namespace Stmt

mutual

/-- The uses of variables in a statement inside enclosures. -/
def occurrences (E : List Enclosure) : Stmt → List Occurrence
  | .expression value => value.occurrences E
  | .print value => value.occurrences E
  | .var _ initializer => Expr.occurrences? E initializer
  | .block body => occurrencesAll (.block body :: E) body
  | .ifThen condition thenBranch => condition.occurrences E ++ occurrences E thenBranch
  | .ifThenElse condition thenBranch elseBranch =>
    condition.occurrences E ++ (occurrences E thenBranch ++ occurrences E elseBranch)
  | .whileLoop condition body => condition.occurrences E ++ occurrences E body
  | .function decl => functionOccurrences .function E decl
  | .returnWith _ value => Expr.occurrences? E value
  | .classDef name superclass methods =>
    Expr.occurrences? E superclass ++
      methodOccurrences (.cls ⟨name, superclass, methods⟩ :: E) methods

/-- The uses of variables in statements. -/
def occurrencesAll (E : List Enclosure) : List Stmt → List Occurrence
  | [] => []
  | s :: rest => occurrences E s ++ occurrencesAll E rest

/-- The uses of variables in a function of some kind. -/
def functionOccurrences (kind : FunctionKind) (E : List Enclosure) : FunctionDecl → List Occurrence
  | ⟨name, params, body⟩ => occurrencesAll (.function kind ⟨name, params, body⟩ :: E) body

/-- The uses of variables in methods. -/
def methodOccurrences (E : List Enclosure) : List FunctionDecl → List Occurrence
  | [] => []
  | d :: rest => functionOccurrences (Resolver.methodKind d.name) E d ++ methodOccurrences E rest

end

end Stmt

/-- The uses of variables in a piece of a tree. -/
def Node.occurrences (E : List Enclosure) : Node → List Occurrence
  | .expr e => e.occurrences E
  | .exprs es => Expr.occurrencesAll E es
  | .stmt s => s.occurrences E
  | .stmts body => Stmt.occurrencesAll E body
  | .function kind d => Stmt.functionOccurrences kind E d
  | .methods ds => Stmt.methodOccurrences E ds

theorem Expr.occurrences_part (e : Expr) (r : Resolver) (E : List Enclosure) :
    ∀ w ∈ e.parts r, w.node.occurrences E ⊆ e.occurrences E := by
  cases e <;> simp [parts, occurrences, Node.occurrences]

theorem Stmt.occurrences_part (s : Stmt) (r : Resolver) (E : List Enclosure) :
    ∀ w ∈ s.parts r, w.node.occurrences ((Node.stmt s).opens w.node ++ E) ⊆ s.occurrences E := by
  cases s with
  | var name initializer =>
    cases initializer <;> simp [parts, occurrences, Node.occurrences, Node.opens, Expr.occurrences?]
  | returnWith word value =>
    cases value <;> simp [parts, occurrences, Node.occurrences, Node.opens, Expr.occurrences?]
  | classDef name superclass methods =>
    cases superclass <;> simp [parts, occurrences, Node.occurrences, Node.opens, Expr.occurrences?]
  | _ => simp [parts, occurrences, Node.occurrences, Node.opens]

/-- A part uses no other variables, seen from the enclosures around it. -/
theorem Visit.occurrences_part (v : Visit) (E : List Enclosure) :
    ∀ w ∈ v.parts, w.node.occurrences (v.node.opens w.node ++ E) ⊆ v.node.occurrences E := by
  obtain ⟨node, r⟩ := v
  cases node with
  | expr e => exact e.occurrences_part r E
  | stmt s => exact s.occurrences_part r E
  | exprs es => cases es <;> simp [parts, Node.opens, Node.occurrences, Expr.occurrencesAll]
  | stmts body => cases body <;> simp [parts, Node.opens, Node.occurrences, Stmt.occurrencesAll]
  | function kind d =>
    obtain ⟨name, params, body⟩ := d
    simp [parts, Node.opens, Node.occurrences, Stmt.functionOccurrences]
  | methods ds => cases ds <;> simp [parts, Node.opens, Node.occurrences, Stmt.methodOccurrences]

/-- What is used at a place of a program is used in the program. -/
theorem Visit.Inside.occurrences {root v : Visit} (h : root.Inside E v) :
    v.node.occurrences E ⊆ root.node.occurrences [] := by
  induction h with
  | refl => exact fun _ ho => ho
  | part _ hw ih => exact fun _ ho => ih (occurrences_part _ _ _ hw ho)

/-- The names that the scopes can have that a use looks past: those inside the scope at the recorded
distance, or all of them if the variable is global. -/
def Occurrence.passed (D : Distances) (o : Occurrence) : List (List String) :=
  let scopes := o.enclosures.flatMap Enclosure.names
  match D[o.id]? with
  | some d => scopes.take d
  | none => scopes

/-- Whether no scope that a use of a variable looks past declares its name, be it above or below the
use. -/
def Session.noLateShadowing (s : Session) (source : List UInt8) : Bool :=
  let program := (s.parse source).program
  let D := (s.interpreter.resolve program).2.distances
  (Stmt.occurrencesAll [] program).all fun o => (o.passed D).all fun names => !names.contains
  o.name.lexeme

/-! ## Searching -/

/-- A step that looks a variable up by searching the environment, with no regard to the
distances. -/
def Machine.searchStep (m : Machine) : Machine :=
  match m with
  | ⟨.eval (.variable _ name), frames, st⟩ =>
    give (Interpreter.found name.lexeme name.line (st.store.get? st.env name.lexeme), st) frames
  | m => m.step

/-- The names that are planned for a scope. -/
def Plan.names? (plan : Plan) (scope : ScopeId) : Option (List String) :=
  (plan scope).map fun site => site.role.names

section

variable {L : List Enclosure → Visit → Prop} {plan : Plan} {g : ScopeId} {E : List Enclosure}
  {env : Env} {s : Store}

theorem Plan.names?_eq {scope : ScopeId} {site : Site} (h : plan scope = some site) :
    plan.names? scope = some site.role.names := by
  rw [names?, h]
  rfl

/-- Up to the global scope, an environment has just the scopes of its enclosures. -/
theorem Env.Follows.names (h : Env.Follows plan g E env) :
    ∃ scopes, env = scopes ++ [g] ∧
      scopes.map plan.names? = (E.flatMap Enclosure.names).map some := by
  -- The induction goes outwards. A class stands for one or two scopes, everything else for one.
  induction E generalizing env with
  | nil => exact ⟨[], h, rfl⟩
  | cons e E ih =>
    have hlocals (he : e.isClass = false) : e.names = [e.locals] := by
      cases e with
      | cls => cases he
      | block => rfl
      | function => rfl
    cases hclass : e.isClass with
    | false =>
      obtain ⟨scope, env', site, rfl, hsite, hrole, -, hinner⟩ := h.inside hclass
      obtain ⟨scopes, rfl, hnames⟩ := ih hinner
      refine ⟨scope :: scopes, rfl, ?_⟩
      rw [List.map_cons, Plan.names?_eq hsite, hrole, hnames, List.flatMap_cons, hlocals hclass]
      rfl
    | true =>
      cases e with
      | block => cases hclass
      | function => cases hclass
      | cls c =>
        obtain ⟨scope, site, method, o, rfl, hsite, hrole, hclosed⟩ := h
        have hthis := Plan.names?_eq hsite
        rw [hrole] at hthis
        cases hclosed with
        | plain hc houter =>
          obtain ⟨scopes, henv, hnames⟩ := ih houter
          refine ⟨scope :: scopes, by rw [henv]; rfl, ?_⟩
          rw [List.map_cons, hthis, hnames, List.flatMap_cons, Enclosure.names, hc]
          rfl
        | @inheriting scope' env' site' _ _ _ hc henv' hsite' hrole' _ _ houter =>
          obtain ⟨scopes, henv, hnames⟩ := ih houter
          have hsuper := Plan.names?_eq hsite'
          rw [hrole'] at hsuper
          refine ⟨scope :: scope' :: scopes, by rw [henv', henv]; rfl, ?_⟩
          rw [List.map_cons, List.map_cons, hthis, hsuper, hnames, List.flatMap_cons,
            Enclosure.names, hc]
          rfl

/-- Scopes that are planned for other names do not have the name. -/
theorem Store.Follows.get?_eq_none (h : s.Follows L plan g) {scopes : Env}
    {names : List (List String)} (hscopes : scopes.map plan.names? = names.map some) {name : String}
    (hname : ∀ ns ∈ names, name ∉ ns) : s.get? scopes name = none := by
  refine List.findSome?_eq_none_iff.mpr fun scope hscope => ?_
  have hmem : plan.names? scope ∈ names.map some := hscopes ▸ List.mem_map_of_mem hscope
  obtain ⟨ns, hns, hplanned⟩ := List.mem_map.mp hmem
  obtain ⟨site, hsite, hrole⟩ := Option.map_eq_some_iff.mp hplanned.symm
  cases hfind : s.find? scope name with
  | none => rfl
  | some v =>
    have hbound : s.contains scope name = true := s.contains_iff.mpr ⟨v, hfind⟩
    have hmem := (h.holds scope site hsite).names name hbound
    exact absurd (hrole ▸ hmem) (hname ns hns)

theorem Store.get?_append (s : Store) (inner outer : Env) (name : String)
    (h : s.get? inner name = none) : s.get? (inner ++ outer) name = s.get? outer name := by
  rw [get?] at h
  rw [get?, List.findSome?_append, h]
  rfl

/-- Where no scope that is looked past declares the name, the search finds what the distance leads
to. -/
theorem Interpreter.Stands.search {D : Distances} {frames : List Frame}
    (h : st.Stands L plan g D E frames) {id : NodeId} {name : Token}
    (hpassed : ∀ ns ∈ Occurrence.passed D ⟨E, id, name⟩, name.lexeme ∉ ns)
    (hbound : ∀ d, D[id]? = some d → ∃ v, st.store.getAt? st.env d name.lexeme = some v) :
    found name.lexeme name.line (st.store.get? st.env name.lexeme) = st.lookUp id name := by
  obtain ⟨scopes, henv, hnames⟩ := h.env.names
  rw [lookUp, h.distances]
  dsimp only [Occurrence.passed] at hpassed
  cases hd : D[id]? with
  | none =>
    rw [hd] at hpassed
    rw [henv, Store.get?_append _ _ _ _ (h.store.get?_eq_none hnames hpassed), h.globals]
  | some d =>
    rw [hd] at hpassed
    obtain ⟨v, hv⟩ := hbound d hd
    obtain ⟨scope, hscope, hfind⟩ : ∃ scope, st.env[d]? = some scope ∧
        st.store.find? scope name.lexeme = some v := by
      rw [Store.getAt?] at hv
      split at hv
      · next scope hscope => exact ⟨scope, hscope, hv⟩
      · cases hv
    obtain ⟨hlt, hget⟩ := List.getElem?_eq_some_iff.mp hscope
    -- The scopes inside the one that the distance leads to are all local.
    have hle : d ≤ scopes.length := by
      rw [henv, List.length_append] at hlt
      exact Nat.le_of_lt_succ hlt
    have hinner : (st.env.take d).map plan.names? =
        ((E.flatMap Enclosure.names).take d).map some := by
      rw [henv, List.take_append_of_le_length hle, List.map_take, List.map_take, hnames]
    have hnone := h.store.get?_eq_none hinner hpassed
    have hsplit : st.env = st.env.take d ++ scope :: st.env.drop (d + 1) := by
      rw [← hget, List.getElem_cons_drop, List.take_append_drop]
    have hsearch : st.store.get? st.env name.lexeme = some v := by
      rw [hsplit, Store.get?_append _ _ _ _ hnone, Store.get?, List.findSome?_cons, hfind]
    rw [hsearch]
    dsimp only
    rw [hv]

/-- Both kinds of step are the same at places of programs without late shadowing. -/
theorem Machine.searchStep_eq {V : Visit → Prop} {g' : ScopeId} {D : Distances} {m : Machine}
    (hV : Visit.Family D V) (hsound : m.Sound V g' D) (hlexical : m.Lexical L plan g D)
    (hshadow : ∀ E id name r, L E ⟨.expr (.variable id name), r⟩ →
      ∀ ns ∈ Occurrence.passed D ⟨E, id, name⟩, name.lexeme ∉ ns) : m.searchStep = m.step := by
  obtain ⟨control, frames, st⟩ := m
  cases control with
  | eval e =>
    cases e with
    | «variable» id name =>
      cases hlexical with
      | @eval _ E _ _ hn hst =>
        cases hsound with
        | eval hv hsees hfits =>
          obtain ⟨r, hlocated⟩ := hn
          have hbound (d : Nat) (hd : D[id]? = some d) : ∃ v, st.store.getAt? st.env d name.lexeme =
              some v :=
            getAt?_of_reads? hV hv hsees hfits.env rfl hd
          have hsearch := hst.search (hshadow E id name r hlocated) hbound
          rw [searchStep, Machine.step, stepEval, hsearch]
    | _ => rfl
  | _ => rfl

end

/-- What the check says of each place of a program where a variable is used. -/
theorem Session.passed_of_noLateShadowing {s : Session} {source : List UInt8}
    (h : s.noLateShadowing source = true) {id : NodeId} {name : Token} {r : Resolver}
    (hlocated : Located [s.visit source] E ⟨.expr (.variable id name), r⟩) :
    ∀ ns ∈ Occurrence.passed (s.interpreter.resolve (s.parse source).program).2.distances
        ⟨E, id, name⟩,
      name.lexeme ∉ ns := by
  intro ns hns
  obtain ⟨root, hroot, hinside⟩ := hlocated
  obtain rfl := List.mem_singleton.mp hroot
  have hoccurs : (⟨E, id, name⟩ : Occurrence) ∈ Stmt.occurrencesAll [] (s.parse source).program :=
    hinside.occurrences List.mem_cons_self
  have hall := List.all_eq_true.mp (List.all_eq_true.mp h _ hoccurs) ns hns
  simpa using hall

/-- **Without late shadowing, distances only save the search.** Take a new session and a source that
is accepted. If no scope that a use of a variable looks past declares its name, then running the
source gives the same outcome, the same reports, the same output and the same session, whether
variables are looked up at their distances or by a search of the environment. -/
theorem run_by_search (natives : List Native) (output : Output) (maxCallDepth : Nat)
    (clock : Nat → Float) {source : List UInt8}
    (haccepts : (Session.new (.new natives output maxCallDepth clock)).accepts source = true)
    (hshadow : (Session.new (.new natives output maxCallDepth clock)).noLateShadowing source = true)
    (budget : Nat) :
    (Session.new (.new natives output maxCallDepth clock)).runBy Machine.searchStep budget source =
      (Session.new (.new natives output maxCallDepth clock)).run budget source := by
  have hrecalls := (Session.Recalls.new natives output maxCallDepth clock).accept haccepts
  have hfits := hrecalls.fits
  refine Session.runBy_eq (fun m hm => ?_) budget
  -- That the variable is bound at its distance is known from the walk, that it is not bound before
  -- from the text.
  have hsound :=
    hm.sound hfits.family (Session.seen_program _ source []) (hfits.rest.fits hfits.store)
      hfits.rest
  obtain ⟨past, hafter⟩ := hm.after
  obtain ⟨plan, -, hlexical⟩ :=
    hafter.lexical hrecalls.lexicon hrecalls.recalls (Session.placed_program _ source [])
  exact Machine.searchStep_eq hfits.family hsound hlexical fun E id name r hv =>
    Session.passed_of_noLateShadowing hshadow hv

/-- The source `var g = nil; { var a = g; fun f() { return a; } print f(); }`. -/
def capturing : List UInt8 :=
  "var g = nil; \x7b var a = g; fun f() \x7b return a; \x7d print f(); \x7d".toUTF8.toList

/-- A global variable, a captured one and one of the block at hand are all found by the search. -/
theorem capturing_run_by_search :
    (Session.new (.new [] .unlimited 9 fun _ => 0)).accepts capturing = true ∧
    (Session.new (.new [] .unlimited 9 fun _ => 0)).noLateShadowing capturing = true ∧
    (Session.new (.new [] .unlimited 9 fun _ => 0)).runBy Machine.searchStep 40 capturing =
      (Session.new (.new [] .unlimited 9 fun _ => 0)).run 40 capturing ∧
    ((Session.new (.new [] .unlimited 9 fun _ => 0)).run 40 capturing).map
      (fun r => (r.outcome, r.session.interpreter.output.text)) = some (.success, "nil\n") := by
  have haccepts : (Session.new (.new [] .unlimited 9 fun _ => 0)).accepts capturing =
      true := by decide +kernel
  have hshadow : (Session.new (.new [] .unlimited 9 fun _ => 0)).noLateShadowing capturing =
      true := by
    rw [show capturing = _ from Utf8.encode_eq _]
    cbv
  refine ⟨haccepts, hshadow, run_by_search [] .unlimited 9 (fun _ => 0) haccepts hshadow 40, ?_⟩
  rw [show capturing = _ from Utf8.encode_eq _]
  cbv

end Lox
