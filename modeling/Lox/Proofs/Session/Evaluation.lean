import Lox.Proofs.Limits.Refusal
import Lox.Proofs.Machine.Below
import Lox.Proofs.Syntax.Locality
import Lox.Proofs.Token.Lines

/-!
# Evaluating an expression and printing it

A source that is one expression can be evaluated, or it can be made a program that prints it: the
word `print` before it, and a semicolon on a line of its own after it, where no comment at its end
reaches (`printing`). Both come to the same, but for the line that is printed
(`Session.evaluating_is_printing`).

The two go different ways. Evaluating takes all tokens as an expression and does not look at names;
the program is read by the rules of statements, and its names are looked at first. But the tokens
are the same up to the word and the semicolon (`Scan.beforeEnd_printing`), the tree is the same
(`Parse.ofTokens_print`), and outside of any scope there is nothing to record and, without `this`
and `super`, nothing to report (`Expr.resolve_of_outsideClass`).
-/

namespace Lox

/-- The source of the program that prints an expression. -/
def printing (source : List UInt8) : List UInt8 :=
  "print ".toUTF8.toList ++ source ++ "\n;".toUTF8.toList

/-! ## Tokens -/

namespace Segment

/-- The segments of the word `print` and the blank after it. -/
def printWord : List Segment :=
  [⟨.word, [0x70, 0x72, 0x69, 0x6E, 0x74]⟩, ⟨.blank, [0x20]⟩]

/-- The segments of a line end and a semicolon. -/
def semicolonLine : List Segment :=
  [⟨.newline, [Byte.newline]⟩, ⟨.symbol .semicolon, [0x3B]⟩]

/-- Between `print` and a semicolon the source is cut as it is alone. -/
theorem cut_printing {source : List UInt8} (h : ∀ s ∈ cut source, s.IsRead) :
    cut (printing source) = printWord ++ cut source ++ semicolonLine := by
  have hclosed : ∀ s ∈ cut source, s.form ≠ .unclosed := fun s hs => (h s hs).1
  have hword : "print ".toUTF8.toList = [0x70, 0x72, 0x69, 0x6E, 0x74, 0x20] := by decide +kernel
  have hend : "\n;".toUTF8.toList = [Byte.newline, 0x3B] := by decide +kernel
  have hfirst (rest : List UInt8) : cut (0x70 :: 0x72 :: 0x69 :: 0x6E :: 0x74 :: 0x20 :: rest) =
      printWord ++ cut rest := by
    rw [cut, show afterFirst 0x70 (0x72 :: 0x69 :: 0x6E :: 0x74 :: 0x20 :: rest) = 0x20 :: rest from
      rfl, cut,
      show afterFirst 0x20 rest = rest from rfl]
    rfl
  have hlast : cut [Byte.newline, 0x3B] = semicolonLine := by
    rw [cut, show afterFirst Byte.newline [0x3B] = [0x3B] from rfl, cut,
      show afterFirst 0x3B [] = [] from rfl, cut]
    rfl
  rw [printing, hword, hend, List.append_assoc]
  show cut (0x70 :: 0x72 :: 0x69 :: 0x6E :: 0x74 :: 0x20 :: (source ++ Byte.newline :: [0x3B])) = _
  rw [hfirst, cut_append_newline hclosed, hlast, List.append_assoc]

end Segment

namespace Scan

variable {source : List UInt8}

/-- The tokens of segments end at the first end of a source after them. -/
theorem beforeEnd_itemsOf {line : Nat} {segments : List Segment} {last : Token} {rest : List Token}
    (h : last.kind.isEof = true) :
    beforeEnd ((Segment.itemsOf line segments).filterMap token? ++ last :: rest) =
      (Segment.itemsOf line segments).filterMap token? := by
  have hno : ∀ t ∈ (Segment.itemsOf line segments).filterMap token?, (!t.kind.isEof) = true := by
    intro t ht
    obtain ⟨item, hitem, heq⟩ := List.mem_filterMap.mp ht
    cases item with
    | error e => cases heq
    | ok t' =>
      cases heq
      rw [Segment.isEof_of_mem_itemsOf hitem]
      rfl
  rw [beforeEnd, List.takeWhile_append_of_pos hno, List.takeWhile_cons, h]
  exact List.append_nil _

theorem beforeEnd_ofSource (source : List UInt8) : beforeEnd (ofSource source).tokens =
    (Segment.itemsOf 1 (Segment.cut source)).filterMap token? := by
  rw [ofSource, tokens_ofItems, items, Segment.items_eq, List.filterMap_append]
  exact beforeEnd_itemsOf rfl

/-- The tokens of the program that prints an expression are those of the expression between a word
and a semicolon. -/
theorem beforeEnd_printing (h : (ofSource source).errors = []) : ∃ word stop : Token,
    word.kind = .keyword .printWord ∧ stop.kind = .symbol .semicolon ∧
    beforeEnd (ofSource (printing source)).tokens =
      word :: (beforeEnd (ofSource source).tokens ++ [stop]) := by
  have hread := (errors_eq_nil_iff source).mp h
  have hfront : (Segment.itemsOf 1 Segment.printWord).filterMap token? =
      [⟨.keyword .printWord, "print", 1⟩] := by
    cbv
  have hlines : Segment.lineEndsAll Segment.printWord = 0 := by decide +kernel
  have hback (line : Nat) : (Segment.itemsOf line Segment.semicolonLine).filterMap token? =
      [⟨.symbol .semicolon, ";", line + 1⟩] := by
    have htext : Segment.text ⟨.symbol .semicolon, [0x3B]⟩ = ";" := by decide +kernel
    have hends : Segment.lineEnds ⟨.newline, [Byte.newline]⟩ = 1 := rfl
    have hnone : Segment.lineEnds ⟨.symbol .semicolon, [0x3B]⟩ = 0 := rfl
    simp [Segment.semicolonLine, Segment.itemsOf, Segment.item?, token?, htext, hends, hnone]
  rw [beforeEnd_ofSource, beforeEnd_ofSource, Segment.cut_printing hread, Segment.itemsOf_append,
    Segment.itemsOf_append, List.filterMap_append, List.filterMap_append, hfront, hlines, hback]
  exact ⟨_, _, rfl, rfl, rfl⟩

/-- Printing a source gives no lexical errors that it does not have. -/
theorem errors_printing (h : (ofSource source).errors = []) :
    (ofSource (printing source)).errors = [] := by
  have hread := (errors_eq_nil_iff source).mp h
  have hword : ∀ s ∈ Segment.printWord, s.IsRead := by simp [Segment.printWord, Segment.IsRead]
  have hend : ∀ s ∈ Segment.semicolonLine,
      s.IsRead := by simp [Segment.semicolonLine, Segment.IsRead]
  rw [errors_eq_nil_iff, Segment.cut_printing hread]
  exact List.forall_mem_append.mpr ⟨List.forall_mem_append.mpr ⟨hword, hread⟩, hend⟩

end Scan

/-! ## Names -/

namespace Expr

mutual

/-- Whether an expression can stand outside of a class: there is no `this` and no `super` in it. -/
def outsideClass : Expr → Bool
  | .literal _ => true
  | .grouping inner => outsideClass inner
  | .unary _ right => outsideClass right
  | .binary left _ right => outsideClass left && outsideClass right
  | .logical left _ right => outsideClass left && outsideClass right
  | .variable _ _ => true
  | .assign _ _ value => outsideClass value
  | .call callee _ arguments => outsideClass callee && outsideClassAll arguments
  | .get object _ => outsideClass object
  | .set object _ value => outsideClass object && outsideClass value
  | .thisRef _ _ => false
  | .superRef _ _ _ => false

/-- Whether expressions can stand outside of a class. -/
def outsideClassAll : List Expr → Bool
  | [] => true
  | e :: rest => outsideClass e && outsideClassAll rest

end

end Expr

/-- A resolver at the top level: in no scope, and not in the initial value of a global variable. -/
structure Resolver.AtTop (r : Resolver) : Prop where
  scopes : r.scopes = []
  initializing : r.initializing = none

namespace Resolver.AtTop

variable {r : Resolver}

theorem record (h : r.AtTop) (id : NodeId) (name : String) : r.record id name = r := by
  have hnone : r.distance? name = none := by rw [Resolver.distance?, h.scopes]; rfl
  rw [Resolver.record, hnone]

theorem reportIf_undefined (h : r.AtTop) (name : Token) :
    r.reportIf (r.isUndefinedHere name.lexeme) name .localInOwnInitializer = r := by
  rw [Resolver.isUndefinedHere, h.scopes]
  rfl

theorem reportIf_initializing (h : r.AtTop) (name : Token) :
    r.reportIf (r.initializing == some name.lexeme) name .globalInOwnInitializer = r := by
  rw [h.initializing]
  rfl

end Resolver.AtTop

namespace Expr

mutual

/-- **At the top level nothing is recorded of an expression, and nothing reported.** -/
theorem resolve_of_outsideClass {r : Resolver} (hr : r.AtTop) :
    ∀ {e : Expr}, e.outsideClass = true → e.resolve r = r
  | .literal _, _ => rfl
  | .grouping inner, h => resolve_of_outsideClass hr (e := inner) h
  | .unary _ right, h => resolve_of_outsideClass hr (e := right) h
  | .binary left _ right, h | .logical left _ right, h => by
    obtain ⟨hleft, hright⟩ := (Bool.and_eq_true _ _).mp h
    rw [resolve, resolve_of_outsideClass hr hleft, resolve_of_outsideClass hr hright]
  | .variable id name, _ => by
    simp only [resolve, hr.reportIf_undefined, hr.reportIf_initializing, hr.record]
  | .assign id name value, h => by
    have hvalue : value.outsideClass = true := h
    rw [resolve, resolve_of_outsideClass hr hvalue, hr.record]
  | .call callee _ arguments, h => by
    obtain ⟨hcallee, harguments⟩ := (Bool.and_eq_true _ _).mp h
    rw [resolve, resolve_of_outsideClass hr hcallee, resolveAll_of_outsideClass hr harguments]
  | .get object _, h => resolve_of_outsideClass hr (e := object) h
  | .set object _ value, h => by
    obtain ⟨hobject, hvalue⟩ := (Bool.and_eq_true _ _).mp h
    rw [resolve, resolve_of_outsideClass hr hvalue, resolve_of_outsideClass hr hobject]
  | .thisRef _ _, h | .superRef _ _ _, h => nomatch h

/-- At the top level, expressions without words of classes leave the walk as it is. -/
theorem resolveAll_of_outsideClass {r : Resolver} (hr : r.AtTop) :
    ∀ {es : List Expr}, outsideClassAll es = true → resolveAll es r = r
  | [], _ => rfl
  | e :: rest, h => by
    obtain ⟨he, hrest⟩ := (Bool.and_eq_true _ _).mp h
    rw [resolveAll, resolve_of_outsideClass hr he, resolveAll_of_outsideClass hr hrest]

end

end Expr

theorem Interpreter.resolve_print (st : Interpreter) {e : Expr} (h : e.outsideClass = true) :
    st.resolve [.print e] = ([], st) := by
  have htop : (Resolver.start (fun name => st.store.contains st.globals name) st.distances).AtTop :=
    ⟨rfl, rfl⟩
  simp only [Interpreter.resolve, Interpreter.resolution, Resolution.ofProgram, Stmt.resolveAll,
    Stmt.resolve, Expr.resolve_of_outsideClass htop h]
  rfl

/-! ## Printing -/

namespace Output

/-- An output that never fails. -/
structure Lasting (o : Output) : Prop where
  limit : o.limit = none
  flushFails : o.flushFails = false

theorem Lasting.write {o : Output} (h : o.Lasting) (pieces : List String) :
    (o.write pieces).1.Lasting := by
  rw [write_of_limit h.limit]
  exact ⟨h.limit, h.flushFails⟩

end Output

namespace Interpreter

variable {st : Interpreter} {e : Expr} {budget : Nat} {r : Except Fault Value × Interpreter}

/-- What comes of printing what an expression came to, with an output that never fails. -/
def writeResult : Except Fault Value × Interpreter → Except Fault Unit × Interpreter
  | (.ok v, st) => (.ok (), { st with output := st.output.append (v.display ++ "\n") })
  | (.error f, st) => (.error f, st)

theorem lasting_of_evaluate (h : st.output.Lasting) (hr : st.evaluate budget e = some r) :
    r.2.output.Lasting := by
  have hrun :=
    Machine.output_kept_by_run (m := ⟨.eval e, [], st⟩) (fun _ pieces ho => ho.write pieces) h
      budget
  rwa [Machine.state_of_result? hr] at hrun

/-- To an output that never fails, printing is writing. -/
theorem printResult_of_lasting (h : r.2.output.Lasting) : printResult r = writeResult r := by
  obtain ⟨_ | v, st⟩ := r
  · rfl
  · have htext : String.join (v.pieces ++ ["\n"]) = v.display ++ "\n" := by
      rw [String.join_append]
      rfl
    simp only [printResult, writeResult, print, Output.write_of_limit h.limit, htext, if_true]

/-- Printing an expression is evaluating it and writing its value. -/
theorem interpret_print_iff (h : st.output.Lasting) {r' : Except Fault Unit × Interpreter} :
    (∃ budget, st.interpret budget [.print e] = some r') ↔
      ∃ budget r, st.evaluate budget e = some r ∧ writeResult r = r' := by
  -- There is nothing that flushing could change.
  have hflush {budget : Nat} {r : Except Fault Value × Interpreter}
      (hr : st.evaluate budget e = some r) :
      ((writeResult r).1.bind fun _ => (writeResult r).2.flush, (writeResult r).2) =
      writeResult r := by
    have hlasts := lasting_of_evaluate h hr
    obtain ⟨_ | v, st'⟩ := r
    · rfl
    · have hfails : ¬ (writeResult (.ok v, st')).2.output.flushFails = true :=
        Bool.eq_false_iff.mp hlasts.flushFails
      rw [flush, if_neg hfails]
      rfl
  constructor
  · rintro ⟨budget, hr'⟩
    rw [interpret_eq] at hr'
    obtain ⟨x, hx, rfl⟩ := Option.map_eq_some_iff.mp hr'
    obtain ⟨b, r, hr, rfl⟩ := executeAll_print_iff.mp ⟨budget, hx⟩
    rw [printResult_of_lasting (lasting_of_evaluate h hr)]
    exact ⟨b, r, hr, (hflush hr).symm⟩
  · rintro ⟨budget, r, hr, rfl⟩
    obtain ⟨b, hb⟩ := executeAll_print_iff.mpr ⟨budget, r, hr, rfl⟩
    refine ⟨b, ?_⟩
    rw [interpret_eq, hb, printResult_of_lasting (lasting_of_evaluate h hr)]
    exact congrArg some (hflush hr)

end Interpreter

/-! ## Sessions -/

namespace Session

variable {s : Session} {source : List UInt8} {e : Expr}

theorem parse_printing (hscan : (Scan.ofSource source).errors = [])
    (hparse : (s.parseExpr source).expr? = some e) :
    (s.parse (printing source)).errors = [] ∧ (s.parse (printing source)).program = [.print e] ∧
      (s.parse (printing source)).nextId = (s.parseExpr source).nextId := by
  obtain ⟨word, stop, hword, hstop, htokens⟩ := Scan.beforeEnd_printing hscan
  obtain ⟨hread, hprogram⟩ := Parse.ofTokens_print hword hstop htokens hparse
  exact ⟨Parse.errors_eq_nil_of_hadError hread, hprogram⟩

theorem run_printing_iff (houtput : s.interpreter.output.Lasting)
    (hscan : (Scan.ofSource source).errors = []) (hparse : (s.parseExpr source).expr? = some e)
    (hclass : e.outsideClass = true) {r : Run} :
    (∃ budget, s.run budget (printing source) = some r) ↔
      ∃ budget x, s.interpreter.evaluate budget e = some x ∧
        ended (s.parseExpr source).nextId (Interpreter.writeResult x) = r := by
  obtain ⟨herrors, hprogram, hnext⟩ := parse_printing hscan hparse
  have hresolve := s.interpreter.resolve_print hclass
  have haccepts : s.accepts (printing source) = true := by
    rw [accepts_iff, hprogram, hresolve]
    exact ⟨Scan.errors_printing hscan, herrors, rfl⟩
  have hrun (budget : Nat) : s.run budget (printing source) =
      (s.interpreter.interpret budget [.print e]).map (ended (s.parseExpr source).nextId) := by
    rw [run_of_accepts haccepts, hprogram, hresolve, hnext]
  constructor
  · rintro ⟨budget, hr⟩
    rw [hrun] at hr
    obtain ⟨r', hr', rfl⟩ := Option.map_eq_some_iff.mp hr
    obtain ⟨b, x, hx, rfl⟩ := (Interpreter.interpret_print_iff houtput).mp ⟨budget, hr'⟩
    exact ⟨b, x, hx, rfl⟩
  · rintro ⟨budget, x, hx, rfl⟩
    obtain ⟨b, hb⟩ := (Interpreter.interpret_print_iff houtput).mpr ⟨budget, x, hx, rfl⟩
    exact ⟨b, by rw [hrun, hb]; rfl⟩

/-- **Evaluating an expression and printing it come to the same.** Take an expression without `this`
and `super` in any session whose output never fails. Evaluating it ends if and only if the program
that prints it does. If it has a value, the program succeeds, and has written what evaluating wrote,
then the text of the value and a line end. If it fails, the program fails with the same report and
has written the same. Either way the sessions after it differ at most in what was written. -/
theorem evaluating_is_printing (s : Session) (source : List UInt8) {e : Expr}
    (hlimit : s.interpreter.output.limit = none) (hflush : s.interpreter.output.flushFails = false)
    (hscan : (Scan.ofSource source).errors = [])
    (hparse : (ParsedExpr.ofTokens (Scan.ofSource source).tokens s.nextId).expr? = some e)
    (hclass : e.outsideClass = true) :
    ((∃ budget ev, s.evaluate budget source = some ev) ↔
      ∃ budget r, s.run budget (printing source) = some r) ∧
    ∀ budget budget' ev r, s.evaluate budget source = some ev →
      s.run budget' (printing source) = some r →
      ((∃ v, ev.result = .ok v) ↔ r.outcome = .success) ∧
      (∀ v, ev.result = .ok v → r.reports = [] ∧
        r.session.interpreter.output.text =
          ev.session.interpreter.output.text ++ v.display ++ "\n") ∧
      (ev.result = .error .runtimeError ↔ r.outcome = .runtimeError) ∧
      (∀ o, ev.result = .error o → o = .runtimeError ∧ r.reports = ev.reports ∧
        r.session.interpreter.output = ev.session.interpreter.output) ∧
      { r.session.interpreter with output := ev.session.interpreter.output } =
        ev.session.interpreter ∧
      r.session.nextId = ev.session.nextId := by
  have heval := evaluate_eq (s := s) hscan hparse
  have hrun {r : Run} := run_printing_iff (r := r) ⟨hlimit, hflush⟩ hscan hparse hclass
  refine ⟨⟨?_, ?_⟩, ?_⟩
  · rintro ⟨budget, ev, hev⟩
    rw [heval] at hev
    obtain ⟨x, hx, -⟩ := Option.map_eq_some_iff.mp hev
    obtain ⟨b, hb⟩ := hrun.mpr ⟨budget, x, hx, rfl⟩
    exact ⟨b, _, hb⟩
  · rintro ⟨budget, r, hr⟩
    obtain ⟨b, x, hx, -⟩ := hrun.mp ⟨budget, hr⟩
    exact ⟨b, _, by rw [heval, hx]; rfl⟩
  · intro budget budget' ev r hev hr
    rw [heval] at hev
    obtain ⟨x, hx, rfl⟩ := Option.map_eq_some_iff.mp hev
    obtain ⟨b, x', hx', rfl⟩ := hrun.mp ⟨budget', hr⟩
    obtain rfl := Interpreter.evaluate_det hx hx'
    obtain ⟨f | v, st⟩ := x
    · refine ⟨⟨?_, ?_⟩, ?_, ⟨fun _ => rfl, fun _ => rfl⟩, ?_, rfl, rfl⟩
      · rintro ⟨v, hv⟩
        cases hv
      · intro ho
        cases ho
      · intro v hv
        cases hv
      · intro o ho
        cases ho
        exact ⟨rfl, rfl, rfl⟩
    · refine ⟨⟨fun _ => rfl, fun _ => ⟨v, rfl⟩⟩, ?_, ⟨?_, ?_⟩, ?_, rfl, rfl⟩
      · intro v' hv
        cases hv
        exact ⟨rfl, String.append_assoc.symm⟩
      · intro ho
        cases ho
      · intro ho
        cases ho
      · intro o ho
        cases ho

/-- A session with a function that assigns and prints before it returns. -/
def withWelcome? : Option Session :=
  ((fresh [] 9 (fun _ => 0) false none).run 20
    "var a; fun f() \x7b a = \"you\"; print \"hi\"; return a; \x7d".toUTF8.toList).map Run.session

/-- The source of a call of the function, with a comment behind it. -/
def welcoming : List UInt8 :=
  "f() // now".toUTF8.toList

/-- The source of an expression that fails. -/
def negatedNil : List UInt8 :=
  "-nil".toUTF8.toList

/-- The comment does not reach the semicolon, and the assignment in the function is made both
ways. -/
theorem welcoming_evaluated_and_printed : ∃ s, withWelcome? = some s ∧
    (∃ ev budget r v, s.evaluate 30 welcoming = some ev ∧
      s.run budget (printing welcoming) = some r ∧
      ev.result = .ok v ∧ r.outcome = .success ∧
      r.session.interpreter.output.text = "hi\n" ++ "you" ++ "\n" ∧
      r.session.interpreter.store = ev.session.interpreter.store) ∧
    ∃ ev budget r, s.evaluate 30 negatedNil = some ev ∧
      s.run budget (printing negatedNil) = some r ∧
      r.outcome = .runtimeError ∧ r.reports = ev.reports := by
  have hsession : withWelcome?.map
      (fun s =>
        (s.interpreter.output.limit, s.interpreter.output.flushFails,
          (s.parseExpr welcoming).expr?.map Expr.outsideClass, (s.parseExpr negatedNil).expr?.map
          Expr.outsideClass,
      (s.evaluate 30 negatedNil).map fun ev => ev.result.toOption.isSome)) =
      some (none, false, some true, some true, some false) := by
    decide +kernel
  have hwelcome : withWelcome?.map (fun s => (s.evaluate 30 welcoming).map fun ev =>
      (ev.result.toOption.map Value.display, ev.session.interpreter.output.text)) =
      some (some (some "you", "hi\n")) := by
    simp only [withWelcome?, show welcoming = _ from Utf8.encode_eq _]
    cbv
  obtain ⟨s, hs, hfacts⟩ := Option.map_eq_some_iff.mp hsession
  rw [hs, Option.map_some] at hwelcome
  simp only [Prod.mk.injEq, Option.map_eq_some_iff, Option.some.injEq] at hfacts hwelcome
  obtain ⟨hlimit, hflush, ⟨e, he, hclass⟩, ⟨e', he', hclass'⟩, ev', hev', herror⟩ := hfacts
  obtain ⟨ev, hev, ⟨v, hv, hdisplay⟩, htext⟩ := hwelcome
  refine ⟨s, hs, ?_, ?_⟩
  · obtain ⟨hends, hagree⟩ :=
      evaluating_is_printing s welcoming hlimit hflush (by decide +kernel) he hclass
    obtain ⟨budget, r, hr⟩ := hends.mp ⟨30, ev, hev⟩
    obtain ⟨hok, hprinted, -, -, hsame, -⟩ := hagree 30 budget ev r hev hr
    have hresult : ev.result = .ok v := by
      cases hresult : ev.result with
      | error o =>
        rw [hresult] at hv
        cases hv
      | ok v' =>
        rw [hresult] at hv
        exact congrArg _ (Option.some.inj hv)
    have hwritten := (hprinted v hresult).2
    rw [hdisplay, htext] at hwritten
    have hstore := congrArg Interpreter.store hsame
    exact ⟨ev, budget, r, v, hev, hr, hresult, hok.mp ⟨v, hresult⟩, hwritten, hstore⟩
  · obtain ⟨hends, hagree⟩ :=
      evaluating_is_printing s negatedNil hlimit hflush (by decide +kernel) he' hclass'
    obtain ⟨budget, r, hr⟩ := hends.mp ⟨30, ev', hev'⟩
    obtain ⟨-, -, hfails, hsame, -, -⟩ := hagree 30 budget ev' r hev' hr
    cases hresult : ev'.result with
    | ok v' =>
      rw [hresult] at herror
      cases herror
    | error o =>
      obtain ⟨rfl, hreports, -⟩ := hsame o hresult
      exact ⟨ev', budget, r, hev', hr, hfails.mp hresult, hreports⟩

end Session

end Lox
