import Lox.Binding.Resolve
import Lox.Proofs.Binding.Outline

/-!
# The rules of scopes

Each rule is a condition on one mark of an outline and the marks before it (`Breaks`). What a
correct walk over a program reports and records is then said mark by mark: a report for each mark
that breaks a rule, in order (`Faults`), and for each use the number of scopes out to its variable,
if there is such a scope (`Records`).
-/

namespace Lox

/-- The name that a mark declares in the text. -/
def Mark.declaration? : Mark → Option Token
  | declares name | initializes name => some name
  | _ => none

namespace Outline

variable {word name : Token} {x : Option Opening} {id : NodeId}

/-- The place is in the initial value of a local variable of this name. -/
def InOwnLocal (A : List Mark) (name : String) : Prop :=
  ∃ before t, Initializing A before t ∧ t.lexeme = name ∧ ¬AtTop before

/-- The place is in the initial value of a global variable of this name, and there was none
before. -/
def InOwnGlobal (isGlobal : String → Bool) (A : List Mark) (name : String) : Prop :=
  ∃ before t, Initializing A before t ∧ t.lexeme = name ∧ AtTop before ∧
    ¬DeclaredOnTop before name ∧ isGlobal name = false

/-- A mark after others breaks a rule. `isGlobal` are the global variables that exist already. -/
inductive Breaks (isGlobal : String → Bool) (A : List Mark) : Mark → StaticError → Prop where
  | returnAtTopLevel {word : Token} {hasValue : Bool} (h : Nearest Opening.isFunction A none) :
      Breaks isGlobal A (.returns word hasValue) ⟨.returnAtTopLevel, word.line, word.location⟩
  | returnFromInitializer {word name : Token}
      (h : Nearest Opening.isFunction A (some (.method name))) (hname : name.lexeme = "init") :
      Breaks isGlobal A (.returns word true) ⟨.returnFromInitializer, word.line, word.location⟩
  | inheritsFromItself {name superName : Token} (h : superName.lexeme = name.lexeme) :
      Breaks isGlobal A (.inherits name superName)
      ⟨.inheritsFromItself, superName.line, superName.location⟩
  | thisOutsideClass {id : NodeId} {word : Token} (h : Nearest Opening.isClass A none) :
      Breaks isGlobal A (.usesThis id word) ⟨.thisOutsideClass, word.line, word.location⟩
  | superOutsideClass {id : NodeId} {word : Token} (h : Nearest Opening.isClass A none) :
      Breaks isGlobal A (.usesSuper id word) ⟨.superOutsideClass, word.line, word.location⟩
  | superWithoutSuperclass {id : NodeId} {word : Token}
      (h : Nearest Opening.isClass A (some (.methods false))) :
      Breaks isGlobal A (.usesSuper id word) ⟨.superWithoutSuperclass, word.line, word.location⟩
  | alreadyDeclared {m : Mark} {name : Token} (hm : m.declaration? = some name)
      (h : Declared A 0 name.lexeme) :
      Breaks isGlobal A m ⟨.alreadyDeclared, name.line, name.location⟩
  | localInOwnInitializer {id : NodeId} {name : Token} (h : InOwnLocal A name.lexeme) :
      Breaks isGlobal A (.reads id name) ⟨.localInOwnInitializer, name.line, name.location⟩
  | globalInOwnInitializer {id : NodeId} {name : Token} (h : InOwnGlobal isGlobal A name.lexeme) :
      Breaks isGlobal A (.reads id name) ⟨.globalInOwnInitializer, name.line, name.location⟩

/-- The reports on an outline: one for each mark that breaks a rule, in order. -/
inductive Faults (isGlobal : String → Bool) : List Mark → List StaticError → Prop where
  | nil : Faults isGlobal [] []
  | fault {A : List Mark} {errors : List StaticError} {m : Mark} {e : StaticError}
      (h : Faults isGlobal A errors) (hm : ∀ e', Breaks isGlobal A m e' ↔ e' = e) :
      Faults isGlobal (A ++ [m]) (errors ++ [e])
  | clean {A : List Mark} {errors : List StaticError} {m : Mark} (h : Faults isGlobal A errors)
      (hm : ∀ e, ¬Breaks isGlobal A m e) : Faults isGlobal (A ++ [m]) errors

/-- The distance that a node has to get for its use: the address of its name. Outside of all classes
`this` has none. -/
structure Locates (A : List Mark) (m : Mark) (id : NodeId) (d : Nat) : Prop where
  address : ∃ name, m.use? = some (id, name) ∧ IsAddress A name d
  inClass : ∀ word, m = .usesThis id word → ¬Nearest Opening.isClass A none

/-- The distances after an outline, if `D` are those before. -/
inductive Records (D : Distances) : List Mark → Distances → Prop where
  | nil : Records D [] D
  | found {A : List Mark} {D' : Distances} {m : Mark} {id : NodeId} {d : Nat} (h : Records D A D')
      (hd : Locates A m id d) : Records D (A ++ [m]) (D'.insert id d)
  | missing {A : List Mark} {D' : Distances} {m : Mark} (h : Records D A D')
      (hm : ∀ id d, ¬Locates A m id d) : Records D (A ++ [m]) D'

/-! ## Which marks break a rule -/

variable {isGlobal : String → Bool} {A : List Mark} {m : Mark} {e : StaticError}

theorem breaks_returns {hasValue : Bool} (h : Nearest Opening.isFunction A x) :
    Breaks isGlobal A (.returns word hasValue) e ↔
      x = none ∧ e = ⟨.returnAtTopLevel, word.line, word.location⟩ ∨
      (hasValue = true ∧ ∃ name, x = some (.method name) ∧ name.lexeme = "init") ∧
        e = ⟨.returnFromInitializer, word.line, word.location⟩ := by
  constructor
  · rintro (h' | ⟨h', hname⟩ | _ | _ | _ | _ | ⟨⟨⟩, _⟩)
    · exact .inl ⟨h.unique h', rfl⟩
    · exact .inr ⟨⟨rfl, _, h.unique h', hname⟩, rfl⟩
  · rintro (⟨rfl, rfl⟩ | ⟨⟨rfl, name, rfl, hname⟩, rfl⟩)
    · exact .returnAtTopLevel h
    · exact .returnFromInitializer h hname

theorem breaks_inherits {superName : Token} :
    Breaks isGlobal A (.inherits name superName) e ↔
      superName.lexeme = name.lexeme ∧
      e = ⟨.inheritsFromItself, superName.line, superName.location⟩ := by
  constructor
  · rintro (_ | _ | h | _ | _ | _ | ⟨⟨⟩, _⟩)
    exact ⟨h, rfl⟩
  · rintro ⟨h, rfl⟩
    exact .inheritsFromItself h

theorem breaks_usesThis (h : Nearest Opening.isClass A x) :
    Breaks isGlobal A (.usesThis id word) e ↔ x = none ∧
      e = ⟨.thisOutsideClass, word.line, word.location⟩ := by
  constructor
  · rintro (_ | _ | _ | h' | _ | _ | ⟨⟨⟩, _⟩)
    exact ⟨h.unique h', rfl⟩
  · rintro ⟨rfl, rfl⟩
    exact .thisOutsideClass h

theorem breaks_usesSuper (h : Nearest Opening.isClass A x) :
    Breaks isGlobal A (.usesSuper id word) e ↔
      x = none ∧ e = ⟨.superOutsideClass, word.line, word.location⟩ ∨
      x = some (.methods false) ∧ e = ⟨.superWithoutSuperclass, word.line, word.location⟩ := by
  constructor
  · rintro (_ | _ | _ | _ | h' | h' | ⟨⟨⟩, _⟩)
    · exact .inl ⟨h.unique h', rfl⟩
    · exact .inr ⟨h.unique h', rfl⟩
  · rintro (⟨rfl, rfl⟩ | ⟨rfl, rfl⟩)
    · exact .superOutsideClass h
    · exact .superWithoutSuperclass h

theorem breaks_reads :
    Breaks isGlobal A (.reads id name) e ↔
      InOwnLocal A name.lexeme ∧ e = ⟨.localInOwnInitializer, name.line, name.location⟩ ∨
      InOwnGlobal isGlobal A name.lexeme ∧
      e = ⟨.globalInOwnInitializer, name.line, name.location⟩ := by
  constructor
  · rintro (_ | _ | _ | _ | _ | _ | ⟨⟨⟩, _⟩ | h | h)
    · exact .inl ⟨h, rfl⟩
    · exact .inr ⟨h, rfl⟩
  · rintro (⟨h, rfl⟩ | ⟨h, rfl⟩)
    · exact .localInOwnInitializer h
    · exact .globalInOwnInitializer h

theorem breaks_declaration (hm : m.declaration? = some name) :
    Breaks isGlobal A m e ↔ Declared A 0 name.lexeme ∧
      e = ⟨.alreadyDeclared, name.line, name.location⟩ := by
  constructor
  · intro h
    cases h with
    | alreadyDeclared hm' h =>
      cases hm.symm.trans hm'
      exact ⟨h, rfl⟩
    | _ => cases hm
  · rintro ⟨h, rfl⟩
    exact .alreadyDeclared hm h

/-! ## Reports and distances mark by mark -/

namespace Faults

variable {r : Resolver} {t : Token} {fault fault' : StaticFault} {b b' : Bool} {p p' : Prop}

/-- A mark that at most one rule is about. -/
theorem reportIf (h : Faults isGlobal A r.errors) (hb : b = true ↔ p)
    (hm : ∀ e, Breaks isGlobal A m e ↔ p ∧ e = ⟨fault, t.line, t.location⟩) :
    Faults isGlobal (A ++ [m]) (r.reportIf b t fault).errors := by
  cases b with
  | true => exact .fault h fun e => (hm e).trans (and_iff_right (hb.mp rfl))
  | false => exact .clean h fun e he => by simpa using hb.mpr ((hm e).mp he).1

/-- A mark that two rules are about, of which it breaks one at most. -/
theorem reportIf_reportIf (h : Faults isGlobal A r.errors) (hb : b = true ↔ p)
    (hb' : b' = true ↔ p') (hm : ∀ e, Breaks isGlobal A m e ↔
      p ∧ e = ⟨fault, t.line, t.location⟩ ∨ p' ∧ e = ⟨fault', t.line, t.location⟩)
    (hone : p → ¬p') :
    Faults isGlobal (A ++ [m]) ((r.reportIf b t fault).reportIf b' t fault').errors := by
  cases b with
  | true =>
    have hp : p := hb.mp rfl
    cases b' with
    | true => exact absurd (hb'.mp rfl) (hone hp)
    | false => exact .fault h fun e => by simp [hm, hp, hone hp]
  | false =>
    have hp : ¬p := fun hp => by simpa using hb.mpr hp
    exact h.reportIf hb' fun e => by simp [hm, hp]

/-- There is a report if and only if some mark breaks a rule. -/
theorem ne_nil_iff {errors : List StaticError} (h : Faults isGlobal A errors) :
    errors ≠ [] ↔ ∃ before m after e, A = before ++ m :: after ∧ Breaks isGlobal before m e := by
  induction h with
  | nil => simp
  | @fault A errors m e _ hm ih =>
    simp only [ne_eq, List.append_eq_nil_iff, List.cons_ne_nil, and_false, not_false_eq_true,
      true_iff]
    exact ⟨A, m, [], e, rfl, (hm e).mpr rfl⟩
  | @clean A errors m _ hm ih =>
    rw [ih]
    constructor
    · rintro ⟨before, n, after, e, rfl, he⟩
      exact ⟨before, n, after ++ [m], e, by simp, he⟩
    · rintro ⟨before, n, after, e, hA, he⟩
      rcases concat_eq_append_cons hA with ⟨rfl, rfl, rfl⟩ | ⟨rest, rfl, rfl⟩
      · exact absurd he (hm e)
      · exact ⟨before, n, rest, e, rfl, he⟩

end Faults

theorem IsAddress.unique {name : String} {d d' : Nat} (h : IsAddress A name d)
    (h' : IsAddress A name d') : d = d' := by
  rcases Nat.lt_trichotomy d d' with hlt | rfl | hlt
  · exact absurd h.1 (h'.2 d hlt)
  · rfl
  · exact absurd h'.1 (h.2 d' hlt)

/-- A use is located at one distance at most. -/
theorem Locates.unique {d d' : Nat} (h : Locates A m id d) (h' : Locates A m id d') : d = d' := by
  obtain ⟨name, hm, hd⟩ := h.address
  obtain ⟨name', hm', hd'⟩ := h'.address
  cases hm.symm.trans hm'
  exact hd.unique hd'

/-- The nodes that the uses of an outline belong to. -/
def uses (A : List Mark) : List NodeId :=
  A.filterMap fun m => m.use?.map Prod.fst

theorem mem_uses : id ∈ uses A ↔ ∃ m ∈ A, ∃ name, m.use? = some (id, name) := by
  simp [uses]

theorem uses_append (A B : List Mark) : uses (A ++ B) = uses A ++ uses B :=
  List.filterMap_append

namespace Records

variable {D D' : Distances} {r : Resolver} {id : NodeId} {name : String}

/-- A use that is recorded. -/
theorem record (h : Records D A r.distances) (hm : m.use? = some (id, name))
    (hclass : ∀ word, m = .usesThis id word → ¬Nearest Opening.isClass A none)
    (hd : ∀ d, r.distance? name = some d ↔ IsAddress A name d) :
    Records D (A ++ [m]) (r.record id name).distances := by
  unfold Resolver.record
  cases hdist : r.distance? name with
  | some d => exact h.found ⟨⟨name, hm, (hd d).mp hdist⟩, hclass⟩
  | none =>
    refine h.missing ?_
    rintro id' d ⟨⟨name', hm', haddress⟩, -⟩
    cases hm.symm.trans hm'
    rw [(hd d).mpr haddress] at hdist
    cases hdist

/-- A mark that is no use. -/
theorem idle (h : Records D A D') (hm : m.use? = none) : Records D (A ++ [m]) D' := by
  refine h.missing ?_
  rintro id d ⟨⟨name, hm', -⟩, -⟩
  cases hm.symm.trans hm'

/-- Only uses are recorded. -/
theorem getElem?_of_notMem (h : Records D A D') (hid : id ∉ uses A) : D'[id]? = D[id]? := by
  induction h with
  | nil => rfl
  | @found A D' m id' d _ hd ih =>
    obtain ⟨name, hm, -⟩ := hd.address
    rw [uses_append, List.mem_append, not_or] at hid
    have hne : id' ≠ id := fun heq => hid.2 (mem_uses.mpr ⟨m, by simp, name, heq ▸ hm⟩)
    rw [Std.HashMap.getElem?_insert, if_neg (by simpa using hne), ih hid.1]
  | missing _ _ ih =>
    rw [uses_append, List.mem_append, not_or] at hid
    exact ih hid.1

/-- **A use gets its distance, and keeps what was there before if it has none.** -/
theorem getElem?_use (h : Records D A D') (hids : (uses A).Nodup) {before after : List Mark}
    (hA : A = before ++ m :: after) (hm : m.use? = some (id, name)) :
    (∀ d, Locates before m id d → D'[id]? = some d) ∧
      ((∀ d, ¬Locates before m id d) → D'[id]? = D[id]?) := by
  induction h generalizing after with
  | nil => simp at hA
  | @found A D' n id' d h hd ih =>
    obtain ⟨name', hn, -⟩ := hd.address
    rw [uses_append, List.nodup_append] at hids
    rcases concat_eq_append_cons hA with ⟨rfl, rfl, rfl⟩ | ⟨rest, rfl, rfl⟩
    · cases hn.symm.trans hm
      refine ⟨fun d' hd' => ?_, fun hnone => absurd hd (hnone d)⟩
      rw [Std.HashMap.getElem?_insert_self, hd.unique hd']
    · have hne : id' ≠ id := fun heq => hids.2.2 id (mem_uses.mpr ⟨m, by simp, name, hm⟩) id
        (mem_uses.mpr ⟨n, by simp, name', heq ▸ hn⟩) rfl
      rw [Std.HashMap.getElem?_insert, if_neg (by simpa using hne)]
      exact ih hids.1 rfl
  | @missing A D' n h hn ih =>
    rw [uses_append, List.nodup_append] at hids
    rcases concat_eq_append_cons hA with ⟨rfl, rfl, rfl⟩ | ⟨rest, rfl, rfl⟩
    · refine ⟨fun d hd => absurd hd (hn id d), fun _ => h.getElem?_of_notMem fun hid => ?_⟩
      exact hids.2.2 id hid id (mem_uses.mpr ⟨m, by simp, name, hm⟩) rfl
    · exact ih hids.1 rfl

end Records

end Outline

end Lox
