import Lox.Token.Scan

/-!
# Scanning line by line

No segment but a string goes on over a line end, so what comes before a line end is cut in the same
way whatever comes after it, unless it ends inside a string (`Segment.cut_append_newline`). The
items of two pieces are then those of the first, and those of the second on later lines
(`Segment.itemsOf_append`).
-/

namespace Lox

namespace Segment

variable {p : UInt8 → Bool} {x b : UInt8} {l r tail : List UInt8}

/-! ## Segments before a line end -/

theorem takeWhile_append_stop (hx : p x = false) : (l ++ x :: r).takeWhile p = l.takeWhile p := by
  induction l with
  | nil => simp [hx]
  | cons c l ih =>
    rw [List.cons_append, List.takeWhile_cons, List.takeWhile_cons, ih]

theorem dropWhile_append_stop (hx : p x = false) :
    (l ++ x :: r).dropWhile p = l.dropWhile p ++ x :: r := by
  induction l with
  | nil => simp [hx]
  | cons c l ih =>
    rw [List.cons_append, List.dropWhile_cons, List.dropWhile_cons, ih]
    split <;> rfl

theorem fraction_append_newline : fraction (l ++ Byte.newline :: r) = fraction l := by
  match l with
  | [] => cases r <;> rfl
  | [c] =>
    have hdigit : Byte.isDigit Byte.newline = false := rfl
    simp only [List.cons_append, List.nil_append, fraction, hdigit, Bool.and_false,
      Bool.false_eq_true, if_false]
  | c :: d :: l =>
    simp only [List.cons_append, fraction]
    rw [takeWhile_append_stop rfl]

theorem stringTail?_append (h : stringTail? l = some tail) : stringTail? (l ++ r) = some tail := by
  unfold stringTail? at h ⊢
  have htake : ∀ m : List UInt8, ∀ q rest, m.dropWhile (· != Byte.quote) = q :: rest →
      (m ++ r).dropWhile (· != Byte.quote) = q :: rest ++ r ∧
        (m ++ r).takeWhile (· != Byte.quote) = m.takeWhile (· != Byte.quote) := by
    intro m
    induction m with
    | nil => intro q rest hm; cases hm
    | cons c m ih =>
      intro q rest hm
      rw [List.cons_append, List.dropWhile_cons, List.takeWhile_cons, List.takeWhile_cons]
      rw [List.dropWhile_cons] at hm
      split
      · next hc =>
        rw [if_pos hc] at hm
        obtain ⟨hdrop, htake⟩ := ih q rest hm
        exact ⟨hdrop, by rw [htake]⟩
      · next hc =>
        rw [if_neg hc] at hm
        cases hm
        exact ⟨rfl, rfl⟩
  split at h
  · cases h
  · next q rest hdrop =>
    obtain ⟨hdrop', htake'⟩ := htake l q rest hdrop
    rw [hdrop', htake']
    exact h

theorem symbolTail?_append_newline : symbolTail? b (l ++ Byte.newline :: r) = symbolTail? b l := by
  unfold symbolTail?
  cases Symbol.ofByte? b with
  | none => rfl
  | some s =>
    cases l with
    | nil =>
      dsimp only [List.nil_append]
      cases s.withEqual? <;> rfl
    | cons c l =>
      dsimp only [List.cons_append]
      cases s.withEqual? <;> rfl

/-- A segment that is no unclosed string does not look past the end of its line. -/
theorem firstTail_append_newline (h : (firstTail b l).1 ≠ .unclosed) :
    firstTail b (l ++ Byte.newline :: r) = firstTail b l := by
  have hhead : ((l ++ Byte.newline :: r).head? == some Byte.slash) =
      (l.head? == some Byte.slash) := by
    cases l <;> rfl
  unfold firstTail at h ⊢
  rw [hhead, takeWhile_append_stop rfl, takeWhile_append_stop rfl, takeWhile_append_stop rfl,
    dropWhile_append_stop rfl, fraction_append_newline, symbolTail?_append_newline]
  split
  · rfl
  · split
    · rfl
    · split
      · rfl
      · split
        · cases htail : stringTail? l with
          | none => simp_all
          | some tail => rw [stringTail?_append htail]
        · rfl

theorem length_fraction_le (l : List UInt8) : (fraction l).length ≤ l.length := by
  unfold fraction
  split
  · split
    · simp only [List.length_cons]
      exact Nat.succ_le_succ (Nat.succ_le_succ (List.takeWhile_sublist _).length_le)
    · exact Nat.zero_le _
  · exact Nat.zero_le _

theorem length_stringTail?_le (h : stringTail? l = some tail) : tail.length ≤ l.length := by
  unfold stringTail? at h
  split at h
  · cases h
  · next q rest hdrop =>
    cases h
    have hparts :=
      congrArg List.length (List.takeWhile_append_dropWhile (p := (· != Byte.quote)) (l := l))
    rw [List.length_append, hdrop, List.length_cons] at hparts
    rw [List.length_append, List.length_singleton]
    omega

theorem length_symbolTail?_le {s : Symbol} (h : symbolTail? b l = some (s, tail)) :
    tail.length ≤ l.length := by
  unfold symbolTail? at h
  split at h
  · cases h
  · split at h
    · split at h <;> cases h
      · exact Nat.succ_le_succ (Nat.zero_le _)
      · exact Nat.zero_le _
    · cases h
      exact Nat.zero_le _

theorem length_firstTail_le (b : UInt8) (l : List UInt8) : (firstTail b l).2.length ≤ l.length := by
  have htake (q : UInt8 → Bool) : (l.takeWhile q).length ≤ l.length :=
    (List.takeWhile_sublist q).length_le
  unfold firstTail
  split
  · exact Nat.zero_le _
  split
  · exact Nat.zero_le _
  split
  · exact htake _
  split
  · split
    · next tail htail => exact length_stringTail?_le htail
    · exact Nat.le_refl _
  split
  · have hrest := length_fraction_le (l.dropWhile Byte.isDigit)
    have hparts : (l.takeWhile Byte.isDigit).length + (l.dropWhile Byte.isDigit).length =
        l.length := by
      rw [← List.length_append, List.takeWhile_append_dropWhile]
    rw [List.length_append]
    omega
  split
  · exact htake _
  split
  · next s tail htail => exact length_symbolTail?_le htail
  · exact Nat.zero_le _

/-- What comes before a line end is cut in the same way whatever comes after it. -/
theorem cut_append_newline (h : ∀ s ∈ cut l, s.form ≠ .unclosed) :
    cut (l ++ Byte.newline :: r) = cut l ++ cut (Byte.newline :: r) := by
  induction l using cut.induct with
  | case1 => rw [cut, List.nil_append, List.nil_append]
  | case2 b l ih =>
    rw [cut] at h
    obtain ⟨hfirst, hrest⟩ := List.forall_mem_cons.mp h
    have htail := firstTail_append_newline (r := r) hfirst
    have hafter : afterFirst b (l ++ Byte.newline :: r) = afterFirst b l ++ Byte.newline :: r := by
      rw [afterFirst, htail, List.drop_append_of_le_length (length_firstTail_le b l)]
      rfl
    have hcut : cut (b :: l) = first b l :: cut (afterFirst b l) := by rw [cut]
    rw [List.cons_append, cut, first, htail, hafter, ih hrest, hcut, List.cons_append]
    rfl

/-! ## Items -/

/-- How many lines end in segments. -/
def lineEndsAll : List Segment → Nat
  | [] => 0
  | s :: rest => s.lineEnds + lineEndsAll rest

/-- The items of segments that start on a line, without the end of the source. -/
def itemsOf (line : Nat) : List Segment → List Item
  | [] => []
  | s :: rest => (s.item? (line + s.lineEnds)).toList ++ itemsOf (line + s.lineEnds) rest

/-- The items of two pieces are those of the first, and those of the second on later lines. -/
theorem itemsOf_append (line : Nat) (as bs : List Segment) :
    itemsOf line (as ++ bs) = itemsOf line as ++ itemsOf (line + lineEndsAll as) bs := by
  induction as generalizing line with
  | nil => rfl
  | cons s rest ih =>
    rw [List.cons_append, itemsOf, ih, itemsOf, List.append_assoc, lineEndsAll, ← Nat.add_assoc]

/-- After the items of a source comes its end, on its last line. -/
theorem items_eq (line : Nat) (segments : List Segment) :
    items line segments =
      itemsOf line segments ++ [.ok ⟨.eof, "", line + lineEndsAll segments⟩] := by
  induction segments generalizing line with
  | nil => rfl
  | cons s rest ih => rw [items, ih, itemsOf, List.append_assoc, lineEndsAll, ← Nat.add_assoc]

/-- Only the end of the source ends it. -/
theorem isEof_of_mem_itemsOf {line : Nat} {segments : List Segment} {t : Token}
    (h : .ok t ∈ itemsOf line segments) : t.kind.isEof = false := by
  induction segments generalizing line with
  | nil => cases h
  | cons s rest ih =>
    rcases List.mem_append.mp h with hs | hrest
    · have hitem : s.item? (line + s.lineEnds) = some (.ok t) := Option.mem_toList.mp hs
      unfold item? at hitem
      split at hitem <;> cases hitem <;> try rfl
      unfold wordKind
      split <;> rfl
    · exact ih hrest

end Segment

/-! ## Tokens and errors -/

namespace Scan

/-- The token of an item. -/
def token? : Item → Option Token
  | .ok t => some t
  | .error _ => none

/-- The error of an item. -/
def error? : Item → Option LexError
  | .ok _ => none
  | .error e => some e

variable (items : List Item)

/-- The tokens are those of the items. -/
theorem tokens_ofItems : (ofItems items).tokens = items.filterMap token? := by
  induction items with
  | nil => rfl
  | cons item rest ih => cases item <;> simp [ofItems, cons, List.filterMap_cons, token?, ih]

/-- The errors are those of the items. -/
theorem errors_ofItems : (ofItems items).errors = items.filterMap error? := by
  induction items with
  | nil => rfl
  | cons item rest ih => cases item <;> simp [ofItems, cons, List.filterMap_cons, error?, ih]

variable {items}

/-- The tokens of a scan are those among its items. -/
theorem mem_tokens_ofItems {t : Token} : t ∈ (ofItems items).tokens ↔ .ok t ∈ items := by
  rw [tokens_ofItems, List.mem_filterMap]
  constructor
  · rintro ⟨item, hmem, h⟩
    cases item <;> cases h
    exact hmem
  · exact fun h => ⟨_, h, rfl⟩

theorem mem_errors_ofItems {e : LexError} : e ∈ (ofItems items).errors ↔ .error e ∈ items := by
  rw [errors_ofItems, List.mem_filterMap]
  constructor
  · rintro ⟨item, hmem, h⟩
    cases item <;> cases h
    exact hmem
  · exact fun h => ⟨_, h, rfl⟩

/-- Scanning notes that it has gone wrong exactly if it reports something. -/
theorem hadError_ofItems : (ofItems items).hadError = !(ofItems items).errors.isEmpty := by
  induction items with
  | nil => rfl
  | cons item rest ih => cases item <;> simp [ofItems, cons, ih]

end Scan

end Lox
