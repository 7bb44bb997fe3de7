import Lox.Proofs.Token.LongestMatch

/-!
# Sources joined at a line end

A source that ends with a line end and in which every string is closed can be followed by any other
source. The segments of both together are those of the first and then those of the second
(`Segment.cut_append`), because no segment but an open string goes on over a line end. The items of
the second come on later lines, by as many as end in the first (`Scan.items_joined_at_line_end`).
-/

namespace Lox

/-- The item on a line further down. -/
def Item.later (n : Nat) : Item → Item
  | .ok t => .ok { t with line := t.line + n }
  | .error e => .error { e with line := e.line + n }

namespace Segment

variable {b : UInt8} {l : List UInt8}

/-! ## Open strings -/

/-- A string is open if no quote follows the first one. -/
theorem form_firstTail_unclosed :
    (firstTail b l).1 = .unclosed ↔ b = Byte.quote ∧ Byte.quote ∉ l := by
  constructor
  · intro h
    have hbytes := first_append_afterFirst b l
    have hmatch := matchesAt_first b l
    rw [show (first b l).form = .unclosed from h] at hmatch
    generalize (first b l).bytes = text, afterFirst b l = rest at hmatch hbytes
    cases hmatch with
    | rule hrule => cases hrule
    | unclosed hquote =>
      rw [List.append_nil] at hbytes
      obtain ⟨rfl, rfl⟩ := List.cons.inj hbytes
      exact ⟨rfl, hquote⟩
  · rintro ⟨rfl, hquote⟩
    rw [firstTail_unclosed (stringTail?_eq_none.mpr hquote)]

/-- A line end does not close a string. -/
theorem unclosed_append_newline (h : ∃ s ∈ cut l, s.form = .unclosed) :
    ∃ s ∈ cut (l ++ [Byte.newline]), s.form = .unclosed := by
  induction l using cut.induct with
  | case1 =>
    obtain ⟨s, hs, -⟩ := h
    rw [cut] at hs
    cases hs
  | case2 b l ih =>
    rw [List.cons_append, cut]
    by_cases hopen : (firstTail b l).1 = .unclosed
    · obtain ⟨rfl, hquote⟩ := form_firstTail_unclosed.mp hopen
      refine ⟨_, List.mem_cons_self, form_firstTail_unclosed.mpr ⟨rfl, ?_⟩⟩
      simpa [Byte.quote, Byte.newline] using hquote
    · -- The first segment is the same in both, so the open string comes later.
      obtain ⟨s, hs, hform⟩ := h
      rw [cut] at hs
      rcases List.mem_cons.mp hs with rfl | hs
      · exact absurd hform hopen
      · obtain ⟨s', hs', hform'⟩ := ih ⟨s, hs, hform⟩
        refine ⟨s', List.mem_cons_of_mem _ ?_, hform'⟩
        rw [afterFirst, firstTail_append_newline hopen,
          List.drop_append_of_le_length (length_firstTail_le b l)]
        exact hs'

/-- **What follows a line end is cut on its own**, if no string before it is open. -/
theorem cut_append {source rest : List UInt8} (hend : source.getLast? = some Byte.newline)
    (hclosed : ∀ s ∈ cut source, s.form ≠ .unclosed) :
    cut (source ++ rest) = cut source ++ cut rest := by
  obtain ⟨l, rfl⟩ := List.getLast?_eq_some_iff.mp hend
  have hl : ∀ s ∈ cut l, s.form ≠ .unclosed := by
    intro s hs hform
    obtain ⟨s', hs', hform'⟩ := unclosed_append_newline ⟨s, hs, hform⟩
    exact hclosed s' hs' hform'
  have hnewline (m : List UInt8) : cut (Byte.newline :: m) =
      ⟨.newline, [Byte.newline]⟩ :: cut m := by
    rw [cut]
    rfl
  rw [List.append_assoc, List.singleton_append, cut_append_newline hl, cut_append_newline hl,
    hnewline, hnewline, cut, List.append_assoc, List.singleton_append]

/-! ## Lines -/

/-- The line ends of a source are those of its segments. -/
theorem lineEndsAll_cut (source : List UInt8) :
    lineEndsAll (cut source) = source.count Byte.newline := by
  induction source using cut.induct with
  | case1 =>
    rw [cut]
    rfl
  | case2 b l ih =>
    rw [cut, lineEndsAll, ih, lineEnds_eq_count (matchesAt_first b l), ← List.count_append,
      first_append_afterFirst]

theorem item?_add (s : Segment) (line n : Nat) :
    s.item? (line + n) = (s.item? line).map (Item.later n) := by
  unfold item?
  cases s.form <;> rfl

/-- The items of segments that start further down are on later lines. -/
theorem items_add (line n : Nat) (segments : List Segment) :
    items (line + n) segments = (items line segments).map (Item.later n) := by
  induction segments generalizing line with
  | nil => rfl
  | cons s rest ih =>
    rw [items, items, List.map_append, Nat.add_right_comm, item?_add, ih, Option.toList_map]

/-- The items of two pieces are those of the first without the end, and those of the second where
the first ends. -/
theorem items_append (line : Nat) (as bs : List Segment) :
    items line (as ++ bs) = itemsOf line as ++ items (line + lineEndsAll as) bs := by
  induction as generalizing line with
  | nil => rfl
  | cons s rest ih =>
    rw [List.cons_append, items, ih, itemsOf, List.append_assoc, lineEndsAll, ← Nat.add_assoc]

/-- An open string is an error. -/
theorem unterminated_of_mem {s : Segment} {segments : List Segment} (hs : s ∈ segments)
    (hform : s.form = .unclosed) (line : Nat) :
    ∃ n, .error ⟨.unterminated, n⟩ ∈ items line segments := by
  induction segments generalizing line with
  | nil => cases hs
  | cons t rest ih =>
    rw [items]
    rcases List.mem_cons.mp hs with rfl | hs
    · refine ⟨line + s.lineEnds, List.mem_append_left _ ?_⟩
      rw [item?, hform]
      exact List.mem_cons_self
    · obtain ⟨n, hn⟩ := ih hs (line + t.lineEnds)
      exact ⟨n, List.mem_append_right _ hn⟩

end Segment

namespace Scan

/-- **Scanning goes line by line.** If a source ends with a line end and has no open string, then
the items of the source and what follows it are the items of the source without the end, and after
them the items of what follows, on lines further down by as many as end in the source. -/
theorem items_joined_at_line_end {source : List UInt8} (hend : source.getLast? = some Byte.newline)
    (hclosed : ∀ e ∈ (Scan.ofSource source).errors, e.fault.message ≠ "Unterminated string.")
    (rest : List UInt8) :
    ∃ given, items source = given ++ [.ok ⟨.eof, "", 1 + source.count Byte.newline⟩] ∧
      items (source ++ rest) =
        given ++ (items rest).map (Item.later (source.count Byte.newline)) := by
  have hforms : ∀ s ∈ Segment.cut source, s.form ≠ .unclosed := by
    intro s hs hform
    obtain ⟨n, hn⟩ := Segment.unterminated_of_mem hs hform 1
    exact hclosed _ (mem_errors_ofItems.mpr hn) rfl
  refine ⟨Segment.itemsOf 1 (Segment.cut source), ?_, ?_⟩
  · rw [items, Segment.items_eq, Segment.lineEndsAll_cut]
  · rw [items, Segment.cut_append hend hforms, Segment.items_append, Segment.items_add,
      Segment.lineEndsAll_cut]
    rfl

/-- A string over two lines, a stray byte, a number before a point, and a quote in a comment. -/
def untidyLines : List UInt8 :=
  Utf8.encode "print \"a\nb\" @ 1. // \"c\n"

/-- A string that is open does not reach back. -/
theorem untidyLines_before_open_string : ∃ given,
    items untidyLines = given ++ [.ok ⟨.eof, "", 3⟩] ∧
      items (untidyLines ++ Utf8.encode "d\n\"e") =
        given ++ [.ok ⟨.identifier, "d", 3⟩, .error ⟨.unterminated, 4⟩, .ok ⟨.eof, "", 4⟩] := by
  have hend : untidyLines.getLast? = some Byte.newline := by decide +kernel
  have hclosed : ∀ e ∈ (Scan.ofSource untidyLines).errors, e.fault.message ≠
      "Unterminated string." := by
    decide +kernel
  have hcount : untidyLines.count Byte.newline = 2 := by decide +kernel
  have hcut : Segment.cut (Utf8.encode "d\n\"e") =
      [⟨.word, [100]⟩, ⟨.newline, [10]⟩, ⟨.unclosed, [34, 101]⟩] := by
    decide +kernel
  have hrest : items (Utf8.encode "d\n\"e") =
      [.ok ⟨.identifier, "d", 1⟩, .error ⟨.unterminated, 2⟩, .ok ⟨.eof, "", 2⟩] := by
    rw [items, hcut]
    rfl
  obtain ⟨given, hgiven, hjoined⟩ := items_joined_at_line_end hend hclosed (Utf8.encode "d\n\"e")
  rw [hcount] at hgiven hjoined
  rw [hrest] at hjoined
  exact ⟨given, hgiven, hjoined⟩

end Scan

end Lox
