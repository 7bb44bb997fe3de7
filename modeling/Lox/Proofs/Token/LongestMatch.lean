import Lox.Proofs.Text.Utf8
import Lox.Proofs.Token.Lines

/-!
# Longest matches

The lexical rules say which texts are of a form (`Form.Rule`). A text matches at the front of a
source if it is of a form there (`Form.MatchesAt`); an open string has to reach the end of the
source, and a byte that starts no text of the rules is a form of its own.

The scanner cuts a source into longest matches (`Segment.longestAt_first`), and there is only one
way to do so (`Segment.Tiles.eq_cut`). Its items are what the segments give, each on the line on
which its segment ends (`Segment.emits_items`).

## Why the longest match is found

The first byte decides of which form a segment is, but for the slash, which may open a comment. So
`Segment.covers_first` goes through the rules, and in each case the first byte says what the scanner
does.
-/

namespace Lox

variable {tail places rest bytes : List UInt8} {f : Form} {segments : List Segment}

/-! ## Lexical rules -/

/-- The spelling of a symbol. -/
def Symbol.text : Symbol → String
  | leftParen => "("
  | rightParen => ")"
  | leftBrace => "\x7b"
  | rightBrace => "\x7d"
  | comma => ","
  | dot => "."
  | minus => "-"
  | plus => "+"
  | semicolon => ";"
  | slash => "/"
  | star => "*"
  | bang => "!"
  | bangEqual => "!="
  | equal => "="
  | equalEqual => "=="
  | greater => ">"
  | greaterEqual => ">="
  | less => "<"
  | lessEqual => "<="

namespace Form

/-- The texts of a form, wherever they stand. -/
inductive Rule : Form → List UInt8 → Prop where
  | blank {b : UInt8} (hb : Byte.isBlank b = true) : Rule .blank [b]
  | newline : Rule .newline [Byte.newline]
  | comment {text : List UInt8} (h : Byte.newline ∉ text) :
      Rule .comment (Byte.slash :: Byte.slash :: text)
  | symbol (s : Symbol) : Rule (.symbol s) (Utf8.encode s.text)
  | string {text : List UInt8} (h : Byte.quote ∉ text) :
      Rule .string (Byte.quote :: (text ++ [Byte.quote]))
  | whole {digits : List UInt8} (hne : digits ≠ []) (h : ∀ b ∈ digits, Byte.isDigit b = true) :
      Rule .number digits
  | fraction {digits places : List UInt8} (hne : digits ≠ [])
      (h : ∀ b ∈ digits, Byte.isDigit b = true) (hne' : places ≠ [])
      (h' : ∀ b ∈ places, Byte.isDigit b = true) : Rule .number (digits ++ Byte.point :: places)
  | word {b : UInt8} {rest : List UInt8} (hb : Byte.isWordStart b = true)
      (h : ∀ c ∈ rest, Byte.isWordPart c = true) : Rule .word (b :: rest)

/-- A text is of a form at the front of a source, where `rest` is what follows it. -/
inductive MatchesAt : Form → List UInt8 → List UInt8 → Prop where
  | rule {f : Form} {text rest : List UInt8} (h : Rule f text) : MatchesAt f text rest
  /-- A string without its closing quote reaches the end of the source. -/
  | unclosed {text : List UInt8} (h : Byte.quote ∉ text) :
      MatchesAt .unclosed (Byte.quote :: text) []
  /-- No text of the rules starts with the byte. -/
  | stray {b : UInt8} {rest : List UInt8} (h : ∀ f text, Rule f text → text.head? ≠ some b) :
      MatchesAt .stray [b] rest

end Form

namespace Segment

/-- A segment at the front of a source is the longest match there, and of one form only. -/
structure LongestAt (s : Segment) (rest : List UInt8) : Prop where
  fits : s.form.MatchesAt s.bytes rest
  longest : ∀ f text rest', Form.MatchesAt f text rest' → text ++ rest' = s.bytes ++ rest →
    text.length ≤ s.bytes.length
  only : ∀ f, Form.MatchesAt f s.bytes rest → f = s.form

/-- A source laid out in segments, each of them the longest match where it starts. -/
inductive Tiles : List Segment → List UInt8 → Prop where
  | nil : Tiles [] []
  | cons {s : Segment} {segments : List Segment} {rest : List UInt8} (hne : s.bytes ≠ [])
      (hs : s.LongestAt rest) (h : Tiles segments rest) : Tiles (s :: segments) (s.bytes ++ rest)

end Segment

/-! ## The first byte -/

namespace Byte

variable {b : UInt8}

/-- The classes of bytes, spelled out. -/
theorem classes (b : UInt8) :
    (isBlank b = true ↔ b ∈ Utf8.encode " \t\r") ∧
    (isDigit b = true ↔ b ∈ Utf8.encode "0123456789") ∧
    (isWordStart b = true ↔
      b ∈ Utf8.encode "ABCDEFGHIJKLMNOPQRSTUVWXYZabcdefghijklmnopqrstuvwxyz_") ∧
    (isWordPart b = true ↔ isWordStart b = true ∨ isDigit b = true) := by
  have hbytes : ∀ n < 256, (isBlank (.ofNat n) = true ↔ .ofNat n ∈ Utf8.encode " \t\r") ∧
      (isDigit (.ofNat n) = true ↔ .ofNat n ∈ Utf8.encode "0123456789") ∧
      (isWordStart (.ofNat n) = true ↔
        .ofNat n ∈ Utf8.encode "ABCDEFGHIJKLMNOPQRSTUVWXYZabcdefghijklmnopqrstuvwxyz_") := by
    simp only [Utf8.encode_eq]
    decide +kernel
  obtain ⟨hblank, hdigit, hword⟩ := hbytes b.toNat b.toNat_lt
  rw [UInt8.ofNat_toNat] at hblank hdigit hword
  exact ⟨hblank, hdigit, hword, Bool.or_eq_true_iff⟩

/-- A digit is nothing else. -/
theorem apart_of_isDigit (h : isDigit b = true) :
    isBlank b = false ∧ b ≠ newline ∧ b ≠ slash ∧ b ≠ quote := by
  simp only [isDigit, isBlank, newline, slash, quote] at *
  grind

/-- A byte that starts a word is nothing else. -/
theorem apart_of_isWordStart (h : isWordStart b = true) :
    isBlank b = false ∧ b ≠ newline ∧ b ≠ slash ∧ b ≠ quote ∧ isDigit b = false := by
  simp only [isWordStart, isDigit, isBlank, newline, slash, quote] at *
  grind

end Byte

namespace Segment

variable {b : UInt8} {l : List UInt8}

theorem firstTail_blank (h : Byte.isBlank b = true) : firstTail b l = (.blank, []) := by
  rw [firstTail, if_pos h]

theorem firstTail_comment : firstTail Byte.slash (Byte.slash :: l) =
    (.comment, Byte.slash :: l.takeWhile (· != Byte.newline)) := rfl

theorem firstTail_digit (h : Byte.isDigit b = true) : firstTail b l =
    (.number, l.takeWhile Byte.isDigit ++ fraction (l.dropWhile Byte.isDigit)) := by
  obtain ⟨hblank, hnewline, hslash, hquote⟩ := Byte.apart_of_isDigit h
  simp [firstTail, hblank, hnewline, hslash, hquote, h]

theorem firstTail_word (h : Byte.isWordStart b = true) :
    firstTail b l = (.word, l.takeWhile Byte.isWordPart) := by
  obtain ⟨hblank, hnewline, hslash, hquote, hdigit⟩ := Byte.apart_of_isWordStart h
  simp [firstTail, hblank, hnewline, hslash, hquote, hdigit, h]

theorem firstTail_string (h : stringTail? l = some tail) :
    firstTail Byte.quote l = (.string, tail) := by
  simp [firstTail, Byte.isBlank, Byte.quote, Byte.newline, Byte.slash, h]

theorem firstTail_unclosed (h : stringTail? l = none) :
    firstTail Byte.quote l = (.unclosed, l) := by
  simp [firstTail, Byte.isBlank, Byte.quote, Byte.newline, Byte.slash, h]

/-- What a byte starts that starts no other form. -/
theorem firstTail_other (hblank : Byte.isBlank b = false) (hnewline : b ≠ Byte.newline)
    (hquote : b ≠ Byte.quote) (hdigit : Byte.isDigit b = false) (hword : Byte.isWordStart b = false)
    (h : symbolTail? b l = none) : firstTail b l = (.stray, []) := by
  have hslash : b ≠ Byte.slash := by
    rintro rfl
    cases l <;> cases h
  simp [firstTail, hblank, hnewline, hquote, hdigit, hword, hslash, h]

/-! ## Strings and fractions -/

theorem stringTail?_eq_none : stringTail? l = none ↔ Byte.quote ∉ l := by
  have hdrop : l.dropWhile (· != Byte.quote) = [] ↔ Byte.quote ∉ l := by
    rw [List.dropWhile_eq_nil_iff]
    constructor
    · intro h hmem
      simpa using h _ hmem
    · intro h x hx
      simpa using fun heq : x = Byte.quote => h (heq ▸ hx)
  rw [← hdrop]
  unfold stringTail?
  split
  · next h => simp [h]
  · next h => simp [h]

theorem stringTail?_append_quote {text : List UInt8} (rest : List UInt8) (h : Byte.quote ∉ text) :
    stringTail? (text ++ Byte.quote :: rest) = some (text ++ [Byte.quote]) := by
  have hall : ∀ x ∈ text, (x != Byte.quote) = true := by
    intro x hx
    simpa using fun heq : x = Byte.quote => h (heq ▸ hx)
  rw [stringTail?, List.dropWhile_append_of_pos hall, List.takeWhile_append_of_pos hall]
  simp

/-- A string that closes has its body before the first quote. -/
theorem stringTail?_eq_some (h : stringTail? l = some tail) :
    ∃ text rest, Byte.quote ∉ text ∧ tail = text ++ [Byte.quote] ∧ l = tail ++ rest := by
  have hmem : Byte.quote ∈ l := by
    by_contra hnot
    rw [stringTail?_eq_none.mpr hnot] at h
    cases h
  obtain ⟨text, rest, rfl, htext⟩ := List.eq_append_cons_of_mem hmem
  rw [stringTail?_append_quote _ htext] at h
  cases h
  exact ⟨text, rest, htext, rfl, by simp⟩

theorem fraction_cases (l : List UInt8) : fraction l = [] ∨
    ∃ places, fraction l = Byte.point :: places ∧ places ≠ [] ∧
      (∀ b ∈ places, Byte.isDigit b = true) ∧
      fraction l <+: l := by
  unfold fraction
  split
  · next p d rest =>
    split
    · next h =>
      simp only [Bool.and_eq_true, beq_iff_eq] at h
      obtain ⟨rfl, hd⟩ := h
      refine .inr ⟨d :: rest.takeWhile Byte.isDigit, rfl, by simp, ?_, ?_⟩
      · refine List.forall_mem_cons.mpr ⟨hd, fun b hb => ?_⟩
        exact List.all_eq_true.mp List.all_takeWhile b hb
      · exact List.cons_prefix_cons.mpr
          ⟨rfl, List.cons_prefix_cons.mpr ⟨rfl, List.takeWhile_prefix _⟩⟩
    · exact .inl rfl
  · exact .inl rfl

/-- A fraction takes all digits that it can get. -/
theorem length_le_fraction (hne : places ≠ []) (h : ∀ b ∈ places, Byte.isDigit b = true) :
    places.length + 1 ≤ (fraction (Byte.point :: (places ++ rest))).length := by
  cases places with
  | nil => exact absurd rfl hne
  | cons d ps =>
    obtain ⟨hd, hps⟩ := List.forall_mem_cons.mp h
    have hfraction : fraction (Byte.point :: (d :: ps ++ rest)) =
        Byte.point :: d :: (ps ++ rest.takeWhile Byte.isDigit) := by
      rw [← List.takeWhile_append_of_pos hps]
      simp [fraction, hd]
    rw [hfraction, List.length_cons, List.length_cons, List.length_cons, List.length_append]
    omega

end Segment

/-! ## Symbols -/

namespace Symbol

variable {b : UInt8} {s t : Symbol}

theorem encode_of_ofByte? (h : ofByte? b = some s) : Utf8.encode s.text = [b] := by
  revert h
  fun_cases ofByte? b <;> rintro ⟨⟩ <;> subst_vars <;> decide +kernel

theorem encode_of_withEqual? (h : s.withEqual? = some t) :
    Utf8.encode t.text = Utf8.encode s.text ++ [Byte.equal] := by
  cases s <;> cases h <;> decide +kernel

/-- A byte that is a symbol starts no blank, line end, string, number or word. -/
theorem apart_of_ofByte? (h : ofByte? b = some s) :
    Byte.isBlank b = false ∧ b ≠ Byte.newline ∧ b ≠ Byte.quote ∧ Byte.isDigit b = false ∧
      Byte.isWordStart b = false := by
  revert h
  fun_cases ofByte? b <;> rintro ⟨⟩ <;> subst_vars <;> decide

/-- A symbol is one byte, or another symbol with an equals sign after it. -/
theorem spelling (s : Symbol) :
    (ofByte? ((Utf8.encode s.text).headD 0) = some s ∧ (Utf8.encode s.text).tail = []) ∨
      ((ofByte? ((Utf8.encode s.text).headD 0)).bind withEqual? = some s ∧
        (Utf8.encode s.text).tail = [Byte.equal]) := by
  cases s <;> decide +kernel

theorem encode_ne_nil (s : Symbol) : Utf8.encode s.text ≠ [] := by
  cases s <;> decide +kernel

end Symbol

namespace Segment

variable {b : UInt8} {l : List UInt8} {s t : Symbol}

theorem symbolTail?_eq_some (h : symbolTail? b l = some (t, tail)) :
    (Symbol.ofByte? b = some t ∧ tail = []) ∨
      ∃ s rest, Symbol.ofByte? b = some s ∧ s.withEqual? = some t ∧ tail = [Byte.equal] ∧
      l = Byte.equal :: rest := by
  unfold symbolTail? at h
  split at h
  · cases h
  · next s hs =>
    split at h
    · next ht =>
      split at h
      · next hc =>
        cases h
        obtain rfl := beq_iff_eq.mp hc
        exact .inr ⟨s, _, hs, ht, rfl, rfl⟩
      · cases h
        exact .inl ⟨hs, rfl⟩
    · cases h
      exact .inl ⟨hs, rfl⟩

theorem symbolTail?_eq_none (h : symbolTail? b l = none) : Symbol.ofByte? b = none := by
  unfold symbolTail? at h
  split at h
  · next hnone => exact hnone
  · split at h
    · split at h <;> cases h
    · cases h

theorem symbolTail?_equal (rest : List UInt8) (hs : Symbol.ofByte? b = some s)
    (ht : s.withEqual? = some t) : symbolTail? b (Byte.equal :: rest) = some (t, [Byte.equal]) := by
  simp [symbolTail?, hs, ht]

/-- What a symbol's byte starts: a comment, or the symbol, or one that is longer. -/
theorem firstTail_symbol (hs : Symbol.ofByte? b = some s) :
    (b = Byte.slash ∧ l.head? = some Byte.slash ∧
      firstTail b l = (.comment, l.takeWhile (· != Byte.newline))) ∨
      ∃ t tail, symbolTail? b l = some (t, tail) ∧ firstTail b l = (.symbol t, tail) := by
  obtain ⟨hblank, hnewline, hquote, hdigit, hword⟩ := Symbol.apart_of_ofByte? hs
  by_cases hslash : b = Byte.slash ∧ l.head? = some Byte.slash
  · obtain ⟨rfl, hhead⟩ := hslash
    refine .inl ⟨rfl, hhead, ?_⟩
    simp [firstTail, hblank, hnewline, hhead]
  · cases htail : symbolTail? b l with
    | none => rw [symbolTail?_eq_none htail] at hs; cases hs
    | some pair =>
      obtain ⟨t, tail⟩ := pair
      refine .inr ⟨t, tail, rfl, ?_⟩
      have hslash : (b == Byte.slash && l.head? == some Byte.slash) = false := by simpa using hslash
      simp [firstTail, hblank, hnewline, hquote, hdigit, hword, hslash, htail]

/-! ## The first segment is a match -/

/-- The bytes of the first segment after the first one stand at the front. -/
theorem firstTail_prefix_of (b : UInt8) (l : List UInt8) : (firstTail b l).2 <+: l := by
  unfold firstTail
  split
  · exact List.nil_prefix
  split
  · exact List.nil_prefix
  split
  · exact List.takeWhile_prefix _
  split
  · split
    · next tail htail =>
      obtain ⟨text, rest, -, rfl, hl⟩ := stringTail?_eq_some htail
      exact ⟨rest, hl.symm⟩
    · exact List.prefix_rfl
  split
  · have hfraction : fraction (l.dropWhile Byte.isDigit) <+: l.dropWhile Byte.isDigit := by
      rcases fraction_cases (l.dropWhile Byte.isDigit) with hnone | ⟨places, -, -, -, hprefix⟩
      · rw [hnone]
        exact List.nil_prefix
      · exact hprefix
    obtain ⟨rest, hrest⟩ := hfraction
    refine ⟨rest, ?_⟩
    rw [List.append_assoc, hrest, List.takeWhile_append_dropWhile]
  split
  · exact List.takeWhile_prefix _
  split
  · next s tail htail =>
    rcases symbolTail?_eq_some htail with ⟨-, rfl⟩ | ⟨s', rest, -, -, rfl, rfl⟩
    · exact List.nil_prefix
    · exact ⟨rest, rfl⟩
  · exact List.nil_prefix

/-- The first segment and what is left after it make up the source. -/
theorem first_append_afterFirst (b : UInt8) (l : List UInt8) :
    (first b l).bytes ++ afterFirst b l = b :: l := by
  have hprefix := List.prefix_iff_eq_append.mp (firstTail_prefix_of b l)
  exact congrArg (b :: ·) hprefix

end Segment

/-- What the texts of the rules start with. -/
theorem Form.Rule.first {text : List UInt8} (h : Form.Rule f text) : ∃ c rest, text = c :: rest ∧
    (Byte.isBlank c = true ∨ c = Byte.newline ∨ c = Byte.quote ∨ Byte.isDigit c = true ∨
      Byte.isWordStart c = true ∨
      Symbol.ofByte? c ≠ none) := by
  have hdigits {digits : List UInt8} (rest : List UInt8) (hne : digits ≠ [])
      (hall : ∀ b ∈ digits, Byte.isDigit b = true) :
      ∃ c rest', digits ++ rest = c :: rest' ∧ Byte.isDigit c = true := by
    cases digits with
    | nil => exact absurd rfl hne
    | cons c ds => exact ⟨c, ds ++ rest, rfl, hall c List.mem_cons_self⟩
  cases h with
  | blank hb => exact ⟨_, _, rfl, by simp [hb]⟩
  | newline => exact ⟨_, _, rfl, by simp⟩
  | comment => exact ⟨_, _, rfl, by decide⟩
  | symbol s =>
    cases hs : Utf8.encode s.text with
    | nil => exact absurd hs s.encode_ne_nil
    | cons c tail =>
      have hspelling := s.spelling
      rw [hs, List.headD_cons] at hspelling
      refine ⟨c, tail, rfl, ?_⟩
      rcases hspelling with ⟨hc, -⟩ | ⟨hc, -⟩
      · simp [hc]
      · have hsome : Symbol.ofByte? c ≠ none := fun hnone => by simp [hnone] at hc
        simp [hsome]
  | string => exact ⟨_, _, rfl, by simp⟩
  | whole hne hall =>
    obtain ⟨c, rest, heq, hc⟩ := hdigits [] hne hall
    rw [List.append_nil] at heq
    exact ⟨c, rest, heq, by simp [hc]⟩
  | fraction hne hall =>
    obtain ⟨c, rest, heq, hc⟩ := hdigits _ hne hall
    exact ⟨c, rest, heq, by simp [hc]⟩
  | word hb => exact ⟨_, _, rfl, by simp [hb]⟩

namespace Segment

variable {b : UInt8} {l : List UInt8}

/-- The first segment is of its form. -/
theorem matchesAt_first (b : UInt8) (l : List UInt8) :
    (first b l).form.MatchesAt (first b l).bytes (afterFirst b l) := by
  have hall (p : UInt8 → Bool) : ∀ c ∈ l.takeWhile p, p c = true :=
    List.all_eq_true.mp List.all_takeWhile
  by_cases hblank : Byte.isBlank b = true
  · rw [first, firstTail_blank hblank]
    exact .rule (.blank hblank)
  by_cases hnewline : b = Byte.newline
  · subst hnewline
    exact .rule .newline
  by_cases hquote : b = Byte.quote
  · subst hquote
    cases htail : stringTail? l with
    | some tail =>
      obtain ⟨text, rest, htext, rfl, -⟩ := stringTail?_eq_some htail
      rw [first, firstTail_string htail]
      exact .rule (.string htext)
    | none =>
      have hafter : afterFirst Byte.quote l = [] := by
        rw [afterFirst, firstTail_unclosed htail, List.drop_length]
      rw [first, firstTail_unclosed htail, hafter]
      exact .unclosed (stringTail?_eq_none.mp htail)
  by_cases hdigit : Byte.isDigit b = true
  · rw [first, firstTail_digit hdigit]
    have hdigits : ∀ c ∈ b :: l.takeWhile Byte.isDigit, Byte.isDigit c = true :=
      List.forall_mem_cons.mpr ⟨hdigit, hall _⟩
    rcases fraction_cases (l.dropWhile Byte.isDigit) with hnone | ⟨places, hplaces, hne, hall', -⟩
    · rw [hnone, List.append_nil]
      exact .rule (.whole (by simp) hdigits)
    · rw [hplaces]
      exact .rule (.fraction (by simp) hdigits hne hall')
  by_cases hword : Byte.isWordStart b = true
  · rw [first, firstTail_word hword]
    exact .rule (.word hword (hall _))
  cases hsymbol : Symbol.ofByte? b with
  | some s =>
    rcases firstTail_symbol (l := l) hsymbol with ⟨rfl, hhead, hfirst⟩ | ⟨t, tail, htail, hfirst⟩
    · rw [first, hfirst]
      obtain ⟨rest, rfl⟩ := List.head?_eq_some_iff.mp hhead
      refine .rule (.comment fun hmem => ?_)
      simpa using hall (· != Byte.newline) Byte.newline (List.mem_cons_of_mem _ hmem)
    · rw [first, hfirst]
      have hspelled : Utf8.encode t.text = b :: tail := by
        rcases symbolTail?_eq_some htail with ⟨ht, rfl⟩ | ⟨s', rest, hs', ht, rfl, -⟩
        · exact Symbol.encode_of_ofByte? ht
        · rw [Symbol.encode_of_withEqual? ht, Symbol.encode_of_ofByte? hs']
          rfl
      rw [← hspelled]
      exact .rule (.symbol t)
  | none =>
    have htail : symbolTail? b l = none := by rw [symbolTail?, hsymbol]
    rw [first, firstTail_other (by simpa using hblank) hnewline hquote (by simpa using hdigit)
      (by simpa using hword) htail]
    refine .stray fun f text hrule hhead => ?_
    obtain ⟨c, rest, rfl, hc⟩ := hrule.first
    cases hhead
    simp [hblank, hnewline, hquote, hdigit, hword, hsymbol] at hc

/-! ## The first segment is the longest match -/

/-- The more bytes a text takes that all satisfy a test, the more `takeWhile` takes. -/
theorem length_le_takeWhile {p : UInt8 → Bool} {text : List UInt8} (h : ∀ c ∈ text, p c = true) :
    text.length ≤ ((text ++ rest).takeWhile p).length := by
  rw [List.takeWhile_append_of_pos h, List.length_append]
  exact Nat.le_add_right _ _

/-- A match is shorter than the first segment, or it is the first segment. -/
def Covers (b : UInt8) (l : List UInt8) (f : Form) (text : List UInt8) : Prop :=
  text.length < (first b l).bytes.length ∨ text.length = (first b l).bytes.length ∧
    f = (first b l).form

theorem covers_of_le {text : List UInt8} (hform : (firstTail b l).1 = f)
    (hlength : text.length ≤ (firstTail b l).2.length) : Covers b l f (b :: text) := by
  rcases Nat.lt_or_eq_of_le hlength with hlt | heq
  · exact .inl (Nat.succ_lt_succ hlt)
  · exact .inr ⟨congrArg Nat.succ heq, hform.symm⟩

theorem covers_symbol {s : Symbol} (h : Utf8.encode s.text ++ rest = b :: l) :
    Covers b l (.symbol s) (Utf8.encode s.text) := by
  cases hs : Utf8.encode s.text with
  | nil => exact absurd hs s.encode_ne_nil
  | cons c tail =>
    have hspelling := s.spelling
    rw [hs, List.cons_append, List.cons.injEq] at h
    obtain ⟨rfl, rfl⟩ := h
    rw [hs, List.headD_cons, List.tail_cons] at hspelling
    rcases hspelling with ⟨hc, rfl⟩ | ⟨hc, rfl⟩
    · rcases firstTail_symbol hc with ⟨-, hhead, hfirst⟩ | ⟨t, tail, htail, hfirst⟩
      · obtain ⟨rest', hrest⟩ := List.head?_eq_some_iff.mp hhead
        refine .inl ?_
        rw [first, hfirst, hrest]
        simp [Byte.slash, Byte.newline]
      · rcases symbolTail?_eq_some htail with ⟨ht, rfl⟩ | ⟨s', rest', -, -, rfl, -⟩
        · rw [ht] at hc
          cases hc
          exact covers_of_le (by rw [hfirst]) (Nat.zero_le _)
        · refine .inl ?_
          rw [first, hfirst]
          simp
    · obtain ⟨s', hs', ht⟩ := Option.bind_eq_some_iff.mp hc
      have htail := symbolTail?_equal rest hs' ht
      rw [List.singleton_append]
      rcases firstTail_symbol (l := Byte.equal :: rest) hs' with
        ⟨-, hhead, -⟩ | ⟨t, tail, htail', hfirst⟩
      · cases hhead
      · rw [htail] at htail'
        cases htail'
        exact covers_of_le (by rw [hfirst]) (by rw [hfirst])

theorem covers_comment {text : List UInt8} (h : Byte.newline ∉ text) :
    Covers Byte.slash (Byte.slash :: (text ++ rest)) .comment (Byte.slash :: Byte.slash ::
      text) := by
  have hall : ∀ c ∈ text, (c != Byte.newline) = true := by
    intro c hc
    simpa using fun heq : c = Byte.newline => h (heq ▸ hc)
  refine covers_of_le rfl ?_
  rw [firstTail_comment]
  exact Nat.succ_le_succ (length_le_takeWhile hall)

theorem covers_string {text : List UInt8} (h : Byte.quote ∉ text) :
    Covers Byte.quote (text ++ Byte.quote :: rest) .string
      (Byte.quote :: (text ++ [Byte.quote])) := by
  have hfirst := firstTail_string (stringTail?_append_quote rest h)
  exact covers_of_le (by rw [hfirst]) (by rw [hfirst])

theorem covers_unclosed {text : List UInt8} (h : Byte.quote ∉ text) :
    Covers Byte.quote text .unclosed (Byte.quote :: text) := by
  have hfirst := firstTail_unclosed (stringTail?_eq_none.mpr h)
  exact covers_of_le (by rw [hfirst]) (by rw [hfirst])

theorem covers_whole {ds : List UInt8} (hb : Byte.isDigit b = true)
    (h : ∀ c ∈ ds, Byte.isDigit c = true) : Covers b (ds ++ rest) .number (b :: ds) := by
  refine covers_of_le (by rw [firstTail_digit hb]) ?_
  rw [firstTail_digit hb, List.length_append]
  exact Nat.le_trans (length_le_takeWhile h) (Nat.le_add_right _ _)

theorem covers_fraction {ds : List UInt8} (hb : Byte.isDigit b = true)
    (h : ∀ c ∈ ds, Byte.isDigit c = true) (hne : places ≠ [])
    (h' : ∀ c ∈ places, Byte.isDigit c = true) :
    Covers b (ds ++ Byte.point :: (places ++ rest)) .number
      (b :: (ds ++ Byte.point :: places)) := by
  have hpoint : ¬Byte.isDigit Byte.point = true := by decide
  refine covers_of_le (by rw [firstTail_digit hb]) ?_
  -- The digits before the point end there, so the fraction starts with the point.
  rw [firstTail_digit hb, List.takeWhile_append_of_pos h, List.dropWhile_append_of_pos h,
    List.takeWhile_cons_of_neg hpoint, List.dropWhile_cons_of_neg hpoint, List.append_nil,
    List.length_append, List.length_append, List.length_cons]
  exact Nat.add_le_add_left (length_le_fraction hne h') _

theorem covers_word {cs : List UInt8} (hb : Byte.isWordStart b = true)
    (h : ∀ c ∈ cs, Byte.isWordPart c = true) : Covers b (cs ++ rest) .word (b :: cs) := by
  refine covers_of_le (by rw [firstTail_word hb]) ?_
  rw [firstTail_word hb]
  exact length_le_takeWhile h

theorem covers_stray (h : ∀ f text, Form.Rule f text → text.head? ≠ some b) :
    Covers b l .stray [b] := by
  have hfirst := matchesAt_first b l
  have hhead : (first b l).bytes.head? = some b := rfl
  refine covers_of_le ?_ (Nat.zero_le _)
  show (first b l).form = .stray
  generalize (first b l).form = f, (first b l).bytes = text, afterFirst b l = rest at hfirst hhead
  cases hfirst with
  | rule hrule => exact absurd hhead (h f text hrule)
  | unclosed _ =>
    cases hhead
    have hempty : Form.Rule .string [Byte.quote, Byte.quote] := .string List.not_mem_nil
    exact absurd rfl (h .string _ hempty)
  | stray _ => rfl

/-- **No match at the front of a source is longer than the first segment.** -/
theorem covers_first {text : List UInt8} (h : Form.MatchesAt f text rest)
    (hl : text ++ rest = b :: l) :
    Covers b l f text := by
  cases h with
  | rule h =>
    cases h with
    | blank hb =>
      obtain ⟨rfl, -⟩ := List.cons.inj hl
      exact covers_of_le (by rw [firstTail_blank hb]) (Nat.zero_le _)
    | newline =>
      obtain ⟨rfl, -⟩ := List.cons.inj hl
      exact covers_of_le rfl (Nat.zero_le _)
    | comment hnone =>
      obtain ⟨rfl, rfl⟩ := List.cons.inj hl
      exact covers_comment hnone
    | symbol s => exact covers_symbol hl
    | string hnone =>
      rw [List.cons_append, List.append_assoc] at hl
      obtain ⟨rfl, rfl⟩ := List.cons.inj hl
      exact covers_string hnone
    | whole hne hall =>
      cases text with
      | nil => exact absurd rfl hne
      | cons d ds =>
        obtain ⟨rfl, rfl⟩ := List.cons.inj hl
        obtain ⟨hd, hds⟩ := List.forall_mem_cons.mp hall
        exact covers_whole hd hds
    | @fraction digits places hne hall hne' hall' =>
      cases digits with
      | nil => exact absurd rfl hne
      | cons d ds =>
        rw [List.append_assoc, List.cons_append] at hl
        obtain ⟨rfl, rfl⟩ := List.cons.inj hl
        obtain ⟨hd, hds⟩ := List.forall_mem_cons.mp hall
        exact covers_fraction hd hds hne' hall'
    | word hc hcs =>
      obtain ⟨rfl, rfl⟩ := List.cons.inj hl
      exact covers_word hc hcs
  | unclosed hnone =>
    rw [List.append_nil] at hl
    obtain ⟨rfl, rfl⟩ := List.cons.inj hl
    exact covers_unclosed hnone
  | stray hnone =>
    obtain ⟨rfl, rfl⟩ := List.cons.inj hl
    exact covers_stray hnone

/-! ## Tilings -/

theorem longestAt_first (b : UInt8) (l : List UInt8) : (first b l).LongestAt (afterFirst b l) where
  fits := matchesAt_first b l
  longest f text rest' h heq := by
    rw [first_append_afterFirst] at heq
    rcases covers_first h heq with hlt | ⟨hlength, -⟩
    · exact Nat.le_of_lt hlt
    · exact Nat.le_of_eq hlength
  only f h := by
    rcases covers_first h (first_append_afterFirst b l) with hlt | ⟨-, hform⟩
    · exact absurd hlt (Nat.lt_irrefl _)
    · exact hform

/-- The scanner lays a source out in longest matches. -/
theorem tiles_cut (source : List UInt8) : Tiles (cut source) source := by
  induction source using cut.induct with
  | case1 =>
    rw [cut]
    exact .nil
  | case2 b l ih =>
    rw [cut, ← first_append_afterFirst b l]
    exact .cons (List.cons_ne_nil _ _) (longestAt_first b l) ih

/-- There is only one way to lay a source out in longest matches. -/
theorem Tiles.eq_cut {source : List UInt8} (h : Tiles segments source) : segments = cut source := by
  induction h with
  | nil => rw [cut]
  | @cons s segments rest hne hs _ ih =>
    obtain ⟨form, bytes⟩ := s
    cases bytes with
    | nil => exact absurd rfl hne
    | cons b tail =>
      -- Neither is longer than the other, so the segment is the one that the scanner takes.
      have hle :=
        hs.longest _ _ _ (matchesAt_first b (tail ++ rest))
          (first_append_afterFirst b (tail ++ rest))
      rcases covers_first (b := b) (l := tail ++ rest) hs.fits rfl with hlt | ⟨hlength, hform⟩
      · exact absurd hle (Nat.not_le_of_lt hlt)
      · obtain ⟨hbytes, hrest⟩ :=
          List.append_inj (first_append_afterFirst b (tail ++ rest)) hlength.symm
        have hfirst : first b (tail ++ rest) = ⟨form, b :: tail⟩ := by
          show (⟨(first b (tail ++ rest)).form, (first b (tail ++ rest)).bytes⟩ : Segment) = _
          rw [← hform, hbytes]
        show _ = cut (b :: (tail ++ rest))
        rw [cut, hfirst, hrest, ih]

end Segment

/-! ## Items -/

/-- The kind of token that a text of a form is. -/
inductive Form.KindOf : Form → List UInt8 → Kind → Prop where
  | symbol (s : Symbol) (bytes : List UInt8) : KindOf (.symbol s) bytes (.symbol s)
  | string (text : List UInt8) :
      KindOf .string (Byte.quote :: (text ++ [Byte.quote])) (.string (Utf8.lossy text))
  | whole {digits : List UInt8} (h : ∀ b ∈ digits, Byte.isDigit b = true) :
      KindOf .number digits (.number (Number.ofDigits (Segment.digitValues digits) []))
  | fraction {digits places : List UInt8} (h : ∀ b ∈ digits, Byte.isDigit b = true) :
      KindOf .number (digits ++ Byte.point :: places)
        (.number (Number.ofDigits (Segment.digitValues digits) (Segment.digitValues places)))
  | keyword (k : Keyword) : KindOf .word (Utf8.encode k.text) (.keyword k)
  | name {bytes : List UInt8} (h : ∀ k : Keyword, bytes ≠ Utf8.encode k.text) :
      KindOf .word bytes .identifier

namespace Segment

/-- What a segment is to give, if it ends on a line. -/
inductive Gives (s : Segment) (line : Nat) : List Item → Prop where
  | nothing (h : s.form = .blank ∨ s.form = .newline ∨ s.form = .comment) : Gives s line []
  | token {kind : Kind} (h : s.form.KindOf s.bytes kind) :
      Gives s line [.ok ⟨kind, Utf8.lossy s.bytes, line⟩]
  | unclosed (h : s.form = .unclosed) : Gives s line [.error ⟨.unterminated, line⟩]
  | stray (h : s.form = .stray) : Gives s line [.error ⟨.unexpected (Utf8.lossy s.bytes), line⟩]

/-- The items of segments that follow a text: what each gives on the line on which it ends, and then
the end of the source. -/
inductive Emits : List UInt8 → List Segment → List Item → Prop where
  | nil {before : List UInt8} : Emits before [] [.ok ⟨.eof, "", 1 + before.count Byte.newline⟩]
  | cons {before : List UInt8} {s : Segment} {segments : List Segment} {given items : List Item}
      (hs : s.Gives (1 + (before ++ s.bytes).count Byte.newline) given)
      (h : Emits (before ++ s.bytes) segments items) : Emits before (s :: segments) (given ++ items)

end Segment

namespace Utf8

/-- ASCII bytes are characters of their own. -/
theorem lossyChars_ascii (h : ∀ b ∈ bytes, b.toNat < 0x80) :
    lossyChars none bytes = bytes.map fun b => Char.ofNat b.toNat := by
  induction bytes with
  | nil => rfl
  | cons b rest ih =>
    obtain ⟨hb, hrest⟩ := List.forall_mem_cons.mp h
    have hstart : start b = .char (Char.ofNat b.toNat) := by rw [start, if_pos hb]
    rw [lossyChars, advance, hstart, Start.emit, ih hrest]
    rfl

end Utf8

namespace Segment

variable {s : Segment}

theorem toNat_lt_of_isWordPart {b : UInt8} (h : Byte.isWordPart b = true) : b.toNat < 0x80 := by
  have hlt : b < 0x80 := by
    simp only [Byte.isWordPart, Byte.isWordStart, Byte.isDigit] at h
    grind
  exact UInt8.lt_iff_toNat_lt.mp hlt

/-- A word is the reserved word that it is spelled like, or else a name. -/
theorem kindOf_word (h : ∀ b ∈ bytes, Byte.isWordPart b = true) :
    Form.KindOf .word bytes (wordKind (Utf8.lossy bytes)) := by
  have hascii : ∀ b ∈ bytes, b.toNat < 0x80 := fun b hb => toNat_lt_of_isWordPart (h b hb)
  unfold wordKind
  split
  · next k hk =>
    have hfound := List.find?_some (p := fun k : Keyword => k.text == Utf8.lossy bytes) hk
    have htext : Utf8.lossy bytes = k.text := (beq_iff_eq.mp hfound).symm
    have hbytes : bytes = Utf8.encode k.text := by rw [← htext, Utf8.encode_lossy hascii]
    rw [hbytes]
    exact .keyword k
  · next hnone =>
    refine .name fun k hbytes => ?_
    have hk := List.find?_eq_none.mp hnone k (by cases k <;> decide)
    rw [hbytes, Utf8.lossy_encode] at hk
    simp at hk

theorem numberValue_whole {digits : List UInt8} (h : ∀ b ∈ digits, Byte.isDigit b = true) :
    numberValue digits = Number.ofDigits (digitValues digits) [] := by
  rw [numberValue, List.takeWhile_eq_self_iff.mpr h, List.dropWhile_eq_nil_iff.mpr h]
  rfl

theorem numberValue_fraction {digits : List UInt8} (h : ∀ b ∈ digits, Byte.isDigit b = true) :
    numberValue (digits ++ Byte.point :: places) =
      Number.ofDigits (digitValues digits) (digitValues places) := by
  have hpoint : ¬Byte.isDigit Byte.point = true := by decide
  rw [numberValue, List.takeWhile_append_of_pos h, List.dropWhile_append_of_pos h,
    List.takeWhile_cons_of_neg hpoint, List.dropWhile_cons_of_neg hpoint, List.append_nil]
  rfl

/-- A segment that is of its form gives what it is to give. -/
theorem gives_item? (h : s.form.MatchesAt s.bytes rest) (line : Nat) :
    s.Gives line (s.item? line).toList := by
  obtain ⟨form, bytes⟩ := s
  cases h with
  | rule h =>
    cases h with
    | blank => exact .nothing (.inl rfl)
    | newline => exact .nothing (.inr (.inl rfl))
    | comment => exact .nothing (.inr (.inr rfl))
    | symbol t => exact .token (.symbol t _)
    | @string text =>
      have hbody : stringBody (Byte.quote :: (text ++ [Byte.quote])) = text := by simp [stringBody]
      show Gives ⟨.string, Byte.quote :: (text ++ [Byte.quote])⟩ line
        [.ok ⟨.string (Utf8.lossy (stringBody (Byte.quote :: (text ++ [Byte.quote])))), _, line⟩]
      rw [hbody]
      exact .token (.string text)
    | whole _ hall =>
      show Gives ⟨.number, bytes⟩ line [.ok ⟨.number (numberValue bytes), _, line⟩]
      rw [numberValue_whole hall]
      exact .token (.whole hall)
    | @fraction digits places _ hall =>
      show Gives ⟨.number, digits ++ Byte.point :: places⟩ line
        [.ok ⟨.number (numberValue (digits ++ Byte.point :: places)), _, line⟩]
      rw [numberValue_fraction hall]
      exact .token (.fraction hall)
    | word hb hall =>
      exact .token (kindOf_word (List.forall_mem_cons.mpr ⟨by simp [Byte.isWordPart, hb], hall⟩))
  | unclosed => exact .unclosed rfl
  | stray => exact .stray rfl

/-- No segment holds a line end but a line end and a string. -/
theorem lineEnds_eq_count (h : s.form.MatchesAt s.bytes rest) :
    s.lineEnds = s.bytes.count Byte.newline := by
  obtain ⟨form, bytes⟩ := s
  have hzero {l : List UInt8} (hl : Byte.newline ∉ l) : 0 = l.count Byte.newline :=
    (List.count_eq_zero_of_not_mem hl).symm
  have hdigits {digits : List UInt8} (hall : ∀ b ∈ digits, Byte.isDigit b = true) :
      Byte.newline ∉ digits :=
    fun hmem => nomatch hall _ hmem
  cases h with
  | rule h =>
    cases h with
    | blank hb =>
      refine hzero fun hmem => ?_
      rw [← List.mem_singleton.mp hmem] at hb
      cases hb
    | newline | string => rfl
    | comment hnone => exact hzero (by simpa [Byte.slash, Byte.newline] using hnone)
    | symbol t =>
      refine hzero fun hmem => ?_
      revert hmem
      cases t <;> decide +kernel
    | whole _ hall => exact hzero (hdigits hall)
    | fraction _ hall _ hall' =>
      refine hzero fun hmem => ?_
      rcases List.mem_append.mp hmem with hmem | hmem
      · exact hdigits hall hmem
      · rcases List.mem_cons.mp hmem with heq | hmem
        · cases heq
        · exact hdigits hall' hmem
    | word hb hall =>
      refine hzero fun hmem => ?_
      rcases List.mem_cons.mp hmem with rfl | hmem
      · cases hb
      · cases hall _ hmem
  | unclosed => rfl
  | stray hnone =>
    refine hzero fun hmem => ?_
    exact hnone _ _ .newline (congrArg some (List.mem_singleton.mp hmem))

/-- The items of a source laid out in segments. -/
theorem emits_items {source : List UInt8} (h : Tiles segments source) (before : List UInt8) :
    Emits before segments (items (1 + before.count Byte.newline) segments) := by
  induction h generalizing before with
  | nil => exact .nil
  | @cons s segments rest _ hs _ ih =>
    have hline : 1 + before.count Byte.newline + s.lineEnds =
        1 + (before ++ s.bytes).count Byte.newline := by
      rw [List.count_append, lineEnds_eq_count hs.fits, Nat.add_assoc]
    rw [items, hline]
    exact .cons (gives_item? hs.fits _) (ih _)

end Segment

/-- **The scanner is the longest-match lexer of its rules, and loses nothing.** Every source is laid
out, in one way only, in segments without gaps, each of them the longest match where it starts and
of one form only. The items of the source are what the segments give in order: nothing for blanks,
line ends and comments, one error for an open string or a stray byte, and one token for everything
else, each on the line on which its segment ends. After them comes the end of the source, on its
last line, and nothing else. -/
theorem Scan.items_by_longest_match (source : List UInt8) : ∃ segments : List Segment,
    Segment.Tiles segments source ∧ (∀ others, Segment.Tiles others source → others = segments) ∧
      Segment.Emits [] segments (Scan.items source) :=
  ⟨Segment.cut source, Segment.tiles_cut source, fun _ h => h.eq_cut,
    Segment.emits_items (Segment.tiles_cut source) []⟩

namespace Scan

/-- The source `ifs>=="or` and, on the next line, `"12.5.x // no`. -/
def mixed : List UInt8 :=
  "ifs>==\"or\n\"12.5.x // no".toUTF8.toList

/-- A word that starts like a reserved one, a symbol of two characters before one of one, a string
over two lines, a number before a point that is not part of it, and a comment. -/
def mixedSegments : List Segment :=
  [⟨.word, Utf8.encode "ifs"⟩, ⟨.symbol .greaterEqual, Utf8.encode ">="⟩,
    ⟨.symbol .equal, Utf8.encode "="⟩, ⟨.string, Utf8.encode "\"or\n\""⟩,
    ⟨.number, Utf8.encode "12.5"⟩, ⟨.symbol .dot, Utf8.encode "."⟩, ⟨.word, Utf8.encode "x"⟩,
    ⟨.blank, Utf8.encode " "⟩, ⟨.comment, Utf8.encode "// no"⟩]

/-- These are the longest matches, and each gives the token that it should. -/
theorem mixed_by_longest_match :
    Segment.Tiles mixedSegments mixed ∧ Segment.Emits [] mixedSegments (Scan.items mixed) ∧
    Scan.items mixed = [.ok ⟨.identifier, "ifs", 1⟩, .ok ⟨.symbol .greaterEqual, ">=", 1⟩,
      .ok ⟨.symbol .equal, "=", 1⟩, .ok ⟨.string "or\n", "\"or\n\"", 2⟩,
      .ok ⟨.number 12.5, "12.5", 2⟩, .ok ⟨.symbol .dot, ".", 2⟩, .ok ⟨.identifier, "x", 2⟩,
      .ok ⟨.eof, "", 2⟩] := by
  obtain ⟨segments, htiles, hunique, hemits⟩ := items_by_longest_match mixed
  have hcut : Segment.cut mixed = mixedSegments := by
    rw [show mixed = _ from Utf8.encode_eq _]
    simp only [mixedSegments, Utf8.encode_eq]
    cbv
  obtain rfl : mixedSegments = segments := hcut ▸ hunique _ (Segment.tiles_cut mixed)
  refine ⟨htiles, hemits, ?_⟩
  have hnumber : Segment.numberValue (Utf8.encode "12.5") = 12.5 := by
    rw [Utf8.encode_eq]
    rfl
  have hstring : Segment.stringBody (Utf8.encode "\"or\n\"") = Utf8.encode "or\n" := by
    simp only [Utf8.encode_eq]
    rfl
  have hlines : (Utf8.encode "\"or\n\"").count Byte.newline = 1 := by
    rw [Utf8.encode_eq]
    rfl
  have hwords : Segment.wordKind "ifs" = .identifier ∧ Segment.wordKind "x" = .identifier :=
    ⟨rfl, rfl⟩
  rw [Scan.items, hcut]
  simp [mixedSegments, Segment.items, Segment.item?, Segment.text, Segment.lineEnds,
    Utf8.lossy_encode, hnumber, hstring, hlines, hwords]

end Scan

end Lox
