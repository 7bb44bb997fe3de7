import Lox.Proofs.Token.LongestMatch

/-!
# Scanning lexemes again

The lexeme of a token spells the token (`Token.SpelledBy`): its bytes are a text of one of the
forms, and that text gives the token again. Words, numbers and symbols are ASCII, so their lexemes
have the bytes of the source. A string may hold bytes that are no UTF-8. Its lexeme then has other
bytes, but neither more nor fewer quotes.

A blank after a text ends every form but the comment (`Segment.firstTail_before_blank`). So lexemes
with blanks between them are cut into those lexemes and the blanks, and give the tokens they came
from.
-/

namespace Lox

variable {text : List UInt8}

/-- The blank. -/
def Byte.blank : UInt8 := 0x20

namespace Segment

variable {b : UInt8} {f : Form} {rest : List UInt8}

/-! ## Texts before a blank -/

theorem takeWhile_before_blank {p : UInt8 → Bool} (rest : List UInt8) (hp : p Byte.blank = false)
    (h : ∀ c ∈ text, p c = true) : (text ++ Byte.blank :: rest).takeWhile p = text := by
  rw [takeWhile_append_stop hp, List.takeWhile_eq_self_iff.mpr h]

theorem fraction_before_blank {places : List UInt8} (rest : List UInt8) (hne : places ≠ [])
    (h : ∀ c ∈ places, Byte.isDigit c = true) :
    fraction (Byte.point :: (places ++ Byte.blank :: rest)) = Byte.point :: places := by
  cases places with
  | nil => exact absurd rfl hne
  | cons d ds =>
    obtain ⟨hd, hds⟩ := List.forall_mem_cons.mp h
    have htake := takeWhile_before_blank rest (p := Byte.isDigit) rfl hds
    simp [fraction, hd, htake]

theorem firstTail_symbol_before_blank {s : Symbol} {tail : List UInt8}
    (h : Utf8.encode s.text = b :: tail) (rest : List UInt8) :
    firstTail b (tail ++ Byte.blank :: rest) = (.symbol s, tail) := by
  have hspelling := s.spelling
  rw [h, List.headD_cons, List.tail_cons] at hspelling
  rcases hspelling with ⟨hb, rfl⟩ | ⟨hb, rfl⟩
  · rcases firstTail_symbol (l := Byte.blank :: rest) hb with
      ⟨-, hhead, -⟩ | ⟨t, tail, htail, hfirst⟩
    · cases hhead
    · rcases symbolTail?_eq_some htail with ⟨ht, rfl⟩ | ⟨_, _, _, _, _, hequal⟩
      · rw [hb] at ht
        cases ht
        exact hfirst
      · cases hequal
  · obtain ⟨s', hs', ht⟩ := Option.bind_eq_some_iff.mp hb
    rcases firstTail_symbol (l := Byte.equal :: Byte.blank :: rest) hs' with
      ⟨-, hhead, -⟩ | ⟨t, tail, htail, hfirst⟩
    · cases hhead
    · rw [symbolTail?_equal _ hs' ht] at htail
      cases htail
      exact hfirst

/-- **A blank ends every form but the comment.** -/
theorem firstTail_before_blank {tail : List UInt8} (h : Form.Rule f (b :: tail)) (hf : f ≠ .comment)
    (rest : List UInt8) : firstTail b (tail ++ Byte.blank :: rest) = (f, tail) := by
  generalize htext : b :: tail = text at h
  cases h with
  | blank hb =>
    cases htext
    exact firstTail_blank hb
  | newline =>
    cases htext
    rfl
  | comment => exact absurd rfl hf
  | symbol s => exact firstTail_symbol_before_blank htext.symm rest
  | @string body hbody =>
    cases htext
    rw [List.append_assoc]
    exact firstTail_string (stringTail?_append_quote _ hbody)
  | whole _ hall =>
    subst htext
    obtain ⟨hb, htail⟩ := List.forall_mem_cons.mp hall
    have hblank : ¬Byte.isDigit Byte.blank = true := by decide
    have hnone : fraction (Byte.blank :: rest) = [] := by cases rest <;> rfl
    rw [firstTail_digit hb, takeWhile_before_blank rest rfl htail,
      List.dropWhile_append_of_pos htail, List.dropWhile_cons_of_neg hblank, hnone, List.append_nil]
  | @fraction digits places hne hall hne' hall' =>
    cases digits with
    | nil => exact absurd rfl hne
    | cons d ds =>
      rw [List.cons_append] at htext
      obtain ⟨rfl, rfl⟩ := List.cons.inj htext
      obtain ⟨hb, hds⟩ := List.forall_mem_cons.mp hall
      have hpoint : ¬Byte.isDigit Byte.point = true := by decide
      rw [List.append_assoc, List.cons_append, firstTail_digit hb, List.takeWhile_append_of_pos hds,
        List.dropWhile_append_of_pos hds, List.takeWhile_cons_of_neg hpoint,
        List.dropWhile_cons_of_neg hpoint, List.append_nil, fraction_before_blank rest hne' hall']
  | word hb hall =>
    cases htext
    rw [firstTail_word hb, takeWhile_before_blank rest rfl hall]

/-- A text before a blank is a segment, and so is the blank. -/
theorem cut_before_blank (h : Form.Rule f text) (hf : f ≠ .comment) (rest : List UInt8) :
    cut (text ++ Byte.blank :: rest) = ⟨f, text⟩ :: ⟨.blank, [Byte.blank]⟩ :: cut rest := by
  obtain ⟨b, tail, rfl, -⟩ := h.first
  have hfirst := firstTail_before_blank h hf rest
  have hblank : cut (Byte.blank :: rest) = ⟨.blank, [Byte.blank]⟩ :: cut rest := by
    rw [cut]
    rfl
  rw [List.cons_append, cut, first, afterFirst, hfirst, List.drop_left, hblank]

end Segment

/-! ## Lexemes -/

/-- The lexeme of a token is a text of a form, and gives the token on the line on which it ends. -/
structure Token.SpelledBy (t : Token) (f : Form) : Prop where
  rule : Form.Rule f (Utf8.encode t.lexeme)
  gives : ∀ line, (⟨f, Utf8.encode t.lexeme⟩ : Segment).item? line =
    some (.ok { t with line := line })

namespace Utf8

variable {body : List UInt8}

/-- Quotes around a text are read as quotes, whatever the text is. -/
theorem lossy_quoted (body : List UInt8) :
    lossy (Byte.quote :: (body ++ [Byte.quote])) = "\"" ++ lossy body ++ "\"" := by
  have hclose : lossyChars none (body ++ [Byte.quote]) = lossyChars none body ++ ['"'] :=
    lossyChars_append_ascii (fun _ hp => absurd hp (by simp)) body [] (by decide)
  rw [lossy, lossyChars_ascii_cons _ (by decide), hclose, lossy]
  apply String.toList_injective
  simp only [String.toList_append, String.toList_ofList]
  rfl

theorem encode_quoted (s : String) :
    encode ("\"" ++ s ++ "\"") = Byte.quote :: (encode s ++ [Byte.quote]) := by
  have hquote : encode "\"" = [Byte.quote] := by decide +kernel
  rw [encode_append, encode_append, hquote, List.append_assoc, List.singleton_append]

theorem quote_not_mem_encode_lossy (h : Byte.quote ∉ body) : Byte.quote ∉ encode (lossy body) :=
  fun hmem => h (mem_of_mem_encode_lossy (by decide) (by decide) hmem)

end Utf8

namespace Form

theorem ascii_of_symbol (s : Symbol) : ∀ b ∈ Utf8.encode s.text, b.toNat < 0x80 := by
  cases s <;> decide +kernel

theorem ascii_of_digits {digits : List UInt8} (h : ∀ b ∈ digits, Byte.isDigit b = true) :
    ∀ b ∈ digits, b.toNat < 0x80 :=
  fun b hb => Segment.toNat_lt_of_isWordPart (by simp [Byte.isWordPart, h b hb])

/-- Only strings have bytes that are not ASCII. -/
theorem Rule.ascii {f : Form} (h : Rule f text) (hcomment : f ≠ .comment) (hstring : f ≠ .string) :
    ∀ b ∈ text, b.toNat < 0x80 := by
  cases h with
  | @blank b hb =>
    refine List.forall_mem_singleton.mpr ?_
    have hlt : b < 0x80 := by
      simp only [Byte.isBlank] at hb
      grind
    exact UInt8.lt_iff_toNat_lt.mp hlt
  | newline => exact List.forall_mem_singleton.mpr (by decide)
  | comment => exact absurd rfl hcomment
  | symbol s => exact ascii_of_symbol s
  | string => exact absurd rfl hstring
  | whole _ hall => exact ascii_of_digits hall
  | fraction _ hall _ hall' =>
    refine List.forall_mem_append.mpr
      ⟨ascii_of_digits hall, List.forall_mem_cons.mpr ⟨by decide, ?_⟩⟩
    exact ascii_of_digits hall'
  | word hb hall =>
    refine List.forall_mem_cons.mpr ⟨?_, fun b hb => Segment.toNat_lt_of_isWordPart (hall b hb)⟩
    exact Segment.toNat_lt_of_isWordPart (by simp [Byte.isWordPart, hb])

end Form

namespace Segment

variable {s : Segment} {rest : List UInt8} {line : Nat} {t : Token}

/-- A segment of a form other than the string gives the token that its lexeme spells: they have the
same bytes. -/
theorem spelledBy_of_ascii {f : Form} {bytes : List UInt8} (h : Form.Rule f bytes)
    (hstring : f ≠ .string) (hitem : item? ⟨f, bytes⟩ line = some (.ok t)) : t.SpelledBy f := by
  have hcomment : f ≠ .comment := by
    rintro rfl
    cases hitem
  have hlexeme : t.lexeme = Utf8.lossy bytes := by
    cases f <;> cases hitem <;> rfl
  have hbytes : Utf8.encode t.lexeme = bytes := by
    rw [hlexeme, Utf8.encode_lossy (h.ascii hcomment hstring)]
  constructor
  · rw [hbytes]
    exact h
  · intro line
    rw [hbytes]
    cases f <;> cases hitem <;> rfl

/-- The token of a string: its lexeme is its text between quotes. -/
theorem item?_string (body : List UInt8) (line : Nat) :
    item? ⟨.string, Byte.quote :: (body ++ [Byte.quote])⟩ line =
      some (.ok ⟨.string (Utf8.lossy body), "\"" ++ Utf8.lossy body ++ "\"", line⟩) := by
  have hbody : stringBody (Byte.quote :: (body ++ [Byte.quote])) = body := by simp [stringBody]
  simp only [item?, hbody, text, Utf8.lossy_quoted]

/-- **The lexeme of a token spells the token.** -/
theorem spelledBy_of_item? (h : s.form.MatchesAt s.bytes rest)
    (hitem : s.item? line = some (.ok t)) : t.SpelledBy s.form := by
  obtain ⟨form, bytes⟩ := s
  cases h with
  | unclosed => cases hitem
  | stray => cases hitem
  | rule h =>
    by_cases hstring : form = .string
    · subst hstring
      cases h with
      | @string body hbody =>
        rw [item?_string] at hitem
        cases hitem
        constructor
        · rw [Utf8.encode_quoted]
          exact .string (Utf8.quote_not_mem_encode_lossy hbody)
        · intro line
          rw [Utf8.encode_quoted, item?_string, Utf8.lossy_encode]
    · exact spelledBy_of_ascii h hstring hitem

/-- Only a segment that is a string gives a string, and the lexeme has the quotes. -/
theorem lexeme_of_string {text : String} (h : s.form.MatchesAt s.bytes rest)
    (hitem : s.item? line = some (.ok t)) (hkind : t.kind = .string text) :
    t.lexeme = "\"" ++ text ++ "\"" := by
  obtain ⟨form, bytes⟩ := s
  cases form with
  | string =>
    cases h with
    | rule h =>
      cases h with
      | string =>
        rw [item?_string] at hitem
        cases hitem
        cases hkind
        rfl
  | word =>
    cases hitem
    unfold wordKind at hkind
    split at hkind <;> cases hkind
  | _ => cases hitem <;> cases hkind

/-- A token of a source comes from a segment of its form. -/
theorem exists_of_mem_itemsOf {source : List UInt8} (h : .ok t ∈ itemsOf line (cut source)) :
    ∃ (s : Segment) (rest : List UInt8) (n : Nat), s.form.MatchesAt s.bytes rest ∧
      s.item? n = some (.ok t) := by
  induction source using cut.induct generalizing line with
  | case1 =>
    rw [cut] at h
    cases h
  | case2 b l ih =>
    rw [cut, itemsOf] at h
    rcases List.mem_append.mp h with hfirst | hrest
    · exact ⟨_, _, _, matchesAt_first b l, Option.mem_toList.mp hfirst⟩
    · exact ih hrest

end Segment

/-! ## Lexemes with blanks between them -/

namespace Scan

/-- What a token is, wherever it stands. -/
def content (t : Token) : Kind × String :=
  (t.kind, t.lexeme)

/-- The lexemes of tokens, each with a blank after it. -/
def spaced (tokens : List Token) : List UInt8 :=
  tokens.flatMap fun t => Utf8.encode t.lexeme ++ [Byte.blank]

/-- Lexemes give the tokens that they spell. -/
theorem items_spaced {tokens : List Token} (h : ∀ t ∈ tokens, ∃ f, t.SpelledBy f) (line : Nat) :
    ∃ again : List Token, Segment.items line (Segment.cut (spaced tokens)) = again.map .ok ∧
      again.map content = tokens.map content ++ [(.eof, "")] := by
  induction tokens generalizing line with
  | nil =>
    refine ⟨[⟨.eof, "", line⟩], ?_, rfl⟩
    rw [spaced, List.flatMap_nil, Segment.cut]
    rfl
  | cons t tokens ih =>
    obtain ⟨⟨f, ht⟩, htokens⟩ := List.forall_mem_cons.mp h
    have hcomment : f ≠ .comment := by
      rintro rfl
      cases ht.gives line
    have hcut : Segment.cut (spaced (t :: tokens)) =
        ⟨f, Utf8.encode t.lexeme⟩ :: ⟨.blank, [Byte.blank]⟩ :: Segment.cut (spaced tokens) := by
      rw [spaced, List.flatMap_cons, List.append_assoc, List.singleton_append]
      exact Segment.cut_before_blank ht.rule hcomment _
    rw [hcut, Segment.items, Segment.items, ht.gives]
    generalize line + Segment.lineEnds ⟨f, Utf8.encode t.lexeme⟩ = line'
    obtain ⟨again, hitems, hcontent⟩ := ih htokens (line' + Segment.lineEnds ⟨.blank, [Byte.blank]⟩)
    refine ⟨⟨t.kind, t.lexeme, line'⟩ :: again, ?_, congrArg (content t :: ·) hcontent⟩
    rw [hitems]
    rfl

/-- The text of the lexemes of tokens and then of the end, with blanks between them. -/
theorem encode_intercalate (tokens : List Token) (line : Nat) :
    Utf8.encode (" ".intercalate ((tokens ++ [(⟨.eof, "", line⟩ : Token)]).map Token.lexeme)) =
      spaced tokens := by
  induction tokens with
  | nil =>
    show Utf8.encode (" ".intercalate [""]) = []
    decide +kernel
  | cons t tokens ih =>
    have hblank : Utf8.encode " " = [Byte.blank] := by decide +kernel
    rw [List.cons_append, List.map_cons, String.intercalate_cons_of_ne_nil (by simp),
      Utf8.encode_append, Utf8.encode_append, ih, hblank, spaced, spaced, List.flatMap_cons]

/-- The tokens of a source are those of its segments, and then the end. -/
theorem tokens_ofSource (source : List UInt8) : (ofSource source).tokens =
    (Segment.itemsOf 1 (Segment.cut source)).filterMap token? ++
      [⟨.eof, "", 1 + Segment.lineEndsAll (Segment.cut source)⟩] := by
  rw [ofSource, tokens_ofItems, items, Segment.items_eq, List.filterMap_append]
  rfl

theorem ofItems_ok (tokens : List Token) : ofItems (tokens.map .ok) = ⟨tokens, [], false⟩ := by
  induction tokens with
  | nil => rfl
  | cons t rest ih => rw [List.map_cons, ofItems, ih, cons]

/-- The lexemes of a source, with blanks between them. -/
def lexemes (source : List UInt8) : String :=
  " ".intercalate ((ofSource source).tokens.map Token.lexeme)

/-- **Lexemes scan to themselves.** The lexemes of a source with blanks between them have no lexical
error, and their tokens are of the same kinds, with the same lexemes and values, as those of the
source. The lexeme of a string is its text between quotes. -/
theorem ofSource_lexemes (source : List UInt8) :
    (ofSource (Utf8.encode (lexemes source))).errors = [] ∧
      (ofSource (Utf8.encode (lexemes source))).tokens.map (fun t => (t.kind, t.lexeme)) =
        (ofSource source).tokens.map (fun t => (t.kind, t.lexeme)) ∧
      ∀ t ∈ (ofSource source).tokens, ∀ text, t.kind = .string text →
        t.lexeme = "\"" ++ text ++ "\"" := by
  have hof {t : Token} (ht : t ∈ (Segment.itemsOf 1 (Segment.cut source)).filterMap token?) :
      ∃ (s : Segment) (rest : List UInt8) (line : Nat),
        s.form.MatchesAt s.bytes rest ∧ s.item? line = some (.ok t) := by
    obtain ⟨item, hmem, hitem⟩ := List.mem_filterMap.mp ht
    cases item with
    | error => cases hitem
    | ok t' =>
      cases hitem
      exact Segment.exists_of_mem_itemsOf hmem
  have hspelled : ∀ t ∈ (Segment.itemsOf 1 (Segment.cut source)).filterMap token?,
      ∃ f, t.SpelledBy f := by
    intro t ht
    obtain ⟨s, rest, line, hmatch, hitem⟩ := hof ht
    exact ⟨s.form, Segment.spelledBy_of_item? hmatch hitem⟩
  obtain ⟨again, hitems, hcontent⟩ := items_spaced hspelled 1
  have hagain : ofSource (Utf8.encode (lexemes source)) = ⟨again, [], false⟩ := by
    rw [lexemes, tokens_ofSource, encode_intercalate, ofSource, items, hitems, ofItems_ok]
  refine ⟨by rw [hagain], ?_, ?_⟩
  · rw [hagain, tokens_ofSource, List.map_append]
    exact hcontent
  · intro t ht text hkind
    rw [tokens_ofSource] at ht
    rcases List.mem_append.mp ht with ht | ht
    · obtain ⟨s, rest, line, hmatch, hitem⟩ := hof ht
      exact Segment.lexeme_of_string hmatch hitem hkind
    · rw [List.mem_singleton.mp ht] at hkind
      cases hkind

end Scan

end Lox
