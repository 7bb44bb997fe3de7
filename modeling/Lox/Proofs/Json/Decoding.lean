import Lox.Json.Basic
import Lox.Proofs.Number.Texts
import Lox.Proofs.Text.Delimiting

/-!
# JSON texts show their values

The two ways to write JSON differ in what stands between the parts. `Json.write` writes both: a
layout says what comes after a key and before an item. If all numbers are finite then the text shows
the value, in either layout (`Json.shows_write`): strings end at the first quote that is not
escaped, the others at brackets, or at the first character that no number has. So no two values have
the same text (`Json.compact_injective`, `Json.pretty_injective`).
-/

namespace Lox

namespace Json

variable {c : Char} {r r' : List Char} {j j' : Json} {depth : Nat}

/-! ## Strings -/

/-- The value of a hexadecimal digit. -/
def hexValue (c : Char) : Nat :=
  if c.isDigit then c.toNat - 0x30 else c.toNat - 0x57

/-- Reading a hexadecimal digit undoes writing it. -/
theorem hexValue_hexDigit {n : Nat} (h : n < 16) : hexValue (hexDigit n) = n := by
  have hall : ∀ k ∈ List.range 16, hexValue (hexDigit k) = k := by decide
  exact hall n (List.mem_range.mpr h)

/-- The character that stands for a control character behind a backslash. -/
def unescapeLetter (c : Char) : Char :=
  if c = 'n' then '\n'
  else if c = 'r' then '\r'
  else if c = 't' then '\t'
  else if c = 'b' then '\x08'
  else if c = 'f' then '\x0c'
  else c

/-- The first character of what stands in a JSON string, and what follows it. -/
def unescape : List Char → Option (Char × List Char)
  | '\\' :: 'u' :: _ :: _ :: high :: low :: rest =>
    some (Char.ofNat (16 * hexValue high + hexValue low), rest)
  | '\\' :: c :: rest => some (unescapeLetter c, rest)
  | c :: rest => some (c, rest)
  | [] => none

/-- A character other than the backslash stands for itself. -/
theorem unescape_of_ne (h : c ≠ '\\') (rest : List Char) :
    unescape (c :: rest) = some (c, rest) := by
  unfold unescape
  split
  · next heq =>
    cases heq
    exact absurd rfl h
  · next heq =>
    cases heq
    exact absurd rfl h
  · next heq =>
    cases heq
    rfl
  · next heq => cases heq

/-- Each character is read back from the text that stands for it. -/
theorem unescape_escape (c : Char) (rest : List Char) :
    unescape ((escape c).toList ++ rest) = some (c, rest) := by
  unfold escape
  by_cases hquote : c = '"'
  · subst hquote
    rfl
  by_cases hslash : c = '\\'
  · subst hslash
    rfl
  by_cases hnewline : c = '\n'
  · subst hnewline
    rfl
  by_cases hreturn : c = '\r'
  · subst hreturn
    rfl
  by_cases htab : c = '\t'
  · subst htab
    rfl
  by_cases hback : c = '\x08'
  · subst hback
    rfl
  by_cases hfeed : c = '\x0c'
  · subst hfeed
    rfl
  rw [if_neg hquote, if_neg hslash, if_neg hnewline, if_neg hreturn, if_neg htab, if_neg hback,
    if_neg hfeed]
  split
  · next hcontrol =>
    simp only [String.toList_append, String.toList_ofList]
    change some
      (Char.ofNat (16 * hexValue (hexDigit (c.toNat / 16)) + hexValue (hexDigit (c.toNat % 16))),
        rest) = _
    rw [hexValue_hexDigit (by omega), hexValue_hexDigit (by omega), Nat.div_add_mod,
      Char.ofNat_toNat]
  · rw [String.toList_singleton]
    exact unescape_of_ne hslash rest

/-- What a character is written as never starts with a quote. -/
theorem escape_append_ne (c : Char) (t rest : List Char) :
    (escape c).toList ++ t ≠ '"' :: rest := by
  intro h
  have hread := unescape_escape c t
  rw [h, unescape_of_ne (by decide)] at hread
  cases hread
  cases h

theorem toList_quote (s : String) :
    (quote s).toList = '"' :: (s.toList.flatMap fun c => (escape c).toList) ++ ['"'] := by
  simp [quote, List.flatMap_map]

/-- Strings end at the first quote that is not escaped. -/
theorem escaped_unique {cs cs' : List Char}
    (h : (cs.flatMap fun c => (escape c).toList) ++ '"' :: r =
      (cs'.flatMap fun c => (escape c).toList) ++ '"' :: r') :
    cs = cs' ∧ r = r' := by
  induction cs generalizing cs' with
  | nil =>
    cases cs' with
    | nil => exact ⟨rfl, (List.cons.inj h).2⟩
    | cons c' cs' =>
      rw [List.flatMap_cons, List.append_assoc] at h
      exact absurd h.symm (escape_append_ne c' _ _)
  | cons c cs ih =>
    cases cs' with
    | nil =>
      rw [List.flatMap_cons, List.append_assoc] at h
      exact absurd h (escape_append_ne c _ _)
    | cons c' cs' =>
      rw [List.flatMap_cons, List.flatMap_cons, List.append_assoc, List.append_assoc] at h
      have hread := congrArg unescape h
      rw [unescape_escape, unescape_escape] at hread
      obtain ⟨rfl, htail⟩ := Prod.mk.inj (Option.some.inj hread)
      obtain ⟨rfl, rfl⟩ := ih htail
      exact ⟨rfl, rfl⟩

/-- Where a quoted text ends, and what it quotes, can be told from what follows. -/
theorem quote_unique {s s' : String} (h : (quote s).toList ++ r = (quote s').toList ++ r') :
    s = s' ∧ r = r' := by
  rw [toList_quote, toList_quote] at h
  simp only [List.cons_append, List.append_assoc, List.nil_append, List.cons.injEq, true_and] at h
  obtain ⟨hchars, hrest⟩ := escaped_unique h
  exact ⟨String.toList_inj.mp hchars, hrest⟩

/-! ## Layouts -/

/-- What stands after a key, and before an item or a closing bracket at a depth. -/
structure Layout where
  colon : List Char
  line : Nat → List Char
  blank : ∀ depth, ∀ c ∈ line depth, c = '\n' ∨ c = ' '

namespace Layout

/-- All on one line, without blanks. -/
def compact : Layout where
  colon := [':']
  line _ := []
  blank _ _ hc := by cases hc

/-- Each item on a line of its own. -/
def pretty : Layout where
  colon := [':', ' ']
  line depth := '\n' :: List.replicate (2 * depth) ' '
  blank depth c hc := by
    rcases List.mem_cons.mp hc with rfl | hc
    · exact .inl rfl
    · exact .inr (List.eq_of_mem_replicate hc)

variable (L : Layout)

/-- The texts of items up to the closing bracket. -/
def upTo (closing : Char) (depth : Nat) : List (List Char) → List Char
  | [] => [closing]
  | t :: rest =>
    L.line (depth + 1) ++ t ++ (rest.flatMap fun u => ',' :: L.line (depth + 1) ++ u) ++
      (L.line depth ++ [closing])

end Layout

mutual

/-- The text in a layout, at a depth. -/
def write (L : Layout) (depth : Nat) : Json → List Char
  | .null => "null".toList
  | .nat n => (Nat.repr n).toList
  | .number x => (numeral x).toList
  | .string s => (quote s).toList
  | .array items => '[' :: L.upTo ']' depth (writeItems L (depth + 1) items)
  | .object fields => '\x7b' :: L.upTo '\x7d' depth (writeFields L (depth + 1) fields)

/-- The texts of the items of an array. -/
def writeItems (L : Layout) (depth : Nat) : List Json → List (List Char)
  | [] => []
  | j :: rest => write L depth j :: writeItems L depth rest

/-- The text of a field. -/
def writeField (L : Layout) (depth : Nat) : Field → List Char
  | .mk key value => (quote key).toList ++ L.colon ++ write L depth value

/-- The texts of the fields of an object. -/
def writeFields (L : Layout) (depth : Nat) : List Field → List (List Char)
  | [] => []
  | f :: rest => writeField L depth f :: writeFields L depth rest

end

theorem writeItems_eq (L : Layout) (depth : Nat) (items : List Json) :
    writeItems L depth items = items.map (write L depth) := by
  induction items with
  | nil => rfl
  | cons j rest ih => rw [writeItems, ih, List.map_cons]

theorem writeFields_eq (L : Layout) (depth : Nat) (fields : List Field) :
    writeFields L depth fields = fields.map (writeField L depth) := by
  induction fields with
  | nil => rfl
  | cons f rest ih => rw [writeFields, ih, List.map_cons]

/-! ## The two layouts -/

theorem upTo_compact (closing : Char) (depth : Nat) (texts : List String) :
    Layout.compact.upTo closing depth (texts.map String.toList) =
      (",".intercalate texts).toList ++ [closing] := by
  cases texts with
  | nil => rfl
  | cons t rest =>
    rw [String.toList_intercalate, List.map_cons, intercalate_cons]
    simp [Layout.upTo, Layout.compact]

mutual

/-- The compact text of a value is that of the compact layout. -/
theorem toList_compact (depth : Nat) : ∀ j : Json, (compact j).toList = write .compact depth j
  | .null => rfl
  | .nat _ => rfl
  | .number _ => rfl
  | .string _ => rfl
  | .array items => by
    rw [compact, write, ← toList_compactItems (depth + 1) items, upTo_compact]
    simp
  | .object fields => by
    rw [compact, write, ← toList_compactFields (depth + 1) fields, upTo_compact]
    simp

theorem toList_compactItems (depth : Nat) : ∀ items : List Json,
    (compactItems items).map String.toList = writeItems .compact depth items
  | [] => rfl
  | j :: rest => by
    rw [compactItems, writeItems, List.map_cons, toList_compact depth j,
      toList_compactItems depth rest]

theorem toList_compactField (depth : Nat) :
    ∀ f : Field, (compactField f).toList = writeField .compact depth f
  | .mk key value => by
    rw [compactField, writeField, String.toList_append, String.toList_append,
      toList_compact depth value]
    rfl

theorem toList_compactFields (depth : Nat) : ∀ fields : List Field,
    (compactFields fields).map String.toList = writeFields .compact depth fields
  | [] => rfl
  | f :: rest => by
    rw [compactFields, writeFields, List.map_cons, toList_compactField depth f,
      toList_compactFields depth rest]

end

theorem toList_indentation (depth : Nat) :
    '\n' :: (indentation depth).toList = Layout.pretty.line depth := by
  simp [indentation, Layout.pretty]

theorem toList_lines (opening closing : Char) (depth : Nat) (texts : List String) :
    (lines (.singleton opening) (.singleton closing) depth texts).toList =
      opening :: Layout.pretty.upTo closing depth (texts.map String.toList) := by
  cases texts with
  | nil => simp [lines, Layout.upTo]
  | cons t rest =>
    rw [lines, if_neg (by simp)]
    simp only [String.toList_append, String.toList_intercalate, List.map_cons, List.map_map,
      intercalate_cons]
    simp [Layout.upTo, ← toList_indentation, List.flatMap_map]

mutual

/-- The pretty text of a value is that of the pretty layout. -/
theorem toList_prettyAt :
    ∀ (depth : Nat) (j : Json), (prettyAt depth j).toList = write .pretty depth j
  | _, .null => rfl
  | _, .nat _ => rfl
  | _, .number _ => rfl
  | _, .string _ => rfl
  | depth, .array items => by
    rw [prettyAt, write, ← toList_prettyItems (depth + 1) items]
    exact toList_lines '[' ']' depth _
  | depth, .object fields => by
    rw [prettyAt, write, ← toList_prettyFields (depth + 1) fields]
    exact toList_lines '\x7b' '\x7d' depth _

theorem toList_prettyItems : ∀ (depth : Nat) (items : List Json),
    (prettyItems depth items).map String.toList = writeItems .pretty depth items
  | _, [] => rfl
  | depth, j :: rest => by
    rw [prettyItems, writeItems, List.map_cons, toList_prettyAt depth j,
      toList_prettyItems depth rest]

theorem toList_prettyField :
    ∀ (depth : Nat) (f : Field), (prettyField depth f).toList = writeField .pretty depth f
  | depth, .mk key value => by
    rw [prettyField, writeField, String.toList_append, String.toList_append,
      toList_prettyAt depth value]
    rfl

theorem toList_prettyFields : ∀ (depth : Nat) (fields : List Field),
    (prettyFields depth fields).map String.toList = writeFields .pretty depth fields
  | _, [] => rfl
  | depth, f :: rest => by
    rw [prettyFields, writeFields, List.map_cons, toList_prettyField depth f,
      toList_prettyFields depth rest]

end

/-! ## Values with finite numbers -/

mutual

/-- All numbers of a value are finite. -/
def Finite : Json → Prop
  | .number x => Number.IsFinite x
  | .array items => FiniteItems items
  | .object fields => FiniteFields fields
  | _ => True

/-- All numbers of some values are finite. -/
def FiniteItems : List Json → Prop
  | [] => True
  | j :: rest => Finite j ∧ FiniteItems rest

/-- All numbers of a field are finite. -/
def FiniteField : Field → Prop
  | .mk _ value => Finite value

/-- All numbers of some fields are finite. -/
def FiniteFields : List Field → Prop
  | [] => True
  | f :: rest => FiniteField f ∧ FiniteFields rest

end

theorem finiteItems_iff {items : List Json} : FiniteItems items ↔ ∀ j ∈ items, j.Finite := by
  induction items with
  | nil => simp [FiniteItems]
  | cons j rest ih => rw [FiniteItems, ih, List.forall_mem_cons]

theorem finiteFields_iff {fields : List Field} :
    FiniteFields fields ↔ ∀ f ∈ fields, FiniteField f := by
  induction fields with
  | nil => simp [FiniteFields]
  | cons f rest ih => rw [FiniteFields, ih, List.forall_mem_cons]

/-! ## First characters -/

/-- What the first character of a text tells about the value. -/
inductive Shape where
  | null
  | number
  | string
  | array
  | object

/-- The shape of a value. -/
def shape : Json → Shape
  | .null => .null
  | .nat _ => .number
  | .number _ => .number
  | .string _ => .string
  | .array _ => .array
  | .object _ => .object

/-- The shape of the values whose texts begin with a character. -/
def shapeOf? (c : Char) : Option Shape :=
  if c = 'n' then some .null
  else if c = '"' then some .string
  else if c = '[' then some .array
  else if c = '\x7b' then some .object
  else if c.isDigit || c == '.' || c == 'e' || c == '+' || c == '-' then some .number
  else none

theorem shapeOf?_of_isNumeric (h : Number.IsNumeric c) : shapeOf? c = some .number := by
  rcases h with hdigit | rfl | rfl | rfl | rfl
  · have hne {d : Char} (hd : d.isDigit = false) : c ≠ d := by
      rintro rfl
      rw [hdigit] at hd
      cases hd
    simp [shapeOf?, hne, hdigit]
  all_goals rfl

/-- A finite number is written as a numeral of it. -/
theorem isNumeral_numeral {x : Float} (hx : Number.IsFinite x) :
    Number.IsNumeral (numeral x).toList x := by
  obtain ⟨t, ht, hnumeral⟩ := Number.isNumeral_json? hx
  rw [numeral, ht, Option.getD_some]
  exact hnumeral

theorem isNumeric_repr (n : Nat) : ∀ c ∈ (Nat.repr n).toList, Number.IsNumeric c := by
  intro c hc
  rw [Nat.toList_repr] at hc
  exact .inl (Number.allDigits_toDigits n c hc)

/-- A text begins with a character that tells the shape of the value. -/
theorem write_eq_cons (L : Layout) (depth : Nat) (hj : j.Finite) :
    ∃ c t, write L depth j = c :: t ∧ shapeOf? c = some j.shape := by
  cases j with
  | null => exact ⟨'n', _, rfl, rfl⟩
  | nat n =>
    obtain ⟨c, t, ht⟩ := List.exists_cons_of_ne_nil (Nat.toDigits_ne_nil (n := n) (b := 10))
    rw [← Nat.toList_repr] at ht
    exact ⟨c, t, ht, shapeOf?_of_isNumeric (isNumeric_repr n c (ht ▸ List.mem_cons_self))⟩
  | number x =>
    have hnumeral := isNumeral_numeral hj
    cases ht : (numeral x).toList with
    | nil =>
      rw [ht] at hnumeral
      rcases hnumeral.marked with hpoint | hexponent
      · cases hpoint
      · cases hexponent
    | cons c t =>
      exact ⟨c, t, ht, shapeOf?_of_isNumeric (hnumeral.chars c (ht ▸ List.mem_cons_self))⟩
  | string s => exact ⟨'"', _, toList_quote s, rfl⟩
  | array items => exact ⟨'[', _, rfl, rfl⟩
  | object fields => exact ⟨'\x7b', _, rfl, rfl⟩

/-- The first character tells which shape a value has. -/
theorem shape_eq_of_append_eq {L : Layout} (hj : j.Finite) (hj' : j'.Finite)
    (h : write L depth j ++ r = write L depth j' ++ r') : j.shape = j'.shape := by
  obtain ⟨c, t, ht, hc⟩ := write_eq_cons L depth hj
  obtain ⟨c', t', ht', hc'⟩ := write_eq_cons L depth hj'
  rw [ht, ht'] at h
  obtain ⟨rfl, -⟩ := List.cons.inj h
  exact Option.some.inj (hc.symm.trans hc')

/-! ## Lists between brackets -/

/-- What no number has in it stops a text. -/
def NotNumeric (c : Char) : Prop :=
  ¬Number.IsNumeric c

theorem notNumeric_of_shapeOf? (h : shapeOf? c = none) : NotNumeric c := by
  intro hnumeric
  rw [shapeOf?_of_isNumeric hnumeric] at h
  cases h

namespace Layout

variable {L : Layout} {closing : Char}

/-- Blanks come first, or else what stands behind them. -/
theorem line_append_eq_cons {d : Char} {t u : List Char} (h : L.line depth ++ d :: t = c :: u) :
    (c = '\n' ∨ c = ' ') ∨ c = d := by
  cases hline : L.line depth with
  | nil =>
    rw [hline] at h
    exact .inr (List.cons.inj h).1.symm
  | cons b bs =>
    rw [hline] at h
    obtain ⟨rfl, -⟩ := List.cons.inj h
    exact .inl (L.blank depth b (hline ▸ List.mem_cons_self))

theorem stops_line (hclosing : NotNumeric closing) (depth : Nat) (t : List Char) :
    Stops NotNumeric (L.line depth ++ closing :: t) := by
  intro c u h
  rcases line_append_eq_cons h with (rfl | rfl) | rfl
  · exact notNumeric_of_shapeOf? rfl
  · exact notNumeric_of_shapeOf? rfl
  · exact hclosing

/-- The items of a list, up to and with the closing bracket. -/
theorem upTo_cons_append (depth : Nat) (t : List Char) (rest : List (List Char)) (r : List Char) :
    L.upTo closing depth (t :: rest) ++ r = L.line (depth + 1) ++ (t ++
      ((rest.flatMap fun u => ',' :: L.line (depth + 1) ++ u) ++
        (L.line depth ++ [closing] ++ r))) := by
  simp [upTo]

/-- A list between brackets shows its items and where it ends. -/
theorem upTo_unique {α : Type} {P : α → Prop} {write : α → List Char}
    (hclosing : shapeOf? closing = none) (hblank : ¬(closing = '\n' ∨ closing = ' '))
    (hcomma : closing ≠ ',') (hfirst : ∀ a, P a → ∃ c t, write a = c :: t ∧ c ≠ closing)
    {items items' : List α} (hitems : ∀ a ∈ items, Shows NotNumeric P write a)
    (hP : ∀ a ∈ items, P a) (hP' : ∀ a ∈ items', P a)
    (h : L.upTo closing depth (items.map write) ++ r =
      L.upTo closing depth (items'.map write) ++ r') :
    items = items' ∧ r = r' := by
  have hsep (t : List Char) : Stops NotNumeric (',' :: L.line (depth + 1) ++ t) :=
    stops_cons (notNumeric_of_shapeOf? rfl) _
  have hfin (t : List Char) : Stops NotNumeric (L.line depth ++ [closing] ++ t) := by
    rw [List.append_assoc]
    exact stops_line (notNumeric_of_shapeOf? hclosing) depth t
  have hne (t t' : List Char) : ',' :: L.line (depth + 1) ++ t ≠
      L.line depth ++ [closing] ++ t' := by
    intro heq
    rw [List.append_assoc] at heq
    rcases line_append_eq_cons heq.symm with (hc | hc) | hc
    · cases hc
    · cases hc
    · exact hcomma hc.symm
  -- A closing bracket right after the opening one is not the beginning of an item.
  have hempty {a : α} (ha : P a) (t u : List Char) : [closing] ++ t ≠
      L.line (depth + 1) ++ (write a ++ u) := by
    intro heq
    obtain ⟨c, t', ht, hc⟩ := hfirst a ha
    rw [ht] at heq
    rcases line_append_eq_cons heq.symm with hc' | hc'
    · exact hblank hc'
    · exact hc hc'.symm
  cases items with
  | nil =>
    cases items' with
    | nil => exact ⟨rfl, List.append_cancel_left h⟩
    | cons a' rest' =>
      rw [List.map_cons, upTo_cons_append] at h
      exact absurd h (hempty (hP' a' List.mem_cons_self) _ _)
  | cons a rest =>
    obtain ⟨hshows, hitems⟩ := List.forall_mem_cons.mp hitems
    obtain ⟨ha, hP⟩ := List.forall_mem_cons.mp hP
    cases items' with
    | nil =>
      rw [List.map_cons, upTo_cons_append] at h
      exact absurd h.symm (hempty ha _ _)
    | cons a' rest' =>
      obtain ⟨ha', htail⟩ := List.forall_mem_cons.mp hP'
      rw [List.map_cons, List.map_cons, upTo_cons_append, upTo_cons_append, List.flatMap_map,
        List.flatMap_map] at h
      obtain ⟨rfl, hrest⟩ := hshows a' _ _ ha ha' (Shows.stops_list hsep hfin rest r)
        (Shows.stops_list hsep hfin rest' r') (List.append_cancel_left h)
      obtain ⟨rfl, rfl⟩ := Shows.list hsep hfin hne hitems hP htail hrest
      exact ⟨rfl, rfl⟩

end Layout

/-! ## Values -/

/-- Natural numbers have no point and no exponent. -/
theorem repr_ne_numeral {n : Nat} {x : Float} (hx : Number.IsFinite x) :
    (Nat.repr n).toList ≠ (numeral x).toList := by
  intro h
  have hmarked := (isNumeral_numeral hx).marked
  rw [← h, Nat.toList_repr] at hmarked
  rcases hmarked with hpoint | hexponent
  · exact Number.not_mem_of_allDigits (Number.allDigits_toDigits n) rfl hpoint
  · exact Number.not_mem_of_allDigits (Number.allDigits_toDigits n) rfl hexponent

theorem writeField_eq_cons (L : Layout) (depth : Nat) (f : Field) :
    ∃ t, writeField L depth f = '"' :: t := by
  obtain ⟨key, value⟩ := f
  rw [writeField, toList_quote]
  exact ⟨_, rfl⟩

/-- Texts of numbers end at the first character that no number has. -/
theorem numeric_unique {t t' : List Char} (ht : ∀ c ∈ t, Number.IsNumeric c)
    (ht' : ∀ c ∈ t', Number.IsNumeric c) (hr : Stops NotNumeric r) (hr' : Stops NotNumeric r')
    (h : t ++ r = t' ++ r') : t = t' ∧ r = r' :=
  eq_of_append_eq (fun c hc hn => hn (ht c hc)) (fun c hc hn => hn (ht' c hc)) hr hr' h

mutual

/-- **The text of a value shows the value**, if all its numbers are finite. -/
theorem shows_write (L : Layout) :
    ∀ (j : Json) (depth : Nat), Shows NotNumeric Finite (write L depth) j
  | .null, depth => by
    intro j' r r' hj hj' hr hr' h
    have hshape := shape_eq_of_append_eq hj hj' h
    cases j' with
    | null => exact ⟨rfl, List.append_cancel_left h⟩
    | _ => cases hshape
  | .nat n, depth => by
    intro j' r r' hj hj' hr hr' h
    have hshape := shape_eq_of_append_eq hj hj' h
    cases j' with
    | nat n' =>
      obtain ⟨heq, hrest⟩ := numeric_unique (isNumeric_repr n) (isNumeric_repr n') hr hr' h
      have hnat := congrArg (fun cs => Nat.ofDigitChars 10 cs 0) heq
      simp only [Nat.toList_repr, Nat.ofDigitChars_ten_toDigits] at hnat
      exact ⟨congrArg Json.nat hnat, hrest⟩
    | number x =>
      obtain ⟨heq, -⟩ := numeric_unique (isNumeric_repr n) (isNumeral_numeral hj').chars hr hr' h
      exact absurd heq (repr_ne_numeral hj')
    | _ => cases hshape
  | .number x, depth => by
    intro j' r r' hj hj' hr hr' h
    have hshape := shape_eq_of_append_eq hj hj' h
    have hx := isNumeral_numeral hj
    cases j' with
    | nat n =>
      obtain ⟨heq, -⟩ := numeric_unique hx.chars (isNumeric_repr n) hr hr' h
      exact absurd heq.symm (repr_ne_numeral hj)
    | number x' =>
      have hx' := isNumeral_numeral hj'
      obtain ⟨heq, hrest⟩ := numeric_unique hx.chars hx'.chars hr hr' h
      rw [← heq] at hx'
      exact ⟨congrArg Json.number (hx.standsFor.unique hx'.standsFor), hrest⟩
    | _ => cases hshape
  | .string s, depth => by
    intro j' r r' hj hj' hr hr' h
    have hshape := shape_eq_of_append_eq hj hj' h
    cases j' with
    | string s' =>
      obtain ⟨rfl, hrest⟩ := quote_unique h
      exact ⟨rfl, hrest⟩
    | _ => cases hshape
  | .array items, depth => by
    intro j' r r' hj hj' hr hr' h
    have hshape := shape_eq_of_append_eq hj hj' h
    cases j' with
    | array items' =>
      simp only [write, writeItems_eq, List.cons_append, List.cons.injEq, true_and] at h
      have hfirst (j : Json) (hj : j.Finite) : ∃ c t, write L (depth + 1) j = c :: t ∧ c ≠ ']' := by
        obtain ⟨c, t, ht, hc⟩ := write_eq_cons L (depth + 1) hj
        refine ⟨c, t, ht, ?_⟩
        rintro rfl
        cases hc
      obtain ⟨rfl, hrest⟩ := Layout.upTo_unique rfl (by decide) (by decide) hfirst
        (fun j hmem => shows_writeItems L items j hmem (depth + 1)) (finiteItems_iff.mp hj)
        (finiteItems_iff.mp hj') h
      exact ⟨rfl, hrest⟩
    | _ => cases hshape
  | .object fields, depth => by
    intro j' r r' hj hj' hr hr' h
    have hshape := shape_eq_of_append_eq hj hj' h
    cases j' with
    | object fields' =>
      simp only [write, writeFields_eq, List.cons_append, List.cons.injEq, true_and] at h
      have hfirst (f : Field) (_ : FiniteField f) : ∃ c t, writeField L (depth + 1) f = c :: t ∧
          c ≠ '\x7d' := by
        obtain ⟨t, ht⟩ := writeField_eq_cons L (depth + 1) f
        exact ⟨'"', t, ht, by decide⟩
      obtain ⟨rfl, hrest⟩ := Layout.upTo_unique rfl (by decide) (by decide) hfirst
        (fun f hmem => shows_writeFields L fields f hmem (depth + 1)) (finiteFields_iff.mp hj)
        (finiteFields_iff.mp hj') h
      exact ⟨rfl, hrest⟩
    | _ => cases hshape

theorem shows_writeItems (L : Layout) : ∀ (items : List Json), ∀ j ∈ items, ∀ depth : Nat,
    Shows NotNumeric Finite (write L depth) j
  | [], _, hmem, _ => by cases hmem
  | j :: rest, j', hmem, depth => by
    rcases List.mem_cons.mp hmem with heq | hmem
    · rw [heq]
      exact shows_write L j depth
    · exact shows_writeItems L rest j' hmem depth

theorem shows_writeField (L : Layout) :
    ∀ (f : Field) (depth : Nat), Shows NotNumeric FiniteField (writeField L depth) f
  | .mk key value, depth => by
    rintro ⟨key', value'⟩ r r' hf hf' hr hr' h
    simp only [writeField, List.append_assoc] at h
    obtain ⟨rfl, hvalue⟩ := quote_unique h
    obtain ⟨rfl, hrest⟩ :=
      shows_write L value depth value' r r' hf hf' hr hr' (List.append_cancel_left hvalue)
    exact ⟨rfl, hrest⟩

theorem shows_writeFields (L : Layout) : ∀ (fields : List Field), ∀ f ∈ fields, ∀ depth : Nat,
    Shows NotNumeric FiniteField (writeField L depth) f
  | [], _, hmem, _ => by cases hmem
  | f :: rest, f', hmem, depth => by
    rcases List.mem_cons.mp hmem with heq | hmem
    · rw [heq]
      exact shows_writeField L f depth
    · exact shows_writeFields L rest f' hmem depth

end

/-- In either layout, different values have different texts. -/
theorem write_injective (L : Layout) (depth : Nat) (hj : j.Finite) (hj' : j'.Finite)
    (h : write L depth j = write L depth j') : j = j' := by
  have happend : write L depth j ++ [] = write L depth j' ++ [] := by rw [h]
  exact (shows_write L j depth j' [] [] hj hj' stops_nil stops_nil happend).1

/-- Different values have different compact texts. -/
theorem compact_injective (hj : j.Finite) (hj' : j'.Finite) (h : j.compact = j'.compact) :
    j = j' := by
  apply write_injective .compact 0 hj hj'
  rw [← toList_compact, ← toList_compact, h]

/-- Different values have different pretty texts. -/
theorem pretty_injective (hj : j.Finite) (hj' : j'.Finite) (h : j.pretty = j'.pretty) : j = j' := by
  apply write_injective .pretty 0 hj hj'
  rw [← toList_prettyAt, ← toList_prettyAt]
  exact congrArg String.toList h

end Json

end Lox
