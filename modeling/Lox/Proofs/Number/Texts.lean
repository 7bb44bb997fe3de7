import Lox.Proofs.Number.Rounding

/-!
# Texts of numbers read back

`Number.read` says what a decimal text stands for: a sign, digits with at most one point, and an
exponent after `e`. Whatever way a decimal is written, its text stands for it
(`Decimal.fixed_positional`, `Decimal.fixed_withPoint`, `Decimal.read_scientific`).

So the texts of finite doubles stand for numbers that round to them, and no two doubles have the
same text, in JSON (`Number.isNumeral_json?`) or in trees (`Number.standsFor_inTree`).
-/

namespace Lox

variable {cs : List Char} {p : Char} {q : ℚ}

namespace Number

/-! ## Reading -/

/-- The number that digits with at most one point stand for. -/
def readFixed (cs : List Char) : ℚ :=
  let places := (cs.dropWhile (· != '.')).drop 1
  Nat.ofDigitChars 10 (cs.takeWhile (· != '.') ++ places) 0 / 10 ^ places.length

/-- The exponent that digits after an optional sign stand for. Nothing stands for zero. -/
def readExponent : List Char → Int
  | '-' :: cs => -(Nat.ofDigitChars 10 cs 0 : Int)
  | '+' :: cs => Nat.ofDigitChars 10 cs 0
  | cs => Nat.ofDigitChars 10 cs 0

/-- The number that a text without a sign stands for. -/
def readUnsigned (cs : List Char) : ℚ :=
  readFixed (cs.takeWhile (· != 'e')) * 10 ^ readExponent ((cs.dropWhile (· != 'e')).drop 1)

/-- The sign and the absolute value of the number that a text stands for. -/
def read : List Char → Bool × ℚ
  | '-' :: cs => (true, readUnsigned cs)
  | cs => (false, readUnsigned cs)

/-- A list of digits. -/
def AllDigits (cs : List Char) : Prop :=
  ∀ c ∈ cs, c.isDigit = true

section

variable {ds es : List Char}

theorem allDigits_append : AllDigits (ds ++ es) ↔ AllDigits ds ∧ AllDigits es :=
  List.forall_mem_append

theorem allDigits_toDigits (n : Nat) : AllDigits (Nat.toDigits 10 n) :=
  fun _ hc => Nat.isDigit_of_mem_toDigits (by decide) (by decide) hc

theorem allDigits_replicate (n : Nat) : AllDigits (List.replicate n '0') := by
  intro c hc
  rw [List.eq_of_mem_replicate hc]
  rfl

theorem bne_of_not_mem (h : p ∉ cs) : ∀ c ∈ cs, (c != p) = true := by
  intro c hc
  have hne : c ≠ p := by
    rintro rfl
    exact h hc
  simpa using hne

theorem takeWhile_of_not_mem (h : p ∉ cs) :
    cs.takeWhile (· != p) = cs ∧ cs.dropWhile (· != p) = [] :=
  ⟨List.takeWhile_eq_self_iff.mpr (bne_of_not_mem h),
    List.dropWhile_eq_nil_iff.mpr (bne_of_not_mem h)⟩

theorem takeWhile_append (h : p ∉ cs) (rest : List Char) :
    (cs ++ p :: rest).takeWhile (· != p) = cs ∧
      (cs ++ p :: rest).dropWhile (· != p) = p :: rest := by
  rw [List.takeWhile_append_of_pos (bne_of_not_mem h),
    List.dropWhile_append_of_pos (bne_of_not_mem h)]
  simp

/-- There are only digits among digits. -/
theorem not_mem_of_allDigits (h : AllDigits ds) (hp : p.isDigit = false) : p ∉ ds := by
  intro hmem
  rw [h p hmem] at hp
  cases hp

/-- Without a point, digits stand for a natural number. -/
theorem readFixed_digits (h : AllDigits ds) : readFixed ds = Nat.ofDigitChars 10 ds 0 := by
  obtain ⟨htake, hdrop⟩ := takeWhile_of_not_mem (not_mem_of_allDigits h (p := '.') rfl)
  simp [readFixed, htake, hdrop]

/-- Digits behind a point stand for fractions. -/
theorem readFixed_point (h : AllDigits ds) (es : List Char) :
    readFixed (ds ++ '.' :: es) = Nat.ofDigitChars 10 (ds ++ es) 0 / 10 ^ es.length := by
  obtain ⟨htake, hdrop⟩ := takeWhile_append (not_mem_of_allDigits h (p := '.') rfl) es
  simp [readFixed, htake, hdrop]

/-- A text without an exponent. -/
theorem readUnsigned_fixed (h : 'e' ∉ cs) : readUnsigned cs = readFixed cs := by
  obtain ⟨htake, hdrop⟩ := takeWhile_of_not_mem h
  simp [readUnsigned, htake, hdrop, readExponent]

/-- A text with an exponent. -/
theorem readUnsigned_exponent (h : 'e' ∉ cs) (es : List Char) :
    readUnsigned (cs ++ 'e' :: es) = readFixed cs * 10 ^ readExponent es := by
  obtain ⟨htake, hdrop⟩ := takeWhile_append h es
  simp [readUnsigned, htake, hdrop]

theorem read_of_ne {c : Char} (hc : c ≠ '-') (cs : List Char) :
    read (c :: cs) = (false, readUnsigned (c :: cs)) := by
  unfold read
  split
  · next heq =>
    cases heq
    exact absurd rfl hc
  · rfl

theorem readUnsigned_of_read (h : read cs = (false, q)) : readUnsigned cs = q := by
  unfold read at h
  split at h
  · cases h
  · exact congrArg Prod.snd h

/-- A sign in front decides about the sign only. -/
theorem read_sign (h : read cs = (false, q)) (s : Bool) :
    read ((sign s).toList ++ cs) = (s, q) := by
  cases s with
  | false => exact h
  | true => exact congrArg (Prod.mk true) (readUnsigned_of_read h)

end

end Number

/-! ## Decimals -/

namespace Decimal

open Number (AllDigits allDigits_append allDigits_toDigits allDigits_replicate not_mem_of_allDigits)

variable (d : Decimal)

theorem toList_text : d.text.toList = Nat.toDigits 10 d.digits :=
  Nat.toList_repr

theorem ofDigitChars_text : Nat.ofDigitChars 10 d.text.toList 0 = d.digits := by
  rw [toList_text, Nat.ofDigitChars_ten_toDigits]

theorem allDigits_text : AllDigits d.text.toList :=
  d.toList_text ▸ allDigits_toDigits d.digits

theorem text_ne_nil : d.text.toList ≠ [] := by
  rw [toList_text]
  exact Nat.toDigits_ne_nil

theorem toList_zeros (n : Nat) : (zeros n).toList = List.replicate n '0' := by
  simp [zeros]

variable {d}

/-- A text of digits with at most one point, and the number that it stands for. -/
structure Fixed (cs : List Char) (q : ℚ) : Prop where
  ne_nil : cs ≠ []
  chars : ∀ c ∈ cs, c.isDigit = true ∨ c = '.'
  value : Number.readFixed cs = q

namespace Fixed

variable {cs : List Char} {q : ℚ}

theorem not_mem (h : Fixed cs q) (hp : p.isDigit = false) (hpoint : p ≠ '.') : p ∉ cs := by
  intro hmem
  rcases h.chars p hmem with hdigit | heq
  · rw [hdigit] at hp
    cases hp
  · exact hpoint heq

theorem read_append (h : Fixed cs q) (rest : List Char) :
    Number.read (cs ++ rest) = (false, Number.readUnsigned (cs ++ rest)) := by
  obtain ⟨c, cs, rfl⟩ := List.exists_cons_of_ne_nil h.ne_nil
  apply Number.read_of_ne
  rintro rfl
  exact h.not_mem rfl (by decide) List.mem_cons_self

theorem read (h : Fixed cs q) : Number.read cs = (false, q) := by
  have hread := h.read_append []
  rw [List.append_nil, Number.readUnsigned_fixed (h.not_mem rfl (by decide)), h.value] at hread
  exact hread

theorem read_exponent (h : Fixed cs q) (es : List Char) :
    Number.read (cs ++ 'e' :: es) = (false, q * 10 ^ Number.readExponent es) := by
  rw [h.read_append, Number.readUnsigned_exponent (h.not_mem rfl (by decide)), h.value]

end Fixed

/-- Digits stand for the number that they spell. -/
theorem fixed_digits {ds : List Char} (h : AllDigits ds) (hne : ds ≠ []) :
    Fixed ds (Nat.ofDigitChars 10 ds 0) :=
  ⟨hne, fun c hc => .inl (h c hc), Number.readFixed_digits h⟩

/-- Digits with a point stand for a decimal fraction. -/
theorem fixed_point {ds es : List Char} (h : AllDigits ds) (hne : ds ≠ []) (hes : AllDigits es) :
    Fixed (ds ++ '.' :: es) (Nat.ofDigitChars 10 (ds ++ es) 0 / 10 ^ es.length) where
  ne_nil := List.append_ne_nil_of_left_ne_nil hne _
  chars c hc := by
    rcases List.mem_append.mp hc with hc | hc
    · exact .inl (h c hc)
    · rcases List.mem_cons.mp hc with rfl | hc
      · exact .inr rfl
      · exact .inl (hes c hc)
  value := Number.readFixed_point h es

/-- Exponents that are not negative are zeros before the point. -/
theorem ofDigitChars_zeros (h : 0 ≤ d.exponent) :
    (Nat.ofDigitChars 10 (d.text.toList ++ List.replicate d.exponent.toNat '0') 0 : ℚ) =
      d.toRat := by
  rw [Nat.ofDigitChars_append, ofDigitChars_text, Nat.ofDigitChars_replicate_zero, toRat]
  push_cast
  rw [← zpow_natCast, Int.toNat_of_nonneg h]
  ring

theorem toRat_of_places {n : Nat} (h : d.exponent < 0) (hn : (-d.exponent).toNat = n) :
    d.toRat = d.digits / 10 ^ n := by
  have hexp : d.exponent = -(n : Int) := by omega
  rw [toRat, hexp, zpow_neg, zpow_natCast, div_eq_mul_inv]

/-- The text of a decimal in positional notation stands for it. -/
theorem fixed_positional (d : Decimal) : Fixed d.positional.toList d.toRat := by
  unfold positional
  split
  · next h =>
    have hdigits : AllDigits (d.text.toList ++ List.replicate d.exponent.toNat '0') :=
      allDigits_append.mpr ⟨d.allDigits_text, allDigits_replicate _⟩
    have hfixed := fixed_digits hdigits (List.append_ne_nil_of_left_ne_nil d.text_ne_nil _)
    rw [ofDigitChars_zeros h] at hfixed
    simpa [toList_zeros] using hfixed
  · next h =>
    have hneg : d.exponent < 0 := by omega
    dsimp only
    split
    · next hlt =>
      have hdigits := d.allDigits_text
      rw [← List.take_append_drop (d.text.toList.length - (-d.exponent).toNat) d.text.toList]
        at hdigits
      obtain ⟨hwhole, hplaces⟩ := allDigits_append.mp hdigits
      have hne : d.text.toList.take (d.text.toList.length - (-d.exponent).toNat) ≠ [] := by
        rw [← List.length_pos_iff, List.length_take]
        omega
      have hfixed := fixed_point hwhole hne hplaces
      have hlength : (d.text.toList.drop (d.text.toList.length - (-d.exponent).toNat)).length =
          (-d.exponent).toNat := by
        rw [List.length_drop]
        omega
      rw [List.take_append_drop, ofDigitChars_text, hlength, ← toRat_of_places hneg rfl] at hfixed
      simpa using hfixed
    · next hge =>
      have hplaces : AllDigits (List.replicate ((-d.exponent).toNat - d.text.toList.length) '0' ++
          d.text.toList) :=
        allDigits_append.mpr ⟨allDigits_replicate _, d.allDigits_text⟩
      have hfixed := fixed_point (allDigits_replicate 1) (by simp) hplaces
      have hlength : (List.replicate ((-d.exponent).toNat - d.text.toList.length) '0' ++
          d.text.toList).length = (-d.exponent).toNat := by
        rw [List.length_append, List.length_replicate]
        omega
      have hvalue : Nat.ofDigitChars 10 (List.replicate 1 '0' ++
          (List.replicate ((-d.exponent).toNat - d.text.toList.length) '0' ++ d.text.toList)) 0 =
          d.digits := by
        rw [Nat.ofDigitChars_append, Nat.ofDigitChars_append, Nat.ofDigitChars_replicate_zero,
          Nat.ofDigitChars_replicate_zero, Nat.mul_zero, ofDigitChars_text]
      rw [hvalue, hlength, ← toRat_of_places hneg rfl] at hfixed
      simpa [toList_zeros] using hfixed

/-- So does the text with a point after an integer. -/
theorem fixed_withPoint (d : Decimal) : Fixed d.withPoint.toList d.toRat := by
  unfold withPoint
  split
  · next h =>
    have hdigits : AllDigits (d.text.toList ++ List.replicate d.exponent.toNat '0') :=
      allDigits_append.mpr ⟨d.allDigits_text, allDigits_replicate _⟩
    have hfixed :=
      fixed_point hdigits (List.append_ne_nil_of_left_ne_nil d.text_ne_nil _)
        (allDigits_replicate 1)
    have hvalue : (Nat.ofDigitChars 10 (d.text.toList ++ List.replicate d.exponent.toNat '0' ++
        List.replicate 1 '0') 0 : ℚ) / 10 ^ (List.replicate 1 '0').length = d.toRat := by
      rw [Nat.ofDigitChars_append, Nat.ofDigitChars_replicate_zero, ← ofDigitChars_zeros h]
      push_cast
      simp
    rw [hvalue] at hfixed
    simpa [positional, h, toList_zeros] using hfixed
  · exact d.fixed_positional

/-- There always is a point in this form. -/
theorem mem_withPoint (d : Decimal) : '.' ∈ d.withPoint.toList := by
  unfold withPoint
  split
  · simp
  · next h =>
    unfold positional
    rw [if_neg h]
    dsimp only
    split <;> simp

/-- The text of an exponent. -/
theorem readExponent_eq (n : Int) : Number.readExponent
    (if 0 ≤ n then "+" ++ Nat.repr n.toNat else "-" ++ Nat.repr (-n).toNat).toList = n := by
  split
  · next h =>
    rw [String.toList_append, Nat.toList_repr]
    show ((Nat.ofDigitChars 10 (Nat.toDigits 10 n.toNat) 0 : Nat) : Int) = n
    rw [Nat.ofDigitChars_ten_toDigits, Int.toNat_of_nonneg h]
  · next h =>
    rw [String.toList_append, Nat.toList_repr]
    show -((Nat.ofDigitChars 10 (Nat.toDigits 10 (-n).toNat) 0 : Nat) : Int) = n
    rw [Nat.ofDigitChars_ten_toDigits]
    omega

/-- One digit before the point, and the others after it. -/
theorem fixed_significand (d : Decimal) :
    Fixed (d.text.toList.take 1 ++ if d.text.toList.length ≤ 1 then
      [] else '.' :: d.text.toList.drop 1)
      (d.digits / 10 ^ (d.text.toList.length - 1)) := by
  have hpos : 0 < d.text.toList.length := List.length_pos_iff.mpr d.text_ne_nil
  split
  · next hone =>
    have hlength : d.text.toList.length - 1 = 0 := by omega
    have hfixed := fixed_digits d.allDigits_text d.text_ne_nil
    rw [ofDigitChars_text] at hfixed
    rw [hlength, List.append_nil, List.take_of_length_le hone]
    simpa using hfixed
  · have hdigits := d.allDigits_text
    rw [← List.take_append_drop 1 d.text.toList] at hdigits
    obtain ⟨hfirst, hothers⟩ := allDigits_append.mp hdigits
    have hne : d.text.toList.take 1 ≠ [] := by
      rw [← List.length_pos_iff, List.length_take]
      omega
    have hfixed := fixed_point hfirst hne hothers
    rw [List.take_append_drop, ofDigitChars_text, List.length_drop] at hfixed
    exact hfixed

theorem toList_scientific (d : Decimal) : (d.scientific "+").toList =
    (d.text.toList.take 1 ++ if d.text.toList.length ≤ 1 then
      [] else '.' :: d.text.toList.drop 1) ++
      'e' ::
      (if 0 ≤ d.order then "+" ++ Nat.repr d.order.toNat
        else "-" ++ Nat.repr (-d.order).toNat).toList := by
  unfold scientific
  dsimp only
  split <;> simp

/-- The text of a decimal in scientific notation stands for it. -/
theorem read_scientific (d : Decimal) :
    Number.read (d.scientific "+").toList = (false, d.toRat) := by
  rw [toList_scientific, d.fixed_significand.read_exponent, readExponent_eq]
  have hpos : 0 < d.text.toList.length := List.length_pos_iff.mpr d.text_ne_nil
  have horder : d.order = ((d.text.toList.length - 1 : Nat) : Int) + d.exponent := by
    rw [order, width, ← toList_text]
    omega
  rw [horder, zpow_add₀ (by norm_num), zpow_natCast, toRat]
  field_simp

end Decimal

/-! ## Doubles -/

theorem Binary.natural?_eq_some {m : Nat} {e : Int} {n : Nat} (h : natural? m e = some n) :
    (n : ℚ) = m * 2 ^ e := by
  unfold natural? at h
  simp only [Nat.pow_eq] at h
  split at h
  · next he =>
    cases h
    push_cast
    rw [← zpow_natCast, Int.toNat_of_nonneg he]
  · next he =>
    split at h
    · next hmod =>
      cases h
      have hexp : e = -((-e).toNat : Int) := by omega
      have hdvd : 2 ^ (-e).toNat ∣ m := Nat.dvd_of_mod_eq_zero hmod
      rw [Nat.cast_div hdvd (by positivity), div_eq_mul_inv]
      push_cast
      rw [← zpow_natCast, ← zpow_neg, ← hexp]
    · cases h

namespace Number

open Decimal (Fixed)

variable {x : Float}

/-- A double that is neither infinite nor `NaN`. -/
def IsFinite (x : Float) : Prop :=
  ∃ s m e, Binary.ofFloat x = .finite s m e

/-- A text that stands for a number that rounds to a finite double, with its sign. -/
def StandsFor (cs : List Char) (x : Float) : Prop :=
  ∃ s m e q, Binary.ofFloat x = .finite s m e ∧ read cs = (s, q) ∧ RoundsTo q m e

/-- **A text stands for one double only.** -/
theorem StandsFor.unique {y : Float} (hx : StandsFor cs x) (hy : StandsFor cs y) : x = y := by
  obtain ⟨s, m, e, q, hparts, hread, hrounds⟩ := hx
  obtain ⟨s', m', e', q', hparts', hread', hrounds'⟩ := hy
  obtain ⟨rfl, rfl⟩ := Prod.mk.inj (hread.symm.trans hread')
  obtain ⟨rfl, rfl⟩ := hrounds.unique hrounds' (Binary.isCanonical_of_ofFloat hparts)
    (Binary.isCanonical_of_ofFloat hparts')
  exact Binary.float_eq_of_ofFloat hparts hparts'

/-- A character of a number in JSON. -/
def IsNumeric (c : Char) : Prop :=
  c.isDigit = true ∨ c = '.' ∨ c = 'e' ∨ c = '+' ∨ c = '-'

theorem isNumeric_sign (s : Bool) : ∀ c ∈ (sign s).toList, IsNumeric c := by
  intro c hc
  cases s with
  | false => cases hc
  | true =>
    rw [List.mem_singleton.mp hc]
    exact .inr (.inr (.inr (.inr rfl)))

theorem isNumeric_fixed (h : Fixed cs q) : ∀ c ∈ cs, IsNumeric c := by
  intro c hc
  rcases h.chars c hc with hdigit | hpoint
  · exact .inl hdigit
  · exact .inr (.inl hpoint)

theorem isNumeric_exponent (n : Int) :
    ∀ c ∈ (if 0 ≤ n then "+" ++ Nat.repr n.toNat else "-" ++ Nat.repr (-n).toNat).toList,
      IsNumeric c := by
  intro c hc
  split at hc
  · rw [String.toList_append, Nat.toList_repr] at hc
    rcases List.mem_append.mp hc with hc | hc
    · rw [List.mem_singleton.mp hc]
      exact .inr (.inr (.inr (.inl rfl)))
    · exact .inl (allDigits_toDigits _ c hc)
  · rw [String.toList_append, Nat.toList_repr] at hc
    rcases List.mem_append.mp hc with hc | hc
    · rw [List.mem_singleton.mp hc]
      exact .inr (.inr (.inr (.inr rfl)))
    · exact .inl (allDigits_toDigits _ c hc)

/-- What is known about the text of a finite double in JSON: it stands for the double, and it is not
that of a natural number, because it has a point or an exponent. -/
structure IsNumeral (cs : List Char) (x : Float) : Prop where
  standsFor : StandsFor cs x
  chars : ∀ c ∈ cs, IsNumeric c
  marked : '.' ∈ cs ∨ 'e' ∈ cs

/-- A finite number has a text, which is a numeral of it. -/
theorem isNumeral_json? (hx : IsFinite x) : ∃ t, json? x = some t ∧ IsNumeral t.toList x := by
  obtain ⟨s, m, e, hparts⟩ := hx
  have hrounds := Decimal.roundsTo_shortest .toEven (Binary.isCanonical_of_ofFloat hparts)
  unfold json?
  rw [hparts]
  dsimp only
  generalize Decimal.shortest .toEven m e = d at hrounds ⊢
  refine ⟨_, rfl, ?_⟩
  rw [String.toList_append]
  split
  · have hfixed := d.fixed_withPoint
    refine ⟨⟨s, m, e, _, hparts, read_sign hfixed.read s, hrounds⟩, ?_, ?_⟩
    · exact List.forall_mem_append.mpr ⟨isNumeric_sign s, isNumeric_fixed hfixed⟩
    · exact .inl (List.mem_append_right _ d.mem_withPoint)
  · refine ⟨⟨s, m, e, _, hparts, read_sign d.read_scientific s, hrounds⟩, ?_, ?_⟩
    · rw [d.toList_scientific]
      refine List.forall_mem_append.mpr ⟨isNumeric_sign s, List.forall_mem_append.mpr ⟨?_, ?_⟩⟩
      · exact isNumeric_fixed d.fixed_significand
      · exact List.forall_mem_cons.mpr ⟨.inr (.inr (.inl rfl)), isNumeric_exponent d.order⟩
    · rw [d.toList_scientific]
      exact .inr (List.mem_append_right _ (List.mem_append_right _ List.mem_cons_self))

/-- A natural number with a point after it. -/
theorem fixed_natural (n : Nat) : Fixed (Nat.repr n ++ ".0").toList n := by
  have hfixed :=
    Decimal.fixed_point (allDigits_toDigits n) Nat.toDigits_ne_nil (allDigits_replicate 1)
  have hvalue : (Nat.ofDigitChars 10 (Nat.toDigits 10 n ++ List.replicate 1 '0') 0 : ℚ) /
      10 ^ (List.replicate 1 '0').length = n := by
    rw [Nat.ofDigitChars_append, Nat.ofDigitChars_replicate_zero, Nat.ofDigitChars_ten_toDigits]
    push_cast
    simp
  rw [hvalue] at hfixed
  simpa using hfixed

/-- The text of a finite double in a tree is a sign, and digits with at most one point that stand
for the double. -/
theorem exists_fixed_inTree {s : Bool} {m : Nat} {e : Int}
    (hparts : Binary.ofFloat x = .finite s m e) :
    ∃ cs q, (inTree x).toList = (sign s).toList ++ cs ∧ Fixed cs q ∧ RoundsTo q m e := by
  unfold inTree
  rw [hparts]
  dsimp only
  cases hnatural : Binary.natural? m e with
  | some n =>
    refine ⟨_, n, ?_, fixed_natural n, ?_⟩
    · simp
    · rw [Binary.natural?_eq_some hnatural]
      exact .self m e
  | none =>
    refine ⟨_, _, String.toList_append, (Decimal.shortest .up m e).fixed_positional, ?_⟩
    exact Decimal.roundsTo_shortest .up (Binary.isCanonical_of_ofFloat hparts)

/-- In a tree the text of a finite number stands for it. -/
theorem standsFor_inTree (hx : IsFinite x) : StandsFor (inTree x).toList x := by
  obtain ⟨s, m, e, hparts⟩ := hx
  obtain ⟨cs, q, htext, hfixed, hrounds⟩ := exists_fixed_inTree hparts
  rw [htext]
  exact ⟨s, m, e, q, hparts, read_sign hfixed.read s, hrounds⟩

end Number

end Lox
