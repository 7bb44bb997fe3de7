import Lox.Number.Text
import Mathlib

/-!
# Decimals that round to a double

The parts of a double are determined by any number that rounds to it: the intervals around two
doubles have no number in common (`RoundsTo.unique`). At an end that two intervals share, only one
of the mantissas is even.

The shortest decimal of a double rounds to it (`Decimal.roundsTo_shortest`). The search for it comes
to an end: with 17 digits the grid is finer than the interval is wide, so that one of the value's
two neighbours lies in it.
-/

namespace Lox

/-! ## The parts of doubles -/

namespace Binary

/-- The parts that a double can have: a mantissa has 53 bits, or fewer at the least exponent. -/
structure IsCanonical (mantissa : Nat) (exponent : Int) : Prop where
  lt : mantissa < 2 ^ 53
  least : -1074 ≤ exponent
  normal : -1074 < exponent → 2 ^ 52 ≤ mantissa

variable {bits bits' : UInt64} {s : Bool} {m : Nat} {e : Int}

/-- The bits of a finite double, from its parts. -/
theorem toNat_of_ofBits (h : ofBits bits = .finite s m e) :
    IsCanonical m e ∧ bits.toNat = (if s then 2 ^ 63 else 0) +
      if m < 2 ^ 52 then m else (e + 1075).toNat * 2 ^ 52 + (m - 2 ^ 52) := by
  have hlt : bits.toNat < 2 ^ 64 := bits.toNat_lt
  simp only [ofBits, Nat.pow_eq] at h
  split at h
  · split at h <;> cases h
  · split at h
    · cases h
      refine ⟨⟨by omega, by omega, by omega⟩, ?_⟩
      simp only [decide_eq_true_eq]
      rw [if_pos (by omega : bits.toNat % 2 ^ 52 < 2 ^ 52)]
      split <;> omega
    · cases h
      refine ⟨⟨by omega, by omega, by omega⟩, ?_⟩
      simp only [decide_eq_true_eq]
      rw [if_neg (by omega : ¬2 ^ 52 + bits.toNat % 2 ^ 52 < 2 ^ 52)]
      split <;> omega

theorem bits_eq_of_ofBits (h : ofBits bits = .finite s m e) (h' : ofBits bits' = .finite s m e) :
    bits = bits' := by
  apply UInt64.toNat_inj.mp
  rw [(toNat_of_ofBits h).2, (toNat_of_ofBits h').2]

theorem isCanonical_of_ofFloat {x : Float} (h : ofFloat x = .finite s m e) : IsCanonical m e :=
  (toNat_of_ofBits h).1

/-- Finite doubles with the same parts are the same. -/
theorem float_eq_of_ofFloat {x y : Float} (hx : ofFloat x = .finite s m e)
    (hy : ofFloat y = .finite s m e) : x = y := by
  have hbits : x.toBits = y.toBits := bits_eq_of_ofBits hx hy
  obtain ⟨⟨bitsOfX, hvalid⟩⟩ := x
  obtain ⟨⟨bitsOfY, hvalid'⟩⟩ := y
  obtain rfl : bitsOfX = bitsOfY := hbits
  rfl

end Binary

/-! ## Rounding -/

/-- The gap below a double, in quarters of the gap above it that its interval takes. -/
def gapBelow (m : Nat) (e : Int) : Nat :=
  if m = 2 ^ 52 ∧ -1074 < e then 1 else 2

/-- A number that lies in the interval of `m * 2 ^ e`, whose ends belong to it if the mantissa is
even. -/
structure RoundsTo (q : ℚ) (m : Nat) (e : Int) : Prop where
  low : (4 * m - gapBelow m e) * 2 ^ (e - 2) ≤ q
  high : q ≤ (4 * m + 2) * 2 ^ (e - 2)
  inner : m % 2 = 1 → (4 * m - gapBelow m e) * 2 ^ (e - 2) < q ∧ q < (4 * m + 2) * 2 ^ (e - 2)

theorem gapBelow_le (m : Nat) (e : Int) : gapBelow m e ≤ 2 := by
  unfold gapBelow
  split <;> omega

theorem one_le_gapBelow (m : Nat) (e : Int) : 1 ≤ gapBelow m e := by
  unfold gapBelow
  split <;> omega

namespace RoundsTo

open Binary (IsCanonical)

variable {q : ℚ} {m m' : Nat} {e e' : Int}

/-- A double rounds to itself. -/
theorem self (m : Nat) (e : Int) : RoundsTo (m * 2 ^ e) m e := by
  have hscale : (2 : ℚ) ^ e = 4 * 2 ^ (e - 2) := by
    rw [zpow_sub₀ two_ne_zero]
    norm_num
    ring
  have hpos : (0 : ℚ) < 2 ^ (e - 2) := by positivity
  have hgap : (1 : ℚ) ≤ gapBelow m e := by exact_mod_cast one_le_gapBelow m e
  have hlow : (4 * m - gapBelow m e : ℚ) * 2 ^ (e - 2) < m * 2 ^ e := by
    rw [hscale]
    nlinarith
  have hhigh : (m : ℚ) * 2 ^ e < (4 * m + 2) * 2 ^ (e - 2) := by
    rw [hscale]
    nlinarith
  exact ⟨hlow.le, hhigh.le, fun _ => ⟨hlow, hhigh⟩⟩

/-- Intervals of the same scale have no number in common. -/
theorem not_of_lt (h : RoundsTo q m e) (hlt : m < m') : ¬RoundsTo q m' e := by
  intro h'
  have hpos : (0 : ℚ) < 2 ^ (e - 2) := by positivity
  have hgap : (gapBelow m' e : ℚ) ≤ 2 := by exact_mod_cast gapBelow_le m' e
  have hnext : (m : ℚ) + 1 ≤ m' := by exact_mod_cast hlt
  have hends : (4 * m + 2 : ℚ) * 2 ^ (e - 2) ≤ (4 * m' - gapBelow m' e) * 2 ^ (e - 2) := by
    apply mul_le_mul_of_nonneg_right _ hpos.le
    linarith
  rcases Nat.mod_two_eq_zero_or_one m with heven | hodd
  · -- The number is the shared end, and the mantissas are neighbours.
    have hends' : (4 * m' - gapBelow m' e : ℚ) ≤ 4 * m + 2 := by
      apply le_of_mul_le_mul_right _ hpos
      exact h'.low.trans h.high
    have hlt' : (m' : ℚ) < m + 2 := by linarith
    have hsucc : m' < m + 2 := by exact_mod_cast hlt'
    have hinner := h'.inner (by omega)
    linarith [h.high]
  · have hinner := h.inner hodd
    linarith [h'.low]

/-- The first mantissa of a binade is preceded by half a gap. -/
theorem le_low (hm' : 2 ^ 52 ≤ m') (he' : -1074 < e') :
    (2 ^ 54 - 1 : ℚ) ≤ 4 * m' - gapBelow m' e' := by
  unfold gapBelow
  by_cases hfirst : m' = 2 ^ 52
  · rw [if_pos ⟨hfirst, he'⟩, hfirst]
    norm_num
  · rw [if_neg fun hand => hfirst hand.1]
    have hgt : (2 ^ 52 + 1 : ℚ) ≤ m' := by
      have hsucc : 2 ^ 52 + 1 ≤ m' := by omega
      exact_mod_cast hsucc
    push_cast
    linarith

/-- Intervals of different scales have no number in common. -/
theorem not_of_exponent_lt (h : RoundsTo q m e) (hm : m < 2 ^ 53) (hlt : e < e') (hm' : 2 ^ 52 ≤ m')
    (he' : -1074 < e') : ¬RoundsTo q m' e' := by
  intro h'
  have hpos : (0 : ℚ) < 2 ^ (e - 2) := by positivity
  have hdouble : (2 : ℚ) * 2 ^ (e - 2) ≤ 2 ^ (e' - 2) := by
    rw [← zpow_one_add₀ two_ne_zero]
    exact zpow_le_zpow_right₀ one_le_two (by omega)
  have hlow : (2 ^ 54 - 1 : ℚ) * (2 * 2 ^ (e - 2)) ≤ q := by
    have hnonneg : (0 : ℚ) ≤ 4 * m' - gapBelow m' e' := le_trans (by norm_num) (le_low hm' he')
    exact (mul_le_mul (le_low hm' he') hdouble (by positivity) hnonneg).trans h'.low
  have hlast : (2 ^ 53 - 1 : ℚ) ≤ m := by
    have hends : (2 ^ 54 - 1) * 2 ≤ (4 * m + 2 : ℚ) := by
      apply le_of_mul_le_mul_right _ hpos
      linarith [h.high]
    linarith
  have hm₁ : 2 ^ 53 ≤ m + 1 := by
    have hcast : (2 ^ 53 : ℚ) ≤ m + 1 := by linarith
    exact_mod_cast hcast
  obtain rfl : m = 2 ^ 53 - 1 := by omega
  have hinner := (h.inner (by norm_num)).2
  push_cast at hinner
  linarith

/-- **A number rounds to one double only.** -/
theorem unique (h : RoundsTo q m e) (h' : RoundsTo q m' e') (hc : IsCanonical m e)
    (hc' : IsCanonical m' e') : m = m' ∧ e = e' := by
  have hleast := hc.least
  have hleast' := hc'.least
  rcases lt_trichotomy e e' with hlt | rfl | hgt
  · have hnormal : -1074 < e' := by omega
    exact absurd h' (h.not_of_exponent_lt hc.lt hlt (hc'.normal hnormal) hnormal)
  · rcases lt_trichotomy m m' with hlt | heq | hgt
    · exact absurd h' (h.not_of_lt hlt)
    · exact ⟨heq, rfl⟩
    · exact absurd h (h'.not_of_lt hgt)
  · have hnormal : -1074 < e := by omega
    exact absurd h (h'.not_of_exponent_lt hc'.lt hgt (hc.normal hnormal) hnormal)

end RoundsTo

/-! ## Grids -/

namespace Decimal

/-- The number that a decimal stands for. -/
def toRat (d : Decimal) : ℚ :=
  d.digits * 10 ^ d.exponent

/-- Positive and negative exponents are natural numbers on either side. -/
theorem zpow_mul_pow_toNat {a : ℚ} (ha : a ≠ 0) (k : Int) :
    a ^ k * a ^ (-k).toNat = a ^ k.toNat := by
  rw [← zpow_natCast, ← zpow_natCast, ← zpow_add₀ ha]
  congr 1
  omega

section

variable {m : Nat} {e k : Int}

/-- What natural numbers on a grid are multiplied by. -/
def gridFactor (e k : Int) : ℚ :=
  2 ^ (2 - e).toNat * 10 ^ (-k).toNat

theorem gridFactor_pos (e k : Int) : 0 < gridFactor e k := by
  unfold gridFactor
  positivity

theorem cast_scaled (x : Nat) (e k : Int) :
    ((x * Nat.pow 2 (e - 2).toNat * Nat.pow 10 (-k).toNat : Nat) : ℚ) =
      x * 2 ^ (e - 2) * gridFactor e k := by
  have htwo := zpow_mul_pow_toNat (two_ne_zero : (2 : ℚ) ≠ 0) (e - 2)
  rw [neg_sub] at htwo
  simp only [Nat.pow_eq]
  push_cast
  rw [gridFactor, ← htwo]
  ring

theorem cast_unit (c : Nat) (e k : Int) :
    ((c * (Nat.pow 2 (2 - e).toNat * Nat.pow 10 k.toNat) : Nat) : ℚ) =
      c * 10 ^ k * gridFactor e k := by
  have hten := zpow_mul_pow_toNat (by norm_num : (10 : ℚ) ≠ 0) k
  simp only [Nat.pow_eq]
  push_cast
  rw [gridFactor, ← hten]
  ring

theorem scaled_le_unit (x c : Nat) : x * Nat.pow 2 (e - 2).toNat * Nat.pow 10 (-k).toNat ≤
    c * (Nat.pow 2 (2 - e).toNat * Nat.pow 10 k.toNat) ↔ (x : ℚ) * 2 ^ (e - 2) ≤ c * 10 ^ k := by
  rw [← Nat.cast_le (α := ℚ), cast_scaled, cast_unit]
  exact mul_le_mul_iff_left₀ (gridFactor_pos e k)

theorem unit_le_scaled (x c : Nat) : c * (Nat.pow 2 (2 - e).toNat * Nat.pow 10 k.toNat) ≤
    x * Nat.pow 2 (e - 2).toNat * Nat.pow 10 (-k).toNat ↔ (c : ℚ) * 10 ^ k ≤ x * 2 ^ (e - 2) := by
  rw [← Nat.cast_le (α := ℚ), cast_scaled, cast_unit]
  exact mul_le_mul_iff_left₀ (gridFactor_pos e k)

/-- A point of a grid that the interval of a double holds rounds to the double. -/
theorem roundsTo_of_holds (hm : m ≠ 0) {c : Nat} (h : ((interval m e).onGrid k).holds c = true) :
    RoundsTo (c * 10 ^ k) m e := by
  have hgap := gapBelow_le m e
  have hcast : ((4 * m - gapBelow m e : Nat) : ℚ) = 4 * m - gapBelow m e := by
    rw [Nat.cast_sub (by omega)]
    push_cast
    ring
  have hcast' : ((4 * m + 2 : Nat) : ℚ) = 4 * m + 2 := by push_cast; ring
  unfold Interval.holds at h
  change (if decide (m % 2 = 0) = true then
    decide ((4 * m - gapBelow m e) * Nat.pow 2 (e - 2).toNat * Nat.pow 10 (-k).toNat ≤
      c * (Nat.pow 2 (2 - e).toNat * Nat.pow 10 k.toNat)) &&
    decide (c * (Nat.pow 2 (2 - e).toNat * Nat.pow 10 k.toNat) ≤
      (4 * m + 2) * Nat.pow 2 (e - 2).toNat * Nat.pow 10 (-k).toNat) else
    decide ((4 * m - gapBelow m e) * Nat.pow 2 (e - 2).toNat * Nat.pow 10 (-k).toNat <
      c * (Nat.pow 2 (2 - e).toNat * Nat.pow 10 k.toNat)) &&
    decide (c * (Nat.pow 2 (2 - e).toNat * Nat.pow 10 k.toNat) <
      (4 * m + 2) * Nat.pow 2 (e - 2).toNat * Nat.pow 10 (-k).toNat)) = true at h
  split at h
  · next heven =>
    simp only [Bool.and_eq_true, decide_eq_true_eq, scaled_le_unit, unit_le_scaled, hcast,
      hcast'] at h heven
    exact ⟨h.1, h.2, fun hodd => by omega⟩
  · next hodd =>
    simp only [Bool.and_eq_true, decide_eq_true_eq, ← not_le, scaled_le_unit, unit_le_scaled, hcast,
      hcast'] at h
    simp only [not_le] at h
    exact ⟨h.1.le, h.2.le, fun _ => h⟩

end

/-! ## The neighbours of a value -/

namespace Interval

variable {tie : Tie} {i : Interval}

theorem holds_of_nearest? {c : Nat} (h : i.nearest? tie = some c) : i.holds c = true := by
  unfold nearest? at h
  dsimp only at h
  split at h
  · cases h
  · next hfloor _ =>
    cases h
    exact hfloor
  · next _ hceil =>
    cases h
    exact hceil
  · next hfloor hceil =>
    by_cases hless : 2 * (i.value - i.value / i.unit * i.unit) < i.unit
    · rw [if_pos hless] at h
      cases h
      exact hfloor
    · by_cases hmore : i.unit < 2 * (i.value - i.value / i.unit * i.unit)
      · rw [if_neg hless, if_pos hmore] at h
        cases h
        exact hceil
      · rw [if_neg hless, if_neg hmore] at h
        cases tie with
        | up =>
          cases h
          exact hceil
        | toEven =>
          simp only [Option.some.injEq] at h
          split at h <;> subst h
          · exact hfloor
          · exact hceil

/-- If neither neighbour lies in the interval, then it lies between the two. -/
theorem high_le_of_nearest? (hlow : i.low < i.value) (hhigh : i.value < i.high) (hunit : 0 < i.unit)
    (h : i.nearest? tie = none) : i.high ≤ i.low + i.unit := by
  have hnone : i.holds (i.value / i.unit) = false ∧ i.holds (i.value / i.unit + 1) = false := by
    unfold nearest? at h
    dsimp only at h
    split at h
    · next hfloor hceil => exact ⟨hfloor, hceil⟩
    · cases h
    · cases h
    · split at h
      · cases h
      · split at h
        · cases h
        · cases tie <;> cases h
  have hfloor : i.value / i.unit * i.unit ≤ i.value := Nat.div_mul_le_self i.value i.unit
  have hceil : i.value < (i.value / i.unit + 1) * i.unit := by
    rw [Nat.mul_comm]
    exact Nat.lt_mul_div_succ i.value hunit
  obtain ⟨hno, hno'⟩ := hnone
  have hsum : (i.value / i.unit + 1) * i.unit = i.value / i.unit * i.unit + i.unit :=
    Nat.succ_mul _ _
  unfold holds at hno hno'
  rw [hsum] at hno' hceil
  cases hclosed : i.closed with
  | true =>
    simp only [hclosed, if_true, Bool.and_eq_false_iff, decide_eq_false_iff_not] at hno hno'
    omega
  | false =>
    simp only [hclosed, Bool.false_eq_true, if_false, Bool.and_eq_false_iff,
      decide_eq_false_iff_not] at hno hno'
    omega

end Interval

/-! ## The leading digit -/

theorem lt_pow_width (n : Nat) : n < 10 ^ width n :=
  (Nat.length_toDigits_le_iff (by decide) Nat.length_toDigits_pos).mp (Nat.le_refl _)

theorem pow_width_le {n : Nat} (hn : n ≠ 0) : 10 ^ (width n - 1) ≤ n := by
  by_contra hlt
  by_cases hone : width n - 1 = 0
  · rw [hone] at hlt
    omega
  · have hwidth : width n ≤ width n - 1 :=
      (Nat.length_toDigits_le_iff (by decide) (by omega)).mpr (by omega)
    omega

theorem leading_le {n d : Nat} (hn : 0 < n) (hd : 0 < d) : (10 : ℚ) ^ leading n d ≤ n / d := by
  have hd' : (0 : ℚ) < d := by exact_mod_cast hd
  unfold leading
  split
  · next hle =>
    have hquotient : n / d ≠ 0 := (Nat.div_pos hle hd).ne'
    have hpow : 10 ^ (width (n / d) - 1) * d ≤ n := by
      calc 10 ^ (width (n / d) - 1) * d ≤ n / d * d :=
            Nat.mul_le_mul_right d (pow_width_le hquotient)
        _ ≤ n := Nat.div_mul_le_self n d
    have hwidth : (width (n / d) : Int) - 1 = ((width (n / d) - 1 : Nat) : Int) := by
      have hpos : 0 < width (n / d) := Nat.length_toDigits_pos
      omega
    rw [hwidth, zpow_natCast, le_div_iff₀ hd']
    exact_mod_cast hpow
  · have hpow : d ≤ n * 10 ^ width ((d + n - 1) / n - 1) := by
      have hlt := lt_pow_width ((d + n - 1) / n - 1)
      have hle : (d + n - 1) / n < 10 ^ width ((d + n - 1) / n - 1) + 1 := by omega
      have hmul := (Nat.div_lt_iff_lt_mul hn).mp hle
      rw [Nat.add_mul, Nat.one_mul, Nat.mul_comm] at hmul
      omega
    rw [zpow_neg, zpow_natCast, inv_eq_one_div, div_le_div_iff₀ (by positivity) hd', one_mul]
    exact_mod_cast hpow

/-! ## The search -/

section

variable {tie : Tie} {i : Interval} {top : Int}

/-- Trailing zeros do not change the number. -/
theorem toRat_trim (steps : Nat) (d : Decimal) : (trim steps d).toRat = d.toRat := by
  induction steps generalizing d with
  | zero => rfl
  | succ steps ih =>
    unfold trim
    split
    · next hzero =>
      rw [ih]
      have hdigits : (d.digits : ℚ) = 10 * ((d.digits / 10 : Nat) : ℚ) := by
        exact_mod_cast (Nat.mul_div_cancel' (Nat.dvd_of_mod_eq_zero hzero.2)).symm
      simp only [toRat]
      rw [hdigits, zpow_add_one₀ (by norm_num)]
      ring
    · rfl

theorem exists_of_search {n more : Nat} {d : Decimal} (h : search tie i top n more = some d) :
    ∃ k c, (i.onGrid k).nearest? tie = some c ∧ d.toRat = c * 10 ^ k := by
  induction more generalizing n with
  | zero => cases h
  | succ more ih =>
    unfold search at h
    dsimp only at h
    split at h
    · next c hc =>
      cases h
      exact ⟨_, c, hc, toRat_trim 17 _⟩
    · exact ih h

/-- The search succeeds if it comes to a grid with a point in the interval. -/
theorem search_ne_none {n more j : Nat} (hj : j < more)
    (h : (i.onGrid (top - (n + j : Nat))).nearest? tie ≠ none) :
    search tie i top n more ≠ none := by
  induction more generalizing n j with
  | zero => omega
  | succ more ih =>
    unfold search
    dsimp only
    split
    · intro hnone
      cases hnone
    · next hnone =>
      cases j with
      | zero => exact absurd hnone h
      | succ j =>
        refine ih (n := n + 1) (j := j) (by omega) ?_
        rw [Nat.add_right_comm]
        exact h

end

section

variable {m : Nat} {e : Int}

open Binary (IsCanonical)

/-- The first mantissas of binades are far from the greatest one, and so 16 digits more than the
leading one are enough for them too. -/
theorem lt_gap (hc : IsCanonical m e) : (4 * m : ℚ) < (2 + gapBelow m e) * 10 ^ 16 := by
  unfold gapBelow
  split
  · next hfirst =>
    rw [hfirst.1]
    norm_num
  · have hlt : (m : ℚ) < 2 ^ 53 := by exact_mod_cast hc.lt
    push_cast
    linarith

/-- A grid of 17 digits has a point in the interval. -/
theorem nearest?_ne_none (tie : Tie) (hm : m ≠ 0) (hc : IsCanonical m e) {k : Int}
    (hk : (10 : ℚ) ^ (k + 16) ≤ 4 * m * 2 ^ (e - 2)) :
    ((interval m e).onGrid k).nearest? tie ≠ none := by
  intro hnone
  have hgap := gapBelow_le m e
  have hunit : 0 < ((interval m e).onGrid k).unit := by
    apply Nat.mul_pos <;> exact Nat.pow_pos (by decide)
  have hscale {x y : Nat} (hlt : x < y) : x * Nat.pow 2 (e - 2).toNat * Nat.pow 10 (-k).toNat <
      y * Nat.pow 2 (e - 2).toNat * Nat.pow 10 (-k).toNat :=
    Nat.mul_lt_mul_of_pos_right (Nat.mul_lt_mul_of_pos_right hlt (Nat.pow_pos (by decide)))
      (Nat.pow_pos (by decide))
  have hlow : ((interval m e).onGrid k).low < ((interval m e).onGrid k).value :=
    hscale (Nat.sub_lt (by omega) (one_le_gapBelow m e))
  have hhigh : ((interval m e).onGrid k).value < ((interval m e).onGrid k).high := hscale (by omega)
  have hle := Interval.high_le_of_nearest? hlow hhigh hunit hnone
  change (4 * m + 2) * Nat.pow 2 (e - 2).toNat * Nat.pow 10 (-k).toNat ≤
    (4 * m - gapBelow m e) * Nat.pow 2 (e - 2).toNat * Nat.pow 10 (-k).toNat +
      Nat.pow 2 (2 - e).toNat * Nat.pow 10 k.toNat at hle
  rw [← Nat.cast_le (α := ℚ), Nat.cast_add, cast_scaled, cast_scaled,
    ← Nat.one_mul (Nat.pow 2 (2 - e).toNat * Nat.pow 10 k.toNat), cast_unit,
    Nat.cast_sub (by omega : gapBelow m e ≤ 4 * m), ← add_mul] at hle
  have hwide := le_of_mul_le_mul_right hle (gridFactor_pos e k)
  push_cast at hwide
  have hfine : (10 : ℚ) ^ k * 10 ^ 16 ≤ 4 * m * 2 ^ (e - 2) := by
    rw [← zpow_natCast, ← zpow_add₀ (by norm_num)]
    exact_mod_cast hk
  have hpos : (0 : ℚ) < 2 ^ (e - 2) := by positivity
  have hless := mul_lt_mul_of_pos_right (lt_gap hc) hpos
  nlinarith

/-- **The shortest decimal of a double rounds to it.** -/
theorem roundsTo_shortest (tie : Tie) (hc : IsCanonical m e) :
    RoundsTo (shortest tie m e).toRat m e := by
  unfold shortest
  by_cases hm : m = 0
  · rw [if_pos hm, hm]
    simpa [toRat] using RoundsTo.self 0 e
  · rw [if_neg hm]
    dsimp only
    have hvalue : (((interval m e).value : ℚ) / (interval m e).unit) = 4 * m * 2 ^ (e - 2) := by
      have htwo := zpow_mul_pow_toNat (two_ne_zero : (2 : ℚ) ≠ 0) (e - 2)
      rw [neg_sub] at htwo
      simp only [interval, Nat.pow_eq]
      push_cast
      rw [div_eq_iff (by positivity), mul_assoc (4 * (m : ℚ)), htwo]
    have hleading : (10 : ℚ) ^ leading (interval m e).value (interval m e).unit ≤
        4 * m * 2 ^ (e - 2) := by
      rw [← hvalue]
      apply leading_le
      · exact Nat.mul_pos (by omega) (Nat.pow_pos (by decide))
      · exact Nat.pow_pos (by decide)
    have hsearch : search tie (interval m e) (leading (interval m e).value (interval m e).unit) 0
        17 ≠ none := by
      refine search_ne_none (j := 16) (by decide) (nearest?_ne_none tie hm hc ?_)
      simpa using hleading
    obtain ⟨d, hd⟩ := Option.ne_none_iff_exists'.mp hsearch
    obtain ⟨k, c, hnearest, hrat⟩ := exists_of_search hd
    rw [hd, Option.getD_some, hrat]
    exact roundsTo_of_holds hm (Interval.holds_of_nearest? hnearest)

end

end Decimal

end Lox
