import Lox.Proofs.Number.Texts
import Lox.Syntax.Printer
import Lox.Value.Text

/-!
# Integers in printed values, trees and tokens

A double that stands for an integer is printed in three places, each time with all digits of the
integer (`Number.texts_of_toRat?_eq`). In a token it is converted to a 64-bit integer first, below a
limit that is itself a double. The limit is `2 ^ 63` (`Number.abs_lt_integerLimit`), so that the
conversion neither rounds nor leaves the range of these integers (`Number.toInt_toInt64`). Only the
sign of a zero is lost in it.

Comparisons and conversions are defined on unpacked doubles. These have the parts that
`Binary.ofFloat` finds (`Binary.unpack_eq`).
-/

namespace Lox

open Float.Model (Format UnpackedFloat)
open Float.Model.UnpackedFloat

/-! ## Unpacked doubles -/

namespace Binary

/-- The sign that a sign bit stands for. -/
def signOf (negative : Bool) : Sign :=
  if negative then .negative else .positive

/-- The unpacked double with these parts. -/
def unpacked : Binary → UnpackedFloat
  | .nan => .notANumber
  | .infinite s => .infinity (signOf s)
  | .finite s m e => if hm : 0 < m then .finite (signOf s) m e hm else .zero (signOf s)

theorem toNat_unpackMantissa (b : BitVec Format.binary64.numBits) :
    (unpackMantissa b).toNat = b.toNat % 2 ^ 52 := by
  simp [unpackMantissa_def]

theorem toNat_unpackExponent (b : BitVec Format.binary64.numBits) :
    (unpackExponent b).toNat = b.toNat / 2 ^ 52 % 2 ^ 11 := by
  simp [unpackExponent_def, Nat.shiftRight_eq_div_pow]

theorem ofBitVec_unpackSign (b : BitVec Format.binary64.numBits) :
    Sign.ofBitVec (unpackSign b) = signOf (decide (2 ^ 63 ≤ b.toNat)) := by
  have hbit : (unpackSign b).toNat = b.toNat / 2 ^ 63 % 2 := by
    simp [unpackSign_def, Nat.shiftRight_eq_div_pow]
  have hlt : b.toNat < 2 ^ 64 := b.isLt
  simp only [Sign.ofBitVec, signOf, ← BitVec.toNat_inj, hbit, BitVec.toNat_zero, decide_eq_true_eq]
  by_cases hneg : 2 ^ 63 ≤ b.toNat
  · rw [if_pos hneg, if_neg (by omega)]
  · rw [if_neg hneg, if_pos (by omega)]

/-- A normal mantissa has one more bit in front of the fraction. -/
theorem toNat_one_append (b : BitVec 52) : (1#1 ++ b).toNat = 2 ^ 52 + b.toNat := by
  rw [BitVec.toNat_append, ← Nat.shiftLeft_add_eq_or_of_lt b.isLt]
  rfl

theorem unpack_ofBits (bits : UInt64) :
    unpack Format.binary64 bits.toBitVec = (ofBits bits).unpacked := by
  have hbias : Format.binary64.exponentBias = 1023 := rfl
  have hones : (-1#11).toNat = 2047 := rfl
  unfold unpack ofBits
  simp only [← BitVec.toNat_inj, toNat_one_append, toNat_unpackMantissa, toNat_unpackExponent,
    ofBitVec_unpackSign, UInt64.toNat_toBitVec, hbias, hones, BitVec.toNat_zero, Nat.pow_eq]
  split_ifs with hscale hfraction hleast hzero
  · rfl
  · rfl
  · rw [hzero]
    rfl
  · simp only [unpacked, Nat.pos_of_ne_zero hzero, reduceDIte, hleast]
    rfl
  · simp [unpacked]

/-- **A double is unpacked to the parts it is taken apart into.** -/
theorem unpack_eq (x : Float) : x.toModel.unpack = (ofFloat x).unpacked :=
  unpack_ofBits x.toBits

theorem unpack_pack_unpack (b : BitVec Format.binary64.numBits) :
    unpack Format.binary64 (pack Format.binary64 (unpack Format.binary64 b)) =
      unpack Format.binary64 b := by
  rw [pack_unpack]
  split_ifs with hnan
  · simp only [isNaNBits, decide_eq_true_eq] at hnan
    rw [unpack_packedNaN, unpack, if_pos hnan.1, if_neg hnan.2]
  · rfl

variable {x : Float} {s : Bool} {m n : Nat} {e : Int}

/-- Without the highest bit, the bits are those of the absolute value. -/
theorem ofBits_mod {bits : UInt64} (h : ofBits bits = .finite s m e) :
    ofBits (UInt64.ofNat (bits.toNat % 2 ^ 63)) = .finite false m e := by
  have hbits : (UInt64.ofNat (bits.toNat % 2 ^ 63)).toNat = bits.toNat % 2 ^ 63 := by
    rw [UInt64.toNat_ofNat', Nat.mod_eq_of_lt (by omega)]
  have hscale : bits.toNat % 2 ^ 63 / 2 ^ 52 % 2 ^ 11 = bits.toNat / 2 ^ 52 % 2 ^ 11 := by omega
  have hfraction : bits.toNat % 2 ^ 63 % 2 ^ 52 = bits.toNat % 2 ^ 52 := by omega
  have hpositive : decide (2 ^ 63 ≤ bits.toNat % 2 ^ 63) = false := decide_eq_false (by omega)
  simp only [ofBits, Nat.pow_eq, hbits, hscale, hfraction, hpositive] at h ⊢
  split_ifs at h ⊢ <;> cases h <;> rfl

theorem unpack_abs (h : ofFloat x = .finite s m e) :
    x.abs.toModel.unpack = (finite false m e).unpacked := by
  have habs : x.toModel.unpack.abs = (finite false m e).unpacked := by
    rw [unpack_eq, h]
    by_cases hm : 0 < m
    · simp only [unpacked, dif_pos hm]
      rfl
    · simp only [unpacked, dif_neg hm]
      rfl
  rw [← ofBits_mod h, ← unpack_ofBits] at habs ⊢
  change unpack Format.binary64 (pack Format.binary64 x.toModel.unpack.abs) = _
  rw [habs, unpack_pack_unpack]

/-! ## Integers -/

theorem negative_eq (h : ofFloat x = .finite s m e) : s = decide (2 ^ 63 ≤ x.toBits.toNat) := by
  unfold ofFloat ofBits at h
  simp only [Nat.pow_eq] at h
  split_ifs at h <;> cases h <;> rfl

theorem natural?_eq (h : natural? m e = some n) : m * 2 ^ e.toNat / 2 ^ (-e).toNat = n := by
  unfold natural? at h
  simp only [Nat.pow_eq] at h
  split_ifs at h with hexponent hmod
  · cases h
    rw [Int.toNat_of_nonpos (by omega : -e ≤ 0), pow_zero, Nat.div_one]
  · cases h
    rw [Int.toNat_of_nonpos (by omega : e ≤ 0), pow_zero, mul_one]

/-- Every natural number is found. -/
theorem natural?_of_eq (h : (n : ℚ) = m * 2 ^ e) : natural? m e = some n := by
  unfold natural?
  simp only [Nat.pow_eq]
  by_cases hexponent : 0 ≤ e
  · obtain ⟨k, rfl⟩ := Int.eq_ofNat_of_zero_le hexponent
    rw [zpow_natCast] at h
    have hvalue : n = m * 2 ^ k := by exact_mod_cast h
    rw [if_pos hexponent, Int.toNat_natCast, hvalue]
  · obtain ⟨k, rfl⟩ : ∃ k : Nat, e = -k := ⟨(-e).toNat, by omega⟩
    rw [zpow_neg, zpow_natCast, ← div_eq_mul_inv, eq_div_iff (by positivity)] at h
    have hvalue : n * 2 ^ k = m := by exact_mod_cast h
    rw [if_neg hexponent, neg_neg, Int.toNat_natCast, ← hvalue, Nat.mul_mod_left, if_pos rfl,
      Nat.mul_div_cancel _ (Nat.two_pow_pos k)]

end Binary

namespace Number

open Binary (IsCanonical)

variable {x : Float} {s : Bool} {m n : Nat} {e : Int}

/-! ## The limit -/

/-- The limit is the first double with its exponent. -/
theorem lt_two_pow_iff (h : IsCanonical m e) : (m : ℚ) * 2 ^ e < 2 ^ 63 ↔ e < 11 := by
  have hlt : (m : ℚ) < 2 ^ 53 := by exact_mod_cast h.lt
  have hpos : (0 : ℚ) < 2 ^ e := by positivity
  constructor
  · intro hbelow
    by_contra hle
    have hnormal : (2 ^ 52 : ℚ) ≤ m := by exact_mod_cast h.normal (by omega)
    have hscale : (2 : ℚ) ^ (11 : ℤ) ≤ 2 ^ e := zpow_le_zpow_right₀ one_le_two (by omega)
    norm_num at hscale
    nlinarith
  · intro hexponent
    have hscale : (2 : ℚ) ^ e ≤ 2 ^ (10 : ℤ) := zpow_le_zpow_right₀ one_le_two (by omega)
    norm_num at hscale
    nlinarith

theorem lt_iff_unpack_lt (x y : Float) : x < y ↔ x.toModel.unpack.lt y.toModel.unpack = true :=
  decide_eq_true_iff

/-- **A double is below the limit if it is below `2 ^ 63`.** -/
theorem abs_lt_integerLimit (h : Binary.ofFloat x = .finite s m e) :
    x.abs < integerLimit ↔ (m : ℚ) * 2 ^ e < 2 ^ 63 := by
  have hlimit : Binary.ofFloat integerLimit = .finite false (2 ^ 52) 11 := by decide
  have hcanonical := Binary.isCanonical_of_ofFloat h
  rw [lt_iff_unpack_lt, Binary.unpack_abs h, Binary.unpack_eq, hlimit, lt_two_pow_iff hcanonical]
  by_cases hm : 0 < m
  · have hnormal : ¬(e = 11 ∧ m < 2 ^ 52) := by
      rintro ⟨rfl, hsubnormal⟩
      have := hcanonical.normal (by decide)
      omega
    simp only [Binary.unpacked, Binary.signOf, hm, Nat.two_pow_pos, reduceDIte, Bool.false_eq_true,
      reduceIte, UnpackedFloat.lt, UnpackedFloat.compare, beq_iff_eq, Option.some.injEq,
      Ordering.then_eq_lt, compare_lt_iff_lt, compare_eq_iff_eq]
    exact or_iff_left hnormal
  · have hleast : e < 11 := by
      by_contra hle
      have := hcanonical.normal (by omega)
      omega
    simp [Binary.unpacked, Binary.signOf, hm, UnpackedFloat.lt, UnpackedFloat.compare, hleast]

/-! ## The conversion -/

theorem mantissa_repeat_shiftRightOne (k : Nat) (r t : Bool) :
    (Nat.repeat ExtendedMantissa.shiftRightOne k ⟨m, r, t⟩).mantissa = m / 2 ^ k := by
  induction k with
  | zero => simp [Nat.repeat]
  | succ k ih =>
    simp only [Nat.repeat, ExtendedMantissa.shiftRightOne, ih]
    rw [Nat.div_div_eq_div_mul, pow_succ]

theorem roundToInt_eq (t : Sign) (m : Nat) (e : Int) :
    roundToInt t m e = t.apply (m * 2 ^ e.toNat / 2 ^ (-e).toNat : Nat) := by
  have hshift : (0 - (e - (e.toNat : Int))).toNat = (-e).toNat := by omega
  simp only [roundToInt, decreaseExponent, shiftToExponent, ExtendedMantissa.ofMantissaAndAccuracy,
    Nat.shiftLeft_eq, HShiftRight.hShiftRight, mantissa_repeat_shiftRightOne, hshift, sub_zero]

/-- **The conversion of an integer is exact below the limit.** -/
theorem toInt_toInt64 (h : Binary.ofFloat x = .finite s m e)
    (hnatural : Binary.natural? m e = some n) (hlt : n < 2 ^ 63) :
    (toInt64 x).toInt = if s then -(n : Int) else n := by
  have hround : x.toModel.unpack.toInt Int64.minValue.toInt Int64.maxValue.toInt = if s then
      -(n : Int) else n := by
    have hvalue := Binary.natural?_eq hnatural
    rw [Binary.unpack_eq, h]
    by_cases hm : 0 < m
    · simp only [Binary.unpacked, hm, reduceDIte, UnpackedFloat.toInt, roundToInt_eq, hvalue]
      cases s <;> rfl
    · obtain rfl : m = 0 := by omega
      obtain rfl : n = 0 := by simpa using hvalue.symm
      cases s <;> rfl
  have hleast : Int64.minValue.toInt = -2 ^ 63 := by decide
  have hgreatest : Int64.maxValue.toInt = 2 ^ 63 - 1 := by decide
  change (Int64.ofIntClamp
    (x.toModel.unpack.toInt Int64.minValue.toInt Int64.maxValue.toInt)).toInt = _
  rw [hround]
  apply Int64.toInt_ofIntClamp
  · rw [hleast]
    split_ifs <;> omega
  · rw [hgreatest]
    split_ifs <;> omega

/-! ## The texts -/

/-- The number that a finite double stands for. -/
def toRat? (x : Float) : Option ℚ :=
  match Binary.ofFloat x with
  | .finite s m e => some (if s then -(m * 2 ^ e) else m * 2 ^ e)
  | _ => none

/-- The parts of a double that stands for an integer. -/
theorem parts_of_toRat?_eq {z : Int} (h : toRat? x = some (z : ℚ)) :
    ∃ s m e, Binary.ofFloat x = .finite s m e ∧ Binary.natural? m e = some z.natAbs ∧
      z = if s then -(z.natAbs : Int) else z.natAbs := by
  unfold toRat? at h
  split at h
  · next s m e hparts =>
    have hvalue := Option.some.inj h
    have hnonneg : (0 : ℚ) ≤ m * 2 ^ e := by positivity
    have habs : (m : ℚ) * 2 ^ e = |(z : ℚ)| := by
      rw [← hvalue]
      cases s <;> simp [abs_of_nonneg hnonneg]
    refine ⟨s, m, e, hparts, Binary.natural?_of_eq ?_, ?_⟩
    · rw [habs, Nat.cast_natAbs, Int.cast_abs]
    · cases s with
      | false =>
        have hz : (0 : ℚ) ≤ z := hnonneg.trans_eq hvalue
        have hz' : 0 ≤ z := by exact_mod_cast hz
        exact (Int.natAbs_of_nonneg hz').symm
      | true =>
        have hz : (z : ℚ) ≤ 0 := by
          rw [← hvalue]
          simpa using hnonneg
        have hz' : z ≤ 0 := by exact_mod_cast hz
        simp only [if_true]
        omega
  · cases h

/-- **An integer below `2 ^ 63` has all its digits in a token.** -/
theorem inToken_eq (h : Binary.ofFloat x = .finite s m e) (hnatural : Binary.natural? m e = some n)
    (hlt : n < 2 ^ 63) : inToken x = Int.repr (if s then -(n : Int) else n) ++ ".0" := by
  have hbelow : x.abs < integerLimit := by
    rw [abs_lt_integerLimit h, ← Binary.natural?_eq_some hnatural]
    exact_mod_cast hlt
  unfold inToken
  rw [h]
  dsimp only
  rw [if_pos ⟨by rw [hnatural]; rfl, hbelow⟩, toInt_toInt64 h hnatural hlt]

theorem repr_signed (h : s = true → n ≠ 0) :
    Int.repr (if s then -(n : Int) else n) = sign s ++ Nat.repr n := by
  cases s with
  | false => simp [sign, Int.repr]
  | true =>
    obtain ⟨k, rfl⟩ := Nat.exists_eq_succ_of_ne_zero (h rfl)
    rfl

/-- **Printed values, trees and tokens agree on integers.** A double that stands for an integer is
printed with its sign bit and all digits, and in trees with `.0` after them. Below `2 ^ 63` the
conversion gives the integer, so that a token has the text of the tree, the negative zero apart. -/
theorem texts_of_toRat?_eq {x : Float} {z : Int} (h : toRat? x = some (z : ℚ)) {t : Token}
    (ht : t.kind = .number x) :
    (Value.number x).display = sign (decide (2 ^ 63 ≤ x.toBits.toNat)) ++ Nat.repr z.natAbs ∧
    (Expr.literal (.number x)).render = (Value.number x).display ++ ".0" ∧
    (|z| < 2 ^ 63 →
      (toInt64 x).toInt = z ∧
      t.display = "NUMBER " ++ t.lexeme ++ " " ++ t.kind.literal ∧
      t.kind.literal = Int.repr z ++ ".0" ∧
      t.kind.literal = if z = 0 ∧ 2 ^ 63 ≤ x.toBits.toNat then "0.0"
        else (Expr.literal (.number x)).render) := by
  obtain ⟨s, m, e, hparts, hnatural, hz⟩ := parts_of_toRat?_eq h
  have hsign := Binary.negative_eq hparts
  have hdisplay : (Value.number x).display = sign s ++ Nat.repr z.natAbs := by
    simp [Value.display, Value.pieces, String.join, value, hparts, hnatural]
  have hrender : (Expr.literal (.number x)).render = sign s ++ Nat.repr z.natAbs ++ ".0" := by
    simp [Expr.render, Literal.render, inTree, hparts, hnatural]
  rw [hdisplay, hrender, ← hsign]
  refine ⟨rfl, rfl, ?_⟩
  intro hbelow
  have hlt : z.natAbs < 2 ^ 63 := by
    rw [Int.abs_eq_natAbs] at hbelow
    omega
  have hliteral : t.kind.literal = Int.repr z ++ ".0" := by
    rw [ht, Kind.literal, inToken_eq hparts hnatural hlt, ← hz]
  have hname : t.display = "NUMBER " ++ t.lexeme ++ " " ++ t.kind.literal := by
    rw [Token.display, ht]
    rfl
  refine ⟨?_, hname, hliteral, ?_⟩
  · rw [toInt_toInt64 hparts hnatural hlt, ← hz]
  · rw [hliteral]
    split_ifs with hzero
    · rw [hzero.1]
      rfl
    · have hrepr : Int.repr z = sign s ++ Nat.repr z.natAbs := by
        refine (congrArg Int.repr hz).trans (repr_signed ?_)
        intro hs hnone
        rw [hsign, decide_eq_true_eq] at hs
        exact hzero ⟨Int.natAbs_eq_zero.mp hnone, hs⟩
      rw [hrepr]

theorem toRat?_of_ofFloat (h : Binary.ofFloat x = .finite s m e) :
    toRat? x = some (if s then -(m * 2 ^ e) else m * 2 ^ e : ℚ) := by
  simp only [toRat?, h]

/-- The greatest double below the limit. -/
theorem texts_of_greatest :
    toRat? (.ofBits 0x43DFFFFFFFFFFFFF) = some ((9223372036854774784 : Int) : ℚ) ∧
    (Value.number (.ofBits 0x43DFFFFFFFFFFFFF)).display = "9223372036854774784" ∧
    (Expr.literal (.number (.ofBits 0x43DFFFFFFFFFFFFF))).render = "9223372036854774784.0" ∧
    (Token.mk (.number (.ofBits 0x43DFFFFFFFFFFFFF)) "9223372036854775000" 1).display =
      "NUMBER 9223372036854775000 9223372036854774784.0" := by
  have hparts : Binary.ofFloat (.ofBits 0x43DFFFFFFFFFFFFF) =
      .finite false (2 ^ 53 - 1) 10 := by decide
  have hvalue : toRat? (.ofBits 0x43DFFFFFFFFFFFFF) = some ((9223372036854774784 : Int) : ℚ) := by
    rw [toRat?_of_ofFloat hparts]
    norm_num
  obtain ⟨hdisplay, hrender, htoken⟩ := texts_of_toRat?_eq hvalue
    (t := ⟨.number (.ofBits 0x43DFFFFFFFFFFFFF), "9223372036854775000", 1⟩) rfl
  obtain ⟨-, hname, hliteral, -⟩ := htoken (by decide)
  refine ⟨hvalue, ?_, ?_, ?_⟩
  · rw [hdisplay]
    decide +kernel
  · rw [hrender, hdisplay]
    decide +kernel
  · rw [hname, hliteral]
    decide +kernel

end Number

end Lox
