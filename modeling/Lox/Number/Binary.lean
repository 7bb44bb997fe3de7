/-!
# Doubles taken apart

A finite double is `± mantissa * 2 ^ exponent` with natural mantissa. Everything that is written
about a number (its digits, whether it is an integer) is computed from these parts in exact
arithmetic.
-/

namespace Lox

/-- The parts of a double. -/
inductive Binary where
  | nan
  | infinite (negative : Bool)
  /-- The value `mantissa * 2 ^ exponent`, negated if `negative`. -/
  | finite (negative : Bool) (mantissa : Nat) (exponent : Int)
  deriving DecidableEq, Repr

namespace Binary

/-- The parts that the 64 bits of a double stand for: a sign bit, eleven bits of exponent and 52
bits of fraction. The least exponent is shared with the numbers below the normal range. -/
def ofBits (bits : UInt64) : Binary :=
  let n := bits.toNat
  let negative := decide (Nat.pow 2 63 ≤ n)
  let scale : Nat := n / Nat.pow 2 52 % Nat.pow 2 11
  let fraction : Nat := n % Nat.pow 2 52
  if scale = 2047 then
    if fraction = 0 then .infinite negative else .nan
  else if scale = 0 then .finite negative fraction (-1074)
  else .finite negative (Nat.pow 2 52 + fraction) ((scale : Int) - 1075)

/-- The parts of a double. -/
def ofFloat (x : Float) : Binary :=
  ofBits x.toBits

/-- The natural number `mantissa * 2 ^ exponent`, if it is one. -/
def natural? (mantissa : Nat) (exponent : Int) : Option Nat :=
  if 0 ≤ exponent then some (mantissa * Nat.pow 2 exponent.toNat)
  else if mantissa % Nat.pow 2 (-exponent).toNat = 0 then
    some (mantissa / Nat.pow 2 (-exponent).toNat)
  else none

end Binary

end Lox
