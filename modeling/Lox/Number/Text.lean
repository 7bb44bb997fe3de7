import Lox.Number.Binary
import Lox.Number.Decimal

/-!
# How numbers are written

Numbers appear in five places, each with decisions of its own.

| place | integers | other numbers |
|---|---|---|
| printed values | every digit | shortest digits |
| trees | every digit, then `.0` | shortest digits |
| token lists | every digit, then `.0`, below `2 ^ 63` | shortest digits |
| JSON | shortest digits with `.0`, exponent from `e+16` on | exponent from `e-6` down |
| descriptions | shortest digits with `.0`, exponent from `e16` on | exponent from `e-5` down |

Shortest digits never carry an exponent in the first three. From `2 ^ 63` on an integer in a token
list has its shortest digits, filled with zeros. An exact tie between two shortest decimals goes up,
in JSON to the even digit.
-/

namespace Lox.Number

/-- The sign of a negative number. -/
def sign (negative : Bool) : String :=
  if negative then "-" else ""

/-- The text of a number that is not finite. -/
def infinity (negative : Bool) : String :=
  sign negative ++ "inf"

/-- A number as `print` writes it. -/
def value (x : Float) : String :=
  match Binary.ofFloat x with
  | .nan => "NaN"
  | .infinite s => infinity s
  | .finite s m e =>
    match Binary.natural? m e with
    | some n => sign s ++ Nat.repr n
    | none => sign s ++ (Decimal.shortest .up m e).positional

/-- A number as it stands in a printed tree. -/
def inTree (x : Float) : String :=
  match Binary.ofFloat x with
  | .nan => "NaN"
  | .infinite s => infinity s
  | .finite s m e =>
    match Binary.natural? m e with
    | some n => sign s ++ Nat.repr n ++ ".0"
    | none => sign s ++ (Decimal.shortest .up m e).positional

/-- The greatest 64-bit integer as a double. It has more bits than a mantissa, and is rounded up to
`2 ^ 63`. -/
def integerLimit : Float :=
  .ofModel (.ofInt64 Int64.maxValue)

/-- The 64-bit integer that a double is converted to: its places are cut off, and outside the range
of these integers it becomes the nearest of them. -/
def toInt64 (x : Float) : Int64 :=
  x.toModel.toInt64

/-- A number as it stands in a printed token. Integers below the limit are converted, so that a zero
has no sign. -/
def inToken (x : Float) : String :=
  match Binary.ofFloat x with
  | .nan => "NaN"
  | .infinite s => infinity s
  | .finite s m e =>
    if (Binary.natural? m e).isSome ∧ x.abs < integerLimit then Int.repr (toInt64 x).toInt ++ ".0"
    else sign s ++ (Decimal.shortest .up m e).positional

/-- A number in JSON; numbers that are not finite have none. -/
def json? (x : Float) : Option String :=
  match Binary.ofFloat x with
  | .nan => none
  | .infinite _ => none
  | .finite s m e =>
    let d := Decimal.shortest .toEven m e
    some (sign s ++ if -5 ≤ d.order ∧ d.order ≤ 15 then d.withPoint else d.scientific "+")

/-- A number in the description of a value. -/
def description (x : Float) : String :=
  match Binary.ofFloat x with
  | .nan => "NaN"
  | .infinite s => infinity s
  | .finite s m e =>
    let d := Decimal.shortest .up m e
    sign s ++ if -4 ≤ d.order ∧ d.order ≤ 15 then d.withPoint else d.scientific ""

/-- The number that decimal digits with a point stand for: `whole` before the point, `places` after
it. -/
def ofDigits (whole places : List Nat) : Float :=
  Float.ofScientific ((whole ++ places).foldl (fun n d => 10 * n + d) 0) true places.length

end Lox.Number
