/-!
# The fewest decimal digits that read back

A double stands for all reals that round to it: an interval around its value, whose ends belong to
it if the mantissa is even. `Decimal.shortest` looks for the decimal with the fewest digits in that
interval, and among those for the one nearest to the value. It tries 1, 2, … 17 digits; on each grid
only the value's two neighbours can be the answer. All tests are between natural numbers.
-/

namespace Lox

/-- The decimal `digits * 10 ^ exponent`. -/
structure Decimal where
  digits : Nat
  exponent : Int
  deriving DecidableEq, Repr

/-- Which neighbour is taken when both are equally near. -/
inductive Tie where
  | up
  | toEven
  deriving DecidableEq, Repr

namespace Decimal

/-- The number of decimal digits of a natural number; zero has one. -/
def width (n : Nat) : Nat :=
  (Nat.toDigits 10 n).length

/-- The reals that round to a double, over one denominator: `low`, `value` and `high` are the ends
and the value themselves, each divided by `unit`. -/
structure Interval where
  low : Nat
  value : Nat
  high : Nat
  unit : Nat
  closed : Bool
  deriving DecidableEq, Repr

/-- The interval of `mantissa * 2 ^ exponent`. The gap below is half as wide as the gap above at the
first mantissa of a binade, unless the numbers below have the same spacing. -/
def interval (mantissa : Nat) (exponent : Int) : Interval :=
  let below := if mantissa = Nat.pow 2 52 ∧ -1074 < exponent then 1 else 2
  let scale := Nat.pow 2 (exponent - 2).toNat
  { low := (4 * mantissa - below) * scale
    value := 4 * mantissa * scale
    high := (4 * mantissa + 2) * scale
    unit := Nat.pow 2 (2 - exponent).toNat
    closed := mantissa % 2 = 0 }

/-- The exponent of the leading decimal digit of `n / d`, for positive `n` and `d`. -/
def leading (n d : Nat) : Int :=
  if d ≤ n then (width (n / d) : Int) - 1
  else -(width ((d + n - 1) / n - 1) : Int)

/-- The same interval measured in units of `10 ^ k`. -/
def Interval.onGrid (i : Interval) (k : Int) : Interval :=
  let up := Nat.pow 10 (-k).toNat
  { i with
    low := i.low * up, value := i.value * up, high := i.high * up,
    unit := i.unit * Nat.pow 10 k.toNat }

/-- Whether the grid point `c` lies in the interval. -/
def Interval.holds (i : Interval) (c : Nat) : Bool :=
  if i.closed then i.low ≤ c * i.unit && c * i.unit ≤ i.high
  else i.low < c * i.unit && c * i.unit < i.high

/-- The grid point nearest to the value among its two neighbours that lie in the interval. -/
def Interval.nearest? (tie : Tie) (i : Interval) : Option Nat :=
  let c := i.value / i.unit
  match i.holds c, i.holds (c + 1) with
  | false, false => none
  | true, false => some c
  | false, true => some (c + 1)
  | true, true =>
    let twice := 2 * (i.value - c * i.unit)
    if twice < i.unit then some c
    else if i.unit < twice then some (c + 1)
    else match tie with
      | .up => some (c + 1)
      | .toEven => some (if c % 2 = 0 then c else c + 1)

/-- Moves trailing zeros of the digits into the exponent. `steps` bounds how many are looked for. -/
def trim : Nat → Decimal → Decimal
  | 0, d => d
  | steps + 1, d =>
    if d.digits ≠ 0 ∧ d.digits % 10 = 0 then trim steps ⟨d.digits / 10, d.exponent + 1⟩ else d

/-- Tries grids with one digit more each time, `more` of them at most. -/
def search (tie : Tie) (i : Interval) (top : Int) : Nat → Nat → Option Decimal
  | _, 0 => none
  | n, more + 1 =>
    let k := top - n
    match (i.onGrid k).nearest? tie with
    | some c => some (trim 17 ⟨c, k⟩)
    | none => search tie i top (n + 1) more

/-- The shortest decimal that reads back as `mantissa * 2 ^ exponent`; zero is zero. Seventeen
digits always suffice, so the search does not end without an answer. -/
def shortest (tie : Tie) (mantissa : Nat) (exponent : Int) : Decimal :=
  if mantissa = 0 then ⟨0, 0⟩
  else
    let i := interval mantissa exponent
    (search tie i (leading i.value i.unit) 0 17).getD ⟨0, 0⟩

/-- The digits as text. -/
def text (d : Decimal) : String :=
  Nat.repr d.digits

/-- The exponent of the first digit. -/
def order (d : Decimal) : Int :=
  (width d.digits : Int) + d.exponent - 1

/-- `n` zeros. -/
def zeros (n : Nat) : String :=
  String.ofList (List.replicate n '0')

/-- Positional notation, filled up with zeros to the decimal point on either side. -/
def positional (d : Decimal) : String :=
  if 0 ≤ d.exponent then d.text ++ zeros d.exponent.toNat
  else
    let ds := d.text.toList
    let places := (-d.exponent).toNat
    if places < ds.length then
      String.ofList (ds.take (ds.length - places)) ++ "." ++
        String.ofList (ds.drop (ds.length - places))
    else "0." ++ zeros (places - ds.length) ++ d.text

/-- One digit before the point, and the exponent after `e`. A positive exponent follows the text
`plus`. -/
def scientific (plus : String) (d : Decimal) : String :=
  let ds := d.text.toList
  let fraction := if ds.length ≤ 1 then "" else "." ++ String.ofList (ds.drop 1)
  let exponent :=
    if 0 ≤ d.order then plus ++ Nat.repr d.order.toNat else "-" ++ Nat.repr (-d.order).toNat
  String.ofList (ds.take 1) ++ fraction ++ "e" ++ exponent

/-- Positional notation with at least one place after the point. -/
def withPoint (d : Decimal) : String :=
  if 0 ≤ d.exponent then d.positional ++ ".0" else d.positional

end Decimal

end Lox
