import Lox.Token.Basic

/-!
# Cutting a source into segments

A source is a list of bytes. It is cut from the front into segments, each the longest piece of its
form that can be read there: a blank, a line end, a comment, a symbol, a string, a number or a word.
A string without its closing quote takes all that is left, and a byte that starts nothing else is a
segment of its own. The segments laid end to end are the source.

## Termination

`Segment.first` takes the first byte at least (`Segment.length_afterFirst_lt`), so the cutting loop
ends because the rest gets shorter.
-/

namespace Lox

/-- The form of a segment. -/
inductive Form where
  /-- A blank, a tab or a carriage return. -/
  | blank
  /-- A line end. -/
  | newline
  /-- Two slashes and what follows them on the line. -/
  | comment
  | symbol (s : Symbol)
  /-- A string with both quotes. -/
  | string
  /-- Digits, and after a point more digits. -/
  | number
  /-- A name or a reserved word. -/
  | word
  /-- A quote that is never closed, and all that follows it. -/
  | unclosed
  /-- A byte that starts nothing. -/
  | stray
  deriving DecidableEq, Repr

/-- A piece of a source. -/
structure Segment where
  form : Form
  bytes : List UInt8
  deriving DecidableEq, Repr

namespace Byte

/-- The byte that ends a line. -/
def newline : UInt8 := 0x0A

/-- The double quote. -/
def quote : UInt8 := 0x22

/-- The slash. -/
def slash : UInt8 := 0x2F

/-- The point. -/
def point : UInt8 := 0x2E

/-- The equals sign. -/
def equal : UInt8 := 0x3D

/-- Bytes that only separate: the blank, the tab and the carriage return. -/
def isBlank (b : UInt8) : Bool :=
  b == 0x20 || b == 0x09 || b == 0x0D

/-- The decimal digits. -/
def isDigit (b : UInt8) : Bool :=
  0x30 ≤ b && b ≤ 0x39

/-- The bytes that start a word: ASCII letters and the underscore. -/
def isWordStart (b : UInt8) : Bool :=
  (0x41 ≤ b && b ≤ 0x5A) || (0x61 ≤ b && b ≤ 0x7A) || b == 0x5F

/-- The bytes that continue a word. -/
def isWordPart (b : UInt8) : Bool :=
  isWordStart b || isDigit b

end Byte

namespace Segment

/-- The places after the point of a number: a point with at least one digit after it. -/
def fraction (bytes : List UInt8) : List UInt8 :=
  match bytes with
  | p :: d :: rest =>
    if p == Byte.point && Byte.isDigit d then p :: d :: rest.takeWhile Byte.isDigit else []
  | _ => []

/-- The rest of a string after its opening quote: the body with the closing quote, if there is
one. -/
def stringTail? (bytes : List UInt8) : Option (List UInt8) :=
  match bytes.dropWhile (· != Byte.quote) with
  | [] => none
  | q :: _ => some (bytes.takeWhile (· != Byte.quote) ++ [q])

/-- The symbol that starts with byte `b`, and its further bytes. -/
def symbolTail? (b : UInt8) (rest : List UInt8) : Option (Symbol × List UInt8) :=
  match Symbol.ofByte? b with
  | none => none
  | some s =>
    match s.withEqual?, rest with
    | some t, c :: _ => if c == Byte.equal then some (t, [c]) else some (s, [])
    | _, _ => some (s, [])

/-- The form of the segment that starts with byte `b`, and its bytes after `b`. -/
def firstTail (b : UInt8) (rest : List UInt8) : Form × List UInt8 :=
  if Byte.isBlank b then (.blank, [])
  else if b == Byte.newline then (.newline, [])
  else if b == Byte.slash && rest.head? == some Byte.slash then
    (.comment, rest.takeWhile (· != Byte.newline))
  else if b == Byte.quote then
    match stringTail? rest with
    | some tail => (.string, tail)
    | none => (.unclosed, rest)
  else if Byte.isDigit b then
    let whole := rest.takeWhile Byte.isDigit
    (.number, whole ++ fraction (rest.dropWhile Byte.isDigit))
  else if Byte.isWordStart b then (.word, rest.takeWhile Byte.isWordPart)
  else match symbolTail? b rest with
    | some (s, tail) => (.symbol s, tail)
    | none => (.stray, [])

/-- The segment that starts with byte `b`. -/
def first (b : UInt8) (rest : List UInt8) : Segment :=
  ⟨(firstTail b rest).1, b :: (firstTail b rest).2⟩

/-- What is left after the segment that starts with byte `b`. -/
def afterFirst (b : UInt8) (rest : List UInt8) : List UInt8 :=
  rest.drop (firstTail b rest).2.length

/-- A segment takes at least its first byte. -/
theorem length_afterFirst_lt (b : UInt8) (rest : List UInt8) :
    (afterFirst b rest).length < (b :: rest).length := by
  simp only [afterFirst, List.length_drop, List.length_cons]
  omega

/-- The segments of a source. -/
def cut : List UInt8 → List Segment
  | [] => []
  | b :: rest => first b rest :: cut (afterFirst b rest)
termination_by bytes => bytes.length
decreasing_by exact length_afterFirst_lt b rest

/-- By how many lines a segment moves on: by one at a line end, and in a string by one for each line
end in it. Nothing else holds a line end. -/
def lineEnds (s : Segment) : Nat :=
  match s.form with
  | .newline => 1
  | .string | .unclosed => s.bytes.count Byte.newline
  | _ => 0

end Segment

end Lox
