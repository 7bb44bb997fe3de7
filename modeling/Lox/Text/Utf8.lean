/-!
# UTF-8 that may be broken

Source text is a list of bytes, and nothing promises that it is UTF-8. Two readings of such a list
live here.

* `Utf8.lossy` always gives a text: every piece that cannot be part of a character becomes one
  replacement character. A piece is as long as it can be while some character still begins with it.
* `Utf8.decode` gives the text only if all bytes are UTF-8, and otherwise says where the first bad
  piece starts and how long it is.

Both are driven by the same reader, which looks at one byte at a time and remembers the unfinished
character. So both recurse on the byte list itself.
-/

namespace Lox.Utf8

/-- The character that stands for a piece that is not UTF-8. -/
def replacement : Char := '\uFFFD'

/-- A character of which some bytes are still to come. -/
structure Pending where
  /-- How many bytes are missing, less the one that comes next. -/
  after : Nat
  /-- The least byte that may come next. -/
  low : UInt8
  /-- The greatest byte that may come next. -/
  high : UInt8
  /-- The bits read so far. -/
  bits : Nat
  /-- How many bytes have been read. -/
  used : Nat
  deriving DecidableEq, Repr

/-- What a byte does at the start of a character. -/
inductive Start where
  /-- It is a character of its own. -/
  | char (c : Char)
  /-- It opens a longer character. -/
  | opens (p : Pending)
  /-- No character starts with it. -/
  | bad
  deriving DecidableEq, Repr

/-- Reads the first byte of a character.

The second byte is bounded more tightly than the others after `E0` and `F0` (shorter forms exist),
after `ED` (surrogates) and after `F4` (above the last code point). -/
def start (b : UInt8) : Start :=
  let n := b.toNat
  if n < 0x80 then .char (Char.ofNat n)
  else if n < 0xC2 then .bad
  else if n < 0xE0 then .opens ⟨0, 0x80, 0xBF, n - 0xC0, 1⟩
  else if n = 0xE0 then .opens ⟨1, 0xA0, 0xBF, n - 0xE0, 1⟩
  else if n = 0xED then .opens ⟨1, 0x80, 0x9F, n - 0xE0, 1⟩
  else if n < 0xF0 then .opens ⟨1, 0x80, 0xBF, n - 0xE0, 1⟩
  else if n = 0xF0 then .opens ⟨2, 0x90, 0xBF, n - 0xF0, 1⟩
  else if n < 0xF4 then .opens ⟨2, 0x80, 0xBF, n - 0xF0, 1⟩
  else if n = 0xF4 then .opens ⟨2, 0x80, 0x8F, n - 0xF0, 1⟩
  else .bad

/-- Whether `b` can come next in an unfinished character. -/
def Pending.accepts (p : Pending) (b : UInt8) : Bool :=
  p.low ≤ b && b ≤ p.high

/-- Adds a byte that can come next: the character is complete, or another byte is missing. -/
def Pending.push (p : Pending) (b : UInt8) : Start :=
  let bits := p.bits * 64 + b.toNat % 64
  match p.after with
  | 0 => .char (Char.ofNat bits)
  | k + 1 => .opens ⟨k, 0x80, 0xBF, bits, p.used + 1⟩

/-! ## Reading with replacement -/

/-- The text that a byte adds at the start of a character, and the unfinished character it
leaves. -/
def Start.emit : Start → List Char × Option Pending
  | .char c => ([c], none)
  | .opens p => ([], some p)
  | .bad => ([replacement], none)

/-- One byte: the text it completes, and the unfinished character after it. A byte that does not fit
an unfinished character ends that character as one bad piece and is read afresh. -/
def advance (st : Option Pending) (b : UInt8) : List Char × Option Pending :=
  match st with
  | none => (start b).emit
  | some p =>
    if p.accepts b then (p.push b).emit
    else (replacement :: (start b).emit.1, (start b).emit.2)

/-- The characters of a byte list, from an unfinished character on. -/
def lossyChars : Option Pending → List UInt8 → List Char
  | none, [] => []
  | some _, [] => [replacement]
  | st, b :: rest => (advance st b).1 ++ lossyChars (advance st b).2 rest

/-- The text of a byte list, each bad piece as one replacement character. -/
def lossy (bytes : List UInt8) : String :=
  String.ofList (lossyChars none bytes)

/-! ## Reading without replacement -/

/-- Where a byte list stops being UTF-8. -/
structure Error where
  /-- The index of the first byte of the bad piece. -/
  index : Nat
  /-- The length of the bad piece; `none` if the bytes end inside a character. -/
  length : Option Nat
  deriving DecidableEq, Repr

/-- The wording of a UTF-8 error. -/
def Error.message (e : Error) : String :=
  match e.length with
  | some n => s!"invalid utf-8 sequence of {n} bytes from index {e.index}"
  | none => s!"incomplete utf-8 byte sequence from index {e.index}"

/-- The first error of a byte list, if any. `index` is where the current character started. -/
def firstError? (index : Nat) : Option Pending → List UInt8 → Option Error
  | none, [] => none
  | some _, [] => some ⟨index, none⟩
  | none, b :: rest =>
    match start b with
    | .char _ => firstError? (index + 1) none rest
    | .opens p => firstError? index (some p) rest
    | .bad => some ⟨index, some 1⟩
  | some p, b :: rest =>
    if p.accepts b then
      match p.push b with
      | .char _ => firstError? (index + p.used + 1) none rest
      | .opens q => firstError? index (some q) rest
      | .bad => some ⟨index, some p.used⟩
    else some ⟨index, some p.used⟩

/-- The text of a byte list that is UTF-8, or its first error. -/
def decode (bytes : List UInt8) : Except Error String :=
  match firstError? 0 none bytes with
  | none => .ok (lossy bytes)
  | some e => .error e

/-- The bytes of a text. -/
def encode (s : String) : List UInt8 :=
  s.toUTF8.toList

end Lox.Utf8
