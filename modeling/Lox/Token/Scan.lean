import Lox.Diagnostic
import Lox.Token.Segment

/-!
# The tokens of a source

Every segment that is not a blank, a line end or a comment gives one item: a token, or a lexical
error. An item's line is the line on which its segment ends, so a string over several lines counts
where it closes. After the last segment comes the end-of-source token.
-/

namespace Lox

/-- Why a segment is no token. -/
inductive LexFault where
  /-- A byte that starts nothing, as text. -/
  | unexpected (text : String)
  /-- A string that is never closed. -/
  | unterminated
  deriving DecidableEq, Repr

/-- The wording of a lexical fault. -/
def LexFault.message : LexFault → String
  | .unexpected text => "Unexpected character: " ++ text
  | .unterminated => "Unterminated string."

/-- A lexical error and its line. -/
structure LexError where
  fault : LexFault
  line : Nat
  deriving DecidableEq, Repr

/-- The report of a lexical error. -/
def LexError.diagnostic (e : LexError) : Diagnostic :=
  .lex e.line e.fault.message

/-- What the scanner gives for a segment. -/
abbrev Item := Except LexError Token

namespace Segment

/-- The text of a segment. -/
def text (s : Segment) : String :=
  Utf8.lossy s.bytes

/-- The values of decimal digits. -/
def digitValues (bytes : List UInt8) : List Nat :=
  bytes.map fun b => b.toNat - 0x30

/-- The value of a number segment: the digits before the point and those after it. -/
def numberValue (bytes : List UInt8) : Float :=
  Number.ofDigits (digitValues (bytes.takeWhile Byte.isDigit))
    (digitValues ((bytes.dropWhile Byte.isDigit).drop 1))

/-- The bytes between the quotes of a string segment. -/
def stringBody (bytes : List UInt8) : List UInt8 :=
  (bytes.drop 1).dropLast

/-- A word is reserved or a name. -/
def wordKind (text : String) : Kind :=
  match Keyword.ofText? text with
  | some k => .keyword k
  | none => .identifier

/-- What a segment gives, on the line on which it ends. -/
def item? (s : Segment) (line : Nat) : Option Item :=
  match s.form with
  | .blank | .newline | .comment => none
  | .symbol sym => some (.ok ⟨.symbol sym, s.text, line⟩)
  | .string => some (.ok ⟨.string (Utf8.lossy (stringBody s.bytes)), s.text, line⟩)
  | .number => some (.ok ⟨.number (numberValue s.bytes), s.text, line⟩)
  | .word => some (.ok ⟨wordKind s.text, s.text, line⟩)
  | .unclosed => some (.error ⟨.unterminated, line⟩)
  | .stray => some (.error ⟨.unexpected s.text, line⟩)

/-- The items of segments that start on a line, and the end-of-source token on the last line. -/
def items (line : Nat) : List Segment → List Item
  | [] => [.ok ⟨.eof, "", line⟩]
  | s :: rest =>
    (s.item? (line + s.lineEnds)).toList ++ items (line + s.lineEnds) rest

end Segment

/-- The result of scanning a source: its tokens and its lexical errors, each in order, and whether
scanning has gone wrong. -/
structure Scan where
  tokens : List Token
  errors : List LexError
  hadError : Bool

namespace Scan

/-- The items of a source in order. Lines count from one. -/
def items (source : List UInt8) : List Item :=
  Segment.items 1 (Segment.cut source)

/-- A scan with one item more at its front. An error is reported, and notes that scanning has gone
wrong. -/
def cons (item : Item) (scan : Scan) : Scan :=
  match item with
  | .ok t => { scan with tokens := t :: scan.tokens }
  | .error e => { scan with errors := e :: scan.errors, hadError := true }

/-- Tokens and errors apart. -/
def ofItems : List Item → Scan
  | [] => ⟨[], [], false⟩
  | item :: rest => (ofItems rest).cons item

/-- The tokens and lexical errors of a source. -/
def ofSource (source : List UInt8) : Scan :=
  ofItems (items source)

end Scan

end Lox
