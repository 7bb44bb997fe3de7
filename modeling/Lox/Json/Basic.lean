import Lox.Number.Text

/-!
# JSON texts

Token lists and trees can be dumped as JSON. The dump is built as a `Json` value, whose objects keep
their fields in order, and then written either on one line (`Json.compact`) or with one item a line
(`Json.pretty`).
-/

namespace Lox

mutual

/-- A JSON value. -/
inductive Json where
  | null
  | nat (n : Nat)
  /-- A double; one that is not finite is written as `null`. -/
  | number (x : Float)
  | string (s : String)
  | array (items : List Json)
  | object (fields : List Json.Field)

/-- A field of a JSON object. -/
inductive Json.Field where
  | mk (key : String) (value : Json)

end

namespace Json

/-! ## Strings -/

/-- A hexadecimal digit in lower case. -/
def hexDigit (n : Nat) : Char :=
  Char.ofNat (if n < 10 then 0x30 + n else 0x57 + n)

/-- How one character stands in a JSON string. -/
def escape (c : Char) : String :=
  if c = '"' then "\\\""
  else if c = '\\' then "\\\\"
  else if c = '\n' then "\\n"
  else if c = '\r' then "\\r"
  else if c = '\t' then "\\t"
  else if c = '\x08' then "\\b"
  else if c = '\x0c' then "\\f"
  else if c.toNat < 0x20 then
    "\\u00" ++ String.ofList [hexDigit (c.toNat / 16), hexDigit (c.toNat % 16)]
  else String.singleton c

/-- A JSON string. -/
def quote (s : String) : String :=
  "\"" ++ String.join (s.toList.map escape) ++ "\""

/-- A JSON number. -/
def numeral (x : Float) : String :=
  (Number.json? x).getD "null"

/-! ## One line -/

mutual

/-- The text on one line, without blanks. -/
def compact : Json → String
  | .null => "null"
  | .nat n => Nat.repr n
  | .number x => numeral x
  | .string s => quote s
  | .array items => "[" ++ ",".intercalate (compactItems items) ++ "]"
  | .object fields => "\x7b" ++ ",".intercalate (compactFields fields) ++ "\x7d"

/-- The texts of the items of an array. -/
def compactItems : List Json → List String
  | [] => []
  | j :: rest => compact j :: compactItems rest

/-- The text of a field. -/
def compactField : Field → String
  | .mk key value => quote key ++ ":" ++ compact value

/-- The texts of the fields of an object. -/
def compactFields : List Field → List String
  | [] => []
  | f :: rest => compactField f :: compactFields rest

end

/-! ## One item a line -/

/-- The blanks before a line at a depth, two for each level. -/
def indentation (depth : Nat) : String :=
  String.ofList (List.replicate (2 * depth) ' ')

/-- Items on lines of their own, between two brackets; nothing stands between the brackets if there
are no items. -/
def lines (opening closing : String) (depth : Nat) (items : List String) : String :=
  if items.isEmpty then opening ++ closing
  else
    let inner := indentation (depth + 1)
    opening ++ "\n" ++ ",\n".intercalate (items.map (inner ++ ·)) ++ "\n" ++ indentation depth ++
    closing

mutual

/-- The text with one item a line, at a depth. -/
def prettyAt (depth : Nat) : Json → String
  | .null => "null"
  | .nat n => Nat.repr n
  | .number x => numeral x
  | .string s => quote s
  | .array items => lines "[" "]" depth (prettyItems (depth + 1) items)
  | .object fields => lines "\x7b" "\x7d" depth (prettyFields (depth + 1) fields)

/-- The texts of the items of an array. -/
def prettyItems (depth : Nat) : List Json → List String
  | [] => []
  | j :: rest => prettyAt depth j :: prettyItems depth rest

/-- The text of a field. -/
def prettyField (depth : Nat) : Field → String
  | .mk key value => quote key ++ ": " ++ prettyAt depth value

/-- The texts of the fields of an object. -/
def prettyFields (depth : Nat) : List Field → List String
  | [] => []
  | f :: rest => prettyField depth f :: prettyFields depth rest

end

/-- The text with one item a line. -/
def pretty (j : Json) : String :=
  prettyAt 0 j

end Json

end Lox
