import Lox.Json.Basic

/-!
# Tokens

A token is a piece of source text with its kind and the line on which it ends. Kinds fall into fixed
symbols, reserved words, names, literals (which carry their value) and the end of the text.
-/

namespace Lox

/-- The punctuation and operators of Lox. -/
inductive Symbol where
  | leftParen | rightParen | leftBrace | rightBrace
  | comma | dot | minus | plus | semicolon | slash | star
  | bang | bangEqual | equal | equalEqual | greater | greaterEqual | less | lessEqual
  deriving DecidableEq, Repr

/-- The reserved words of Lox. -/
inductive Keyword where
  | andWord | classWord | elseWord | falseWord | funWord | forWord | ifWord | nilWord
  | orWord | printWord | returnWord | superWord | thisWord | trueWord | varWord | whileWord
  deriving DecidableEq, Repr

/-- What a token is. -/
inductive Kind where
  | symbol (s : Symbol)
  | keyword (k : Keyword)
  | identifier
  /-- A string literal and its text without the quotes. -/
  | string (text : String)
  /-- A number literal and its value. -/
  | number (value : Float)
  /-- The end of the source. -/
  | eof

/-- A token: its kind, its text in the source, and the line on which it ends. -/
structure Token where
  kind : Kind
  lexeme : String
  line : Nat

/-! ## Names of kinds -/

namespace Symbol

/-- The name of a symbol in token lists. -/
def name : Symbol → String
  | leftParen => "LEFT_PAREN"
  | rightParen => "RIGHT_PAREN"
  | leftBrace => "LEFT_BRACE"
  | rightBrace => "RIGHT_BRACE"
  | comma => "COMMA"
  | dot => "DOT"
  | minus => "MINUS"
  | plus => "PLUS"
  | semicolon => "SEMICOLON"
  | slash => "SLASH"
  | star => "STAR"
  | bang => "BANG"
  | bangEqual => "BANG_EQUAL"
  | equal => "EQUAL"
  | equalEqual => "EQUAL_EQUAL"
  | greater => "GREATER"
  | greaterEqual => "GREATER_EQUAL"
  | less => "LESS"
  | lessEqual => "LESS_EQUAL"

/-- All symbols. -/
def all : List Symbol :=
  [leftParen, rightParen, leftBrace, rightBrace, comma, dot, minus, plus, semicolon, slash, star,
   bang, bangEqual, equal, equalEqual, greater, greaterEqual, less, lessEqual]

/-- The symbol that one byte spells, whatever follows it. The slash is here although two of them
open a comment. -/
def ofByte? (b : UInt8) : Option Symbol :=
  if b = 0x28 then some leftParen
  else if b = 0x29 then some rightParen
  else if b = 0x7B then some leftBrace
  else if b = 0x7D then some rightBrace
  else if b = 0x2C then some comma
  else if b = 0x2E then some dot
  else if b = 0x2D then some minus
  else if b = 0x2B then some plus
  else if b = 0x3B then some semicolon
  else if b = 0x2F then some slash
  else if b = 0x2A then some star
  else if b = 0x21 then some bang
  else if b = 0x3D then some equal
  else if b = 0x3E then some greater
  else if b = 0x3C then some less
  else none

/-- The symbol that a symbol becomes when an equals sign follows it directly. -/
def withEqual? : Symbol → Option Symbol
  | bang => some bangEqual
  | equal => some equalEqual
  | greater => some greaterEqual
  | less => some lessEqual
  | _ => none

end Symbol

namespace Keyword

/-- The spelling of a reserved word. -/
def text : Keyword → String
  | andWord => "and"
  | classWord => "class"
  | elseWord => "else"
  | falseWord => "false"
  | funWord => "fun"
  | forWord => "for"
  | ifWord => "if"
  | nilWord => "nil"
  | orWord => "or"
  | printWord => "print"
  | returnWord => "return"
  | superWord => "super"
  | thisWord => "this"
  | trueWord => "true"
  | varWord => "var"
  | whileWord => "while"

/-- The name of a reserved word in token lists. -/
def name : Keyword → String
  | andWord => "AND"
  | classWord => "CLASS"
  | elseWord => "ELSE"
  | falseWord => "FALSE"
  | funWord => "FUN"
  | forWord => "FOR"
  | ifWord => "IF"
  | nilWord => "NIL"
  | orWord => "OR"
  | printWord => "PRINT"
  | returnWord => "RETURN"
  | superWord => "SUPER"
  | thisWord => "THIS"
  | trueWord => "TRUE"
  | varWord => "VAR"
  | whileWord => "WHILE"

/-- All reserved words. -/
def all : List Keyword :=
  [andWord, classWord, elseWord, falseWord, funWord, forWord, ifWord, nilWord, orWord, printWord,
   returnWord, superWord, thisWord, trueWord, varWord, whileWord]

/-- The reserved word that a text spells. -/
def ofText? (s : String) : Option Keyword :=
  all.find? fun k => k.text == s

end Keyword

namespace Kind

/-- The name of a kind in token lists. The value of a literal does not show in it. -/
def name : Kind → String
  | symbol s => s.name
  | keyword k => k.name
  | identifier => "IDENTIFIER"
  | string _ => "STRING"
  | number _ => "NUMBER"
  | eof => "EOF"

/-- The kind that a name and the values of a literal stand for. A literal's value is taken only
where the name asks for it. -/
def ofName? (name text : String) (value : Float) : Option Kind :=
  if name = "IDENTIFIER" then some identifier
  else if name = "STRING" then some (string text)
  else if name = "NUMBER" then some (number value)
  else if name = "EOF" then some eof
  else match Symbol.all.find? fun s => s.name == name with
    | some s => some (symbol s)
    | none => (Keyword.all.find? fun k => k.name == name).map keyword

/-- Whether two kinds agree, the values of literals apart. -/
def same : Kind → Kind → Bool
  | symbol s, symbol t => s == t
  | keyword k, keyword l => k == l
  | identifier, identifier => true
  | string _, string _ => true
  | number _, number _ => true
  | eof, eof => true
  | _, _ => false

/-- Whether this is the kind of the end of the source. -/
def isEof : Kind → Bool
  | eof => true
  | _ => false

/-- Whether this is a given symbol. -/
def isSymbol (s : Symbol) : Kind → Bool
  | symbol t => s == t
  | _ => false

/-- Whether this is a given reserved word. -/
def isKeyword (k : Keyword) : Kind → Bool
  | keyword l => k == l
  | _ => false

/-- Whether this is the kind of names. -/
def isIdentifier : Kind → Bool
  | identifier => true
  | _ => false

/-- The value of a literal as token lists show it. -/
def literal : Kind → String
  | string s => s
  | number x => Number.inToken x
  | _ => "null"

/-- A kind in JSON: its name, or an object with the value of the literal under that name. -/
def toJson : Kind → Json
  | string s => .object [.mk "STRING" (.string s)]
  | number x => .object [.mk "NUMBER" (.number x)]
  | k => .string k.name

end Kind

namespace Token

/-- Whether two tokens agree in kind, text and line, the values of literals apart. -/
def same (s t : Token) : Bool :=
  s.kind.same t.kind && s.lexeme == t.lexeme && s.line == t.line

/-- Where a report says that it stands. -/
def location (t : Token) : String :=
  if t.kind.isEof then " at end" else " at '" ++ t.lexeme ++ "'"

/-- A token on a line of a token list. -/
def display (t : Token) : String :=
  t.kind.name ++ " " ++ t.lexeme ++ " " ++ t.kind.literal

/-- A token in JSON. -/
def toJson (t : Token) : Json :=
  .object [.mk "token_type" t.kind.toJson, .mk "lexeme" (.string t.lexeme),
    .mk "line" (.nat t.line)]

end Token

end Lox
