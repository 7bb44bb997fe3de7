import Lox.Syntax.Basic
import Lox.Syntax.ParseError

/-!
# Reading tokens

A reader takes tokens from the front of a list. It either gives a value or fails with an error, and
in both cases leaves a cursor behind: what it reported and the ids it used up stay used even if it
fails.

The list holds no end-of-source token; where it ends, errors are located at the end of the source.
-/

namespace Lox

/-- Where reading stands. -/
structure Cursor where
  /-- The tokens not yet read. -/
  rest : List Token
  /-- The line on which the source ends. -/
  endLine : Nat
  /-- The first id not yet given to a node. -/
  nextId : NodeId
  /-- The errors reported so far, in order. -/
  errors : List ParseError
  /-- Whether reading has gone wrong so far. -/
  hadError : Bool

namespace Cursor

/-- A cursor at the front of a token list. Tokens from the first end-of-source token on are not
looked at. A list without one ends on the line of its last token. -/
def ofTokens (tokens : List Token) (nextId : NodeId) : Cursor :=
  { rest := tokens.takeWhile fun t => !t.kind.isEof
    endLine := match tokens.find? fun t => t.kind.isEof with
      | some t => t.line
      | none => (tokens.getLast?.map Token.line).getD 1
    nextId := nextId
    errors := []
    hadError := false }

/-- The token at which an error is located: the next one, or the end of the source. -/
def here (c : Cursor) : Token :=
  match c.rest with
  | t :: _ => t
  | [] => ⟨.eof, "", c.endLine⟩

/-- Adds a report, and notes that reading has gone wrong. -/
def report (c : Cursor) (e : ParseError) : Cursor :=
  { c with errors := c.errors ++ [e], hadError := true }

/-- Whether a kind begins a statement at which reading can start again after an error. -/
def startsStatement : Kind → Bool
  | .keyword .classWord | .keyword .funWord | .keyword .varWord | .keyword .forWord => true
  | .keyword .ifWord | .keyword .whileWord | .keyword .printWord | .keyword .returnWord => true
  | _ => false

/-- Drops tokens until the one just dropped is a semicolon or the next one begins a statement. -/
def skipAfter (dropped : Token) : List Token → List Token
  | [] => []
  | t :: rest =>
    if dropped.kind.isSymbol .semicolon || startsStatement t.kind then t :: rest
    else skipAfter t rest

/-- Drops the token at which reading failed, and goes on to the next place to start again. -/
def skip : List Token → List Token
  | [] => []
  | t :: rest => skipAfter t rest

/-- Goes on to the next place at which reading can start again. -/
def synchronize (c : Cursor) : Cursor :=
  { c with rest := skip c.rest }

end Cursor

/-- What a reader gives: a value, or an error that ends it; and where reading stands after it. -/
inductive Reading (α : Type) where
  | done (value : α) (after : Cursor)
  | failed (error : ParseError) (after : Cursor)

/-- A reader of values. -/
def Reader (α : Type) := Cursor → Reading α

namespace Reader

variable {α β : Type}

/-- Reads nothing. -/
@[inline] def pure (a : α) : Reader α :=
  fun c => .done a c

/-- Reads twice, the second time as the first value says. -/
@[inline] def bind (r : Reader α) (f : α → Reader β) : Reader β :=
  fun c => match r c with
    | .done a c' => f a c'
    | .failed e c' => .failed e c'

instance : Monad Reader where
  pure := Reader.pure
  bind := Reader.bind

/-- Fails at the next token. -/
def failHere (fault : ParseFault) : Reader α :=
  fun c => .failed (.at c.here fault) c

/-- Reports an error and goes on. -/
def report (e : ParseError) : Reader Unit :=
  fun c => .done () (c.report e)

/-- Reports an error at the next token and goes on. -/
def reportHere (fault : ParseFault) : Reader Unit :=
  fun c => .done () (c.report (.at c.here fault))

/-- A new id. -/
def fresh : Reader NodeId :=
  fun c => .done c.nextId { c with nextId := c.nextId + 1 }

/-- Whether all tokens have been read. -/
def atEnd : Reader Bool :=
  fun c => .done c.rest.isEmpty c

/-- Whether the next token is of a kind, without reading it. -/
def check (p : Kind → Bool) : Reader Bool :=
  fun c => .done (match c.rest with | t :: _ => p t.kind | [] => false) c

/-- Reads the next token if it is of a kind. -/
def accept (p : Kind → Bool) : Reader (Option Token) :=
  fun c => match c.rest with
    | t :: rest => if p t.kind then .done (some t) { c with rest := rest } else .done none c
    | [] => .done none c

/-- Reads a token of a kind, and fails if the next one is another. -/
def expect (p : Kind → Bool) (fault : ParseFault) : Reader Token :=
  fun c => match c.rest with
    | t :: rest =>
      if p t.kind then .done t { c with rest := rest } else .failed (.at c.here fault) c
    | [] => .failed (.at c.here fault) c

/-- Reads a symbol, and fails if the next token is another. -/
def expectSymbol (s : Symbol) (fault : ParseFault) : Reader Token :=
  expect (Kind.isSymbol s) fault

/-- Reads a name, and fails if the next token is none. -/
def expectName (fault : ParseFault) : Reader Token :=
  expect Kind.isIdentifier fault

/-- Reads the next token if it is a symbol. -/
def acceptSymbol (s : Symbol) : Reader (Option Token) :=
  accept (Kind.isSymbol s)

/-- Reads the next token if it is a reserved word. -/
def acceptKeyword (k : Keyword) : Reader (Option Token) :=
  accept (Kind.isKeyword k)

/-- Reads, and on failure reports the error and goes on to where reading can start again. -/
def recovering (r : Reader α) : Reader (Option α) :=
  fun c => match r c with
    | .done a c' => .done (some a) c'
    | .failed e c' => .done none (c'.report e).synchronize

end Reader

end Lox
