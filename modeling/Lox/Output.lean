/-!
# Output

What a program prints goes to an output piece by piece. An output may refuse: once a number of lines
have been written it takes nothing more, and it may fail when it is flushed at the end of a run. A
piece is taken as a whole or not at all, and an empty piece is never refused.
-/

namespace Lox

/-- Why an output failed. -/
inductive OutputFault where
  | writeRefused
  | flushRefused
  deriving DecidableEq, Repr

/-- The wording of an output's failure. -/
def OutputFault.message : OutputFault → String
  | .writeRefused => "write refused"
  | .flushRefused => "flush refused"

/-- An output and what was written to it. -/
structure Output where
  /-- What was written. -/
  text : String
  /-- How many lines were written. -/
  lines : Nat
  /-- After how many lines nothing more is taken. -/
  limit : Option Nat
  /-- Whether flushing fails. -/
  flushFails : Bool
  deriving DecidableEq, Repr

namespace Output

/-- An output that takes everything. -/
def unlimited : Output := ⟨"", 0, none, false⟩

/-- Whether nothing more is taken. -/
def isFull (o : Output) : Bool :=
  match o.limit with
  | some n => n ≤ o.lines
  | none => false

/-- How many lines end in a text. -/
def lineEnds (s : String) : Nat :=
  s.foldl (fun n c => if c = '\n' then n + 1 else n) 0

/-- Adds a text to what was written. -/
def append (o : Output) (s : String) : Output :=
  { o with text := o.text ++ s, lines := o.lines + lineEnds s }

/-- Writes pieces in turn, up to the first one that is refused. The flag says whether all were
taken. -/
def write (o : Output) : List String → Output × Bool
  | [] => (o, true)
  | s :: rest =>
    if s.isEmpty then o.write rest
    else if o.isFull then (o, false)
    else (o.append s).write rest

/-- Forgets what was written so far, but not how many lines it had. -/
def drain (o : Output) : Output :=
  { o with text := "" }

end Output

end Lox
