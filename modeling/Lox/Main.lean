import Lox.Command.Perform
import Std.Time.DateTime.Timestamp

/-!
# The program

Files, input and the clock are the system's; all that is decided is decided by the modules imported
here.
-/

namespace Lox

namespace Command

/-- Enough steps for every program that ends. -/
def unbounded : Nat := Nat.pow 2 62

/-- The number that the system gives a failure. -/
def code? : IO.Error → Option UInt32
  | .noFileOrDirectory _ code _ => some code
  | .permissionDenied _ code _ => some code
  | .inappropriateType _ code _ => some code
  | .invalidArgument _ code _ => some code
  | .resourceExhausted _ code _ => some code
  | _ => none

/-- Why the system refused. The sign of the number does not matter. -/
def cause (e : IO.Error) : SystemCause :=
  match (code? e).map fun code => (min code (0 - code)).toNat with
  | some 2 => .notFound
  | some 13 => .permissionDenied
  | some 20 => .notDirectory
  | some 21 => .isDirectory
  | some 36 => .nameTooLong
  | _ => .other (toString e)

/-- Writes effects and gives the exit status. -/
def emit (e : Effects) : IO UInt32 := do
  let out ← IO.getStdout
  out.putStr e.stdout
  out.flush
  (← IO.getStderr).putStr e.stderr
  return e.exit.toUInt32

/-- Writes the effects of a command that ended. -/
def emit? : Option Effects → IO UInt32
  | some e => emit e
  | none => return 1

/-- The time in seconds. -/
def now : IO Float := do
  let t ← Std.Time.Timestamp.now
  return Float.ofInt t.toNanosecondsSinceUnixEpoch.val / 1000000000

/-- Why a file cannot be made, which is made otherwise. -/
def createFile (path : String) : IO (Option SystemFault) := do
  try
    IO.FS.writeFile path "Logger initialized\n"
    return none
  catch e => return some ⟨.createFile path, cause e⟩

/-- The contents of a file. -/
def readFile (path : String) : IO (Except SystemFault (List UInt8)) := do
  try return .ok (← IO.FS.readBinFile path).toList
  catch e =>
    match cause e with
    | .isDirectory => return .error ⟨.readFile path, .noDevice⟩
    | c => return .error ⟨.openFile path, c⟩

/-- The next line of the input, up to and with its line end. -/
partial def nextLine (input : IO.FS.Stream) (line : ByteArray) : IO ByteArray := do
  let b ← input.read 1
  if b.isEmpty then return line
  else if b.toList == [0x0A] then return line ++ b
  else nextLine input (line ++ b)

/-- Reads and runs lines until there are none. -/
partial def interact (s : Session) : IO UInt32 := do
  let out ← IO.getStdout
  out.putStr Prompt.text
  out.flush
  let bytes ← nextLine (← IO.getStdin) ByteArray.empty
  match Prompt.lines bytes.toList with
  | [] =>
    out.putStr "\n"
    return 0
  | line :: _ =>
    match Prompt.runLine unbounded s line with
    | some (.ok (printed, reported, s)) =>
      out.putStr printed
      out.flush
      (← IO.getStderr).putStr reported
      interact s
    | some (.error e) => emit (Effects.ofFault e)
    | none => return 1

/-- Carries out a command. -/
def start (i : Invocation) : IO UInt32 := do
  let s := session i (Interpreter.clockFrom (← now))
  let refused ← match i.log with
    | some path => createFile path
    | none => pure none
  match refused with
  | some e => emit (Effects.ofFault e)
  | none =>
    if i.isInteractive then interact s
    else match i.file with
      | none => emit Effects.noFile
      | some path =>
        match ← readFile path with
        | .ok source => emit? (onSource unbounded i s source)
        | .error e => emit (Effects.ofFault e)

end Command

end Lox

/-- Runs the program. -/
def main (arguments : List String) : IO UInt32 :=
  match Lox.Invocation.ofArguments arguments with
  | .ok i => Lox.Command.start i
  | .error r => Lox.Command.emit (Lox.Effects.ofRefusal r)
