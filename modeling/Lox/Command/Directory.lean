import Lox.Command.Perform

/-!
# A directory of files

A world in which the program runs in a directory that holds some files. Around it are the
directories above, the root, and the devices, of which the null device is an empty file; nothing
else is there.

A path is walked name by name. Each name is looked up where the walk stands, which has to be a
directory; so the first name that cannot be passed decides how the walk fails.
-/

namespace Lox

/-- Files by their names. -/
structure Directory where
  files : NameTable (List UInt8)

/-- Where a walk along a path stands. -/
inductive Place where
  /-- The directory in which the program runs. -/
  | here
  /-- A directory around it of which nothing is known. -/
  | around
  /-- The directory at which absolute paths start. -/
  | root
  /-- The directory of devices. -/
  | devices
  | file (contents : List UInt8)
  deriving DecidableEq, Repr

namespace Place

/-- Whether a place is a directory. -/
def isDirectory : Place → Bool
  | file _ => false
  | _ => true

/-- The directory above a directory. The root is above itself. -/
def parent : Place → Place
  | root | devices => root
  | _ => around

end Place

namespace Directory

/-! ## Paths -/

/-- The most bytes that a path may have. -/
def maxPathBytes : Nat := 4095

/-- The most bytes that a name may have. -/
def maxNameBytes : Nat := 255

/-- The pieces between the slashes of a path; `part` are the characters of the first so far, in
reverse. -/
def piecesFrom (part : List Char) : List Char → List String
  | [] => [String.ofList part.reverse]
  | c :: rest =>
    if c = '/' then String.ofList part.reverse :: piecesFrom [] rest
    else piecesFrom (c :: part) rest

/-- The names that a path goes through. Slashes in a row count as one. -/
def names (path : String) : List String :=
  (piecesFrom [] path.toList).filter fun n => !n.isEmpty

/-- Where the walk along a path starts. -/
def origin (path : String) : Place :=
  if path.startsWith "/" then .root else .here

/-- What a name stands for in a directory, points apart. -/
def child? (d : Directory) (name : String) : Place → Option Place
  | .here => (d.files.find? name).map Place.file
  | .root => if name = "dev" then some .devices else if name = "tmp" then some .around else none
  | .devices => if name = "null" then some (.file []) else none
  | .around | .file _ => none

/-- Goes on by one name. -/
def enter (d : Directory) (p : Place) (name : String) : Except SystemCause Place :=
  if !p.isDirectory then .error .notDirectory
  else if name = "." then .ok p
  else if name = ".." then .ok p.parent
  else if maxNameBytes < name.utf8ByteSize then .error .nameTooLong
  else match d.child? name p with
    | some q => .ok q
    | none => .error .notFound

/-- Goes on by names in turn. -/
def walk (d : Directory) (p : Place) : List String → Except SystemCause Place
  | [] => .ok p
  | name :: rest =>
    match d.enter p name with
    | .ok q => d.walk q rest
    | .error e => .error e

/-! ## Reading and making files -/

/-- The place to which a path leads. Only a directory may have a slash after it. -/
def find (d : Directory) (path : String) : Except SystemCause Place :=
  if maxPathBytes < path.utf8ByteSize then .error .nameTooLong
  else match d.walk (origin path) (names path) with
    | .ok p => if path.endsWith "/" && !p.isDirectory then .error .notDirectory else .ok p
    | .error e => .error e

/-- The contents of a file. A directory can be opened, but not read. -/
def read (d : Directory) (path : String) : Except SystemFault (List UInt8) :=
  match d.find path with
  | .ok (.file contents) => .ok contents
  | .ok _ => .error ⟨.readFile path, .noDevice⟩
  | .error e => .error ⟨.openFile path, e⟩

/-- Why a file cannot be made under a name at a place, if it cannot. `slash` says that a slash
follows the name, as only that of a directory may. -/
def refuses? (d : Directory) (p : Place) (name : String) (slash : Bool) : Option SystemCause :=
  if !p.isDirectory then some .notDirectory
  else if name = "." || name = ".." || slash then some .isDirectory
  else match d.enter p name with
    | .ok q => if q.isDirectory then some .isDirectory else none
    | .error .notFound => none
    | .error e => some e

/-- Why a file cannot be made, if it cannot. The names before the last have to lead to a
directory. -/
def create (d : Directory) (path : String) : Option SystemFault :=
  let cause : Option SystemCause :=
    if maxPathBytes < path.utf8ByteSize then some .nameTooLong
    else match (names path).getLast? with
      | none => some .isDirectory
      | some name =>
        match d.walk (origin path) (names path).dropLast with
        | .ok p => d.refuses? p name (path.endsWith "/")
        | .error e => some e
  cause.map fun e => ⟨.createFile path, e⟩

/-- The world of this directory, with an input and a clock. -/
def world (d : Directory) (stdin : List UInt8) (clock : Nat → Float) : Command.World :=
  ⟨d.create, d.read, stdin, clock⟩

end Directory

end Lox
