/-
Access to files.

The program reaches files through a handful of operations, given as a record.  The
same definitions then run against the files of a machine and against a `Disk` that
is a value, and what is shown of the one holds of the other as far as its
operations do what theirs say.
-/

namespace EditHistory

/-- Why a file could not be read. -/
inductive ReadError where
  /-- What the system answered, with its number. -/
  | system (reason : String) (code : Nat)
  /-- The bytes are no UTF-8. -/
  | notText
deriving DecidableEq, Repr

namespace ReadError

/-- The wording of the error. -/
def message : ReadError → String
  | .system reason code => s!"{reason} (os error {code})"
  | .notText => "stream did not contain valid UTF-8"

end ReadError

/-- The operations on files, in a monad `m`. -/
structure Files (m : Type → Type) where
  /-- Whether there is anything at a path. -/
  present : String → m Bool
  /-- Whether there is a directory at a path. -/
  isDirectory : String → m Bool
  /-- Makes a directory in one that is there; answers whether it did. -/
  makeDirectory : String → m Bool
  read : String → m (Except ReadError ByteArray)
  /-- Writes a file, whatever was in it; answers whether it did. -/
  write : String → ByteArray → m Bool

/-! ### Paths -/

/-- The names on a path. -/
def pathNames (path : String) : List String :=
  (path.splitOn "/").filter fun name => !name.isEmpty

/-- The directories that lead to a path, outermost first. -/
def ancestors (path : String) : List String :=
  let names := (pathNames path).filter (· ≠ ".")
  let root := if path.startsWith "/" then "/" else ""
  (List.range' 1 (names.length - 1)).map fun n => root ++ String.intercalate "/" (names.take n)

namespace Files

variable {m : Type → Type} [Monad m]

/-- Reads a file as text. -/
def readText (files : Files m) (path : String) : m (Except ReadError String) := do
  match ← files.read path with
  | .error e => return .error e
  | .ok bytes =>
    match String.fromUTF8? bytes with
    | some text => return .ok text
    | none => return .error .notText

/-- Makes the directories that are not there, in order; answers whether all are there. -/
def makeDirectories (files : Files m) : List String → m Bool
  | [] => return true
  | path :: rest => do
    if (← files.isDirectory path) || (← files.makeDirectory path) then files.makeDirectories rest
    else return false

/-- Writes a text, making the directories that lead to it; answers whether it did. -/
def writeText (files : Files m) (path text : String) : m Bool := do
  if ← files.makeDirectories (ancestors path) then files.write path text.toUTF8 else return false

end Files

end EditHistory
