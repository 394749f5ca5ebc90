/-
A disk as a value.

Items are kept by their place: the names from an item up to the root, innermost
first, so that the directory of a place is its tail.  A path is walked name by
name, and every item on the way but the last has to be a directory.  A path that
ends in a slash asks for a directory, which is the same as one more name, `.`.
-/
import EditHistory.Files

namespace EditHistory

/-- What a disk holds at a place. -/
inductive Item where
  | file (bytes : ByteArray)
  | directory

/-- The names from an item up to the root. -/
abbrev Place := List String

/-- One name further. -/
def Place.step (place : Place) (name : String) : Place :=
  if name = "." then place else if name = ".." then place.tail else name :: place

/-- A tree of files, and the directory in which relative paths start. -/
structure Disk where
  /-- The items but for the root; of two at one place the first counts. -/
  items : List (Place × Item) := []
  current : Place := []

namespace Disk

/-- What stands at a place. -/
def item? (d : Disk) : Place → Option Item
  | [] => some .directory
  | place => d.items.lookup place

/-- Puts an item in a place. -/
def put (d : Disk) (place : Place) (item : Item) : Disk :=
  { d with items := (place, item) :: d.items }

/-- What was put somewhere stands there; nothing can be put in the place of the root. -/
theorem item?_put_self (d : Disk) {place : Place} (item : Item) (h : place ≠ []) :
    (d.put place item).item? place = some item := by
  cases place with
  | nil => exact absurd rfl h
  | cons name above => simp [item?, put]

/-- What stands elsewhere stays. -/
theorem item?_put_of_ne (d : Disk) {place other : Place} (item : Item) (h : other ≠ place) :
    (d.put place item).item? other = d.item? other := by
  cases other with
  | nil => rfl
  | cons name above =>
    have hkey : (name :: above == place) = false := by simpa using h
    show ((place, item) :: d.items).lookup (name :: above) = d.items.lookup (name :: above)
    rw [List.lookup_cons, hkey]

/-! ### Walking -/

/-- There is no item of that name. -/
def notFound : ReadError := .system "No such file or directory" 2

/-- Something below a file was asked for. -/
def notADirectory : ReadError := .system "Not a directory" 20

/-- A directory was to be read like a file. -/
def isADirectory : ReadError := .system "Is a directory" 21

/-- The place that names lead to, which may be empty while its directory is there. -/
def walk (d : Disk) : Place → List String → Except ReadError Place
  | place, [] => .ok place
  | place, name :: rest =>
    match d.item? place with
    | none => .error notFound
    | some (.file _) => .error notADirectory
    | some .directory => d.walk (Place.step place name) rest

/-- The place that a path leads to. -/
def place? (d : Disk) (path : String) : Except ReadError Place :=
  if path.isEmpty then .error notFound
  else
    let start := if path.startsWith "/" then [] else d.current
    d.walk start (pathNames path ++ if path.endsWith "/" then ["."] else [])

/-- The item that a path leads to. -/
def at? (d : Disk) (path : String) : Except ReadError Item := do
  match d.item? (← d.place? path) with
  | some item => return item
  | none => throw notFound

/-! ### Operations -/

/-- Reads a file. -/
def read (path : String) (d : Disk) : Except ReadError ByteArray := do
  match ← d.at? path with
  | .file bytes => return bytes
  | .directory => throw isADirectory

/-- The disk with a new directory, if there is nothing at the path and its directory is there. -/
def makeDirectory? (path : String) (d : Disk) : Option Disk := do
  let place ← (d.place? path).toOption
  if (d.item? place).isSome then none else some (d.put place .directory)

/-- The disk with a file written, unless there is a directory or no directory for it. -/
def write? (path : String) (bytes : ByteArray) (d : Disk) : Option Disk := do
  let place ← (d.place? path).toOption
  match d.item? place with
  | some .directory => none
  | _ => some (d.put place (.file bytes))

/-- Changes the disk if that can be done; answers whether it was. -/
def attempt (change : Disk → Option Disk) : StateM Disk Bool := fun d =>
  match change d with
  | some d' => (true, d')
  | none => (false, d)

/-- The operations on a disk. -/
def files : Files (StateM Disk) where
  present path := fun d => ((d.at? path).toOption.isSome, d)
  isDirectory path := fun d => ((d.at? path).toOption.any (· matches .directory), d)
  makeDirectory path := attempt (makeDirectory? path)
  read path := fun d => (d.read path, d)
  write path bytes := attempt (write? path bytes)

end Disk

end EditHistory
