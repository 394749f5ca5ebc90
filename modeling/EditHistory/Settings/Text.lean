/-
Settings as text.

Settings are an object of four fields.  What is absent has its default, what is
unknown is passed over as long as it is valid, and a known field given twice makes
the whole invalid.  A list gives the fields by position.  Only the outer limit may
be null, and null means that there is none.
-/
import EditHistory.Json.Printer
import EditHistory.Json.Reader
import EditHistory.Settings.Basic

namespace EditHistory

namespace Settings

/-- A field of the settings. -/
inductive Field where
  | softLimit
  | strongLimit
  | outerLimit
  | inhibitPoint
deriving DecidableEq, Repr

namespace Field

/-- The fields in the order in which they are written. -/
def all : List Field := [softLimit, strongLimit, outerLimit, inhibitPoint]

/-- The key of a field. -/
def key : Field → String
  | softLimit => "undo_limit"
  | strongLimit => "undo_strong_limit"
  | outerLimit => "undo_outer_limit"
  | inhibitPoint => "inhibit_record_point"

/-- The field of a key. -/
def ofKey? (key : String) : Option Field := all.find? (·.key = key)

end Field

/-! ### Writing -/

/-- A limit as a value. -/
def limitJson (limit : Nat) : Json := .int limit

/-- The value of a field. -/
def fieldJson (s : Settings) : Field → Json
  | .softLimit => limitJson s.softLimit
  | .strongLimit => limitJson s.strongLimit
  | .outerLimit => (s.outerLimit.map limitJson).getD .null
  | .inhibitPoint => .bool s.inhibitPoint

/-- The settings as a value. -/
def toJson (s : Settings) : Json := .obj (Field.all.map fun f => (f.key, s.fieldJson f))

/-- The text of the settings. -/
def toText (s : Settings) : String := s.toJson.pretty

/-! ### Reading -/

/-- Settings of which some fields have been read. -/
structure Gathered where
  softLimit : Option Nat := none
  strongLimit : Option Nat := none
  outerLimit : Option (Option Nat) := none
  inhibitPoint : Option Bool := none

/-- A limit, read from digits alone. -/
def limit? : Json.Tree → Option Nat
  | .number numeral =>
    match numeral.int? with
    | some (.ofNat limit) => some limit
    | _ => none
  | _ => none

/-- A limit that may be null. -/
def optionalLimit? : Json.Tree → Option (Option Nat)
  | .null => some none
  | tree => (limit? tree).map some

/-- A switch. -/
def switch? : Json.Tree → Option Bool
  | .bool value => some value
  | _ => none

namespace Gathered

/-- Reads a field that has not been read yet. -/
def read (d : Gathered) (tree : Json.Tree) : Field → Option Gathered
  | .softLimit =>
    if d.softLimit.isSome then none else (limit? tree).map ({ d with softLimit := some · })
  | .strongLimit =>
    if d.strongLimit.isSome then none else (limit? tree).map ({ d with strongLimit := some · })
  | .outerLimit =>
    if d.outerLimit.isSome then none else (optionalLimit? tree).map ({ d with outerLimit := some · })
  | .inhibitPoint =>
    if d.inhibitPoint.isSome then none else (switch? tree).map ({ d with inhibitPoint := some · })

/-- Reads what stands under a key; under an unknown key anything may stand. -/
def readKeyed (d : Gathered) (field : List Json.Piece × Json.Tree) : Option Gathered := do
  match Field.ofKey? (← Json.Piece.text? field.1) with
  | some f => d.read field.2 f
  | none => some d

/-- The settings, where fields that were not read have their defaults. -/
def complete (d : Gathered) : Settings :=
  let standard : Settings := {}
  { softLimit := d.softLimit.getD standard.softLimit
    strongLimit := d.strongLimit.getD standard.strongLimit
    outerLimit := d.outerLimit.getD standard.outerLimit
    inhibitPoint := d.inhibitPoint.getD standard.inhibitPoint }

end Gathered

/-- The settings that a tree describes. -/
def ofTree? : Json.Tree → Option Settings
  | .obj fields => (fields.foldlM Gathered.readKeyed {}).map (·.complete)
  | .arr items =>
    if items.length ≤ Field.all.length then
      ((items.zip Field.all).foldlM (fun (d : Gathered) (tree, f) => d.read tree f) {}).map Gathered.complete
    else none
  | _ => none

/-- The settings that a text describes, as they stand there. -/
def ofText? (text : String) : Option Settings := (Json.Tree.ofChars? text.toList).bind ofTree?

end Settings

end EditHistory
