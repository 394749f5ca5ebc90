/-
Undoing: the units of a log replayed backwards.

Undo takes the newest units of the log as it stands, closes the open unit, and
takes back each entry of each unit, newest first, with the document's own
operations.  Those record in turn, so what was undone can be undone again; each
unit that is taken back becomes a unit itself.
-/
import EditHistory.Document.Properties

namespace EditHistory.Document

/--
Takes back the displacement of a marker, as far as the start of the text.  A dead
marker is left alone.
-/
def restoreMarker (id : MarkerId) (delta : Int) (s : Editing Document) :
    Except Failure (Editing Document) :=
  match (s.markers.get? id).filter (·.isLive) with
  | none => .ok s
  | some m =>
    let restored := Offset.toSigned m.position - delta
    if Offset.FitsSigned restored then
      .ok { s with markers := s.markers.modify id ({ · with position := restored.toNat }) }
    else .error (.fault .overflow)

/-- Takes back one entry. -/
def undoEntry : Entry → EditM Document Unit
  | .boundary => pure ()
  | .insertion start stop => do
    deleteRange start stop
    EditM.modifyDoc (setPoint start)
  | .deletion text offset => do
    EditM.modifyDoc (setPoint offset.natAbs)
    insert text
    if 0 ≤ offset then EditM.modifyDoc (setPoint offset.natAbs)
  | .pointMove position => EditM.modifyDoc (setPoint position)
  | .markerShift id delta => EditM.apply (restoreMarker id delta)
  | .propertyChange change => do
    let here := (← get).doc.id
    if change.doc = here then putProperty change.start change.stop change.name change.old
    else throw (.error (.foreignProperty change.doc here))
  | .firstChange modtime =>
    EditM.modifyDoc fun doc => if modtime = doc.modtime then doc.markUnmodified else doc

/-- Takes back one unit, newest entry first, and closes the unit that this records. -/
def undoUnit (unit : List Entry) : EditM Document Unit := do
  unit.forM undoEntry
  EditM.record Recording.insertBoundary

/-- Takes back the `count` newest units, newest first. -/
def undo (count : Nat) : EditM Document Unit := do
  let newest := (← get).doc.log.units.take count
  EditM.record Recording.insertBoundary
  newest.forM undoUnit

end EditHistory.Document
