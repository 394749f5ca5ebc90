/-
Recording changes.

A change is recorded before it is made.  Recording sees the document through a
`View` and changes two things only: the recorder and the document's log.  It
neither reads nor writes anything else, which is why recording can never
influence an edit.

Before the entry of a change goes what the change breaks: a first-change entry if
the document was unmodified, and a point-move entry if the cursor was not where
undoing the change will leave it.  Recording into a log that is switched off does
nothing at all.
-/
import EditHistory.Failure
import EditHistory.Marker
import EditHistory.Recorder.Basic
import EditHistory.Text

namespace EditHistory

/-- How far a document has been modified, and up to where it was saved. -/
structure Ticks where
  modified : Nat := 0
  saved : Nat := 0
deriving DecidableEq, Repr, Inhabited

namespace Ticks

/-- Nothing was modified since the document was saved. -/
def Clean (ticks : Ticks) : Prop := ticks.modified ≤ ticks.saved

instance (ticks : Ticks) : Decidable ticks.Clean := inferInstanceAs (Decidable (_ ≤ _))

end Ticks

/-- What recording may ask of a document. -/
structure View where
  doc : DocId
  /-- The cursor. -/
  point : Nat
  ticks : Ticks
  /-- The modification time of the file that the document was last saved to. -/
  modtime : Option Int
  /-- The document's markers with their numbers. -/
  markers : List (MarkerId × Marker)
  /-- The text between two offsets. -/
  read : Nat → Nat → Except TextError Text

/-- What recording may change: the recorder, and the log of the document. -/
structure Recording where
  recorder : Recorder
  log : Log

/-- A recording call. -/
abbrev RecordM := EStateM Failure Recording

namespace Recording

/-! ### What goes before the entry of a change -/

/-- Adds an entry to the log. -/
def push (entry : Entry) (s : Recording) : Recording := { s with log := s.log.push entry }

/-- Starts a change: a unit is open in the document, and its first change is announced. -/
def beginChange (v : View) (s : Recording) : Recording :=
  let recorder := { s.recorder with pending := some v.doc }
  if s.log.announced then { s with recorder }
  else { recorder := recorder.notify v.doc, log := { s.log with announced := true } }

/-- Notes that the document was unmodified, unless that was noted at this very tick. -/
def noteFirstChange (v : View) (s : Recording) : Recording :=
  if v.ticks.Clean ∧ s.log.markedTick ≠ some v.ticks.modified then
    let marked := s.push (.firstChange v.modtime)
    { marked with log := { marked.log with markedTick := some v.ticks.modified } }
  else s

/--
Notes where the cursor was before a change at `pos`.  Only the first change of a
unit can be away from the cursor's place at the boundary, and only if the last
boundary was for this document is that place known.
-/
def notePoint (v : View) (pos : Nat) (s : Recording) : Recording :=
  if s.recorder.settings.inhibitPoint then s
  else
    let begun := s.beginChange v
    let noted := begun.noteFirstChange v
    match begun.log.atBoundary, noted.recorder.positionIn v.doc with
    | true, some position => if position = pos then noted else noted.push (.pointMove position)
    | _, _ => noted

/-! ### The recording calls -/

/-- Fails with an overflow unless the condition holds. -/
def require (p : Prop) [Decidable p] : RecordM Unit :=
  unless p do throw (.fault .overflow)

/-- Does nothing to a log that is switched off. -/
def whenEnabled (call : RecordM Unit) : RecordM Unit := do
  unless (← get).log.disabled do call

/-- Records an insertion, as part of the newest entry if it goes on where that ended. -/
def extendInsertion (start stop : Nat) (s : Recording) : Recording :=
  match s.log.entries with
  | .insertion first last :: older =>
    if last = start then { s with log := { s.log with entries := .insertion first stop :: older } }
    else s.push (.insertion start stop)
  | _ => s.push (.insertion start stop)

/-- Records that `length` characters are to be inserted at `start`. -/
def recordInsert (start length : Nat) (v : View) : RecordM Unit := whenEnabled do
  let stop := start + length
  require (Offset.Fits stop)
  modify fun s => (s.notePoint v start).extendInsertion start stop

/--
How far deleting the characters from `start` up to `stop` and inserting them again
displaces a marker in or at the span.
-/
def displacement (start stop : Nat) (m : Marker) : Int :=
  Offset.toSigned (if m.advances then stop else start) - Offset.toSigned m.position

/-- The displacements of the markers in or at a span, for those that are displaced. -/
def displacements (start stop : Nat) (markers : List (MarkerId × Marker)) : List (MarkerId × Int) :=
  (markers.filter fun (_, m) => start ≤ m.position ∧ m.position ≤ stop).map
    fun (id, m) => (id, displacement start stop m)

/--
Records that `text` is to be deleted at `start`, and if asked to, how its markers
are displaced.  The cursor behind the deleted text is remembered by the sign.
-/
def recordDelete (start : Nat) (text : Text) (withMarkers : Bool) (v : View) : RecordM Unit :=
  whenEnabled do
    let stop := start + text.length
    require (Offset.Fits stop)
    let moved := if withMarkers then displacements start stop v.markers else []
    require (∀ m ∈ moved, Offset.FitsSigned m.2)
    let behind := v.point = stop
    let offset := if behind then -Offset.toSigned start else Offset.toSigned start
    require (Offset.FitsSigned offset)
    modify fun s =>
      let noted := s.notePoint v (if behind then v.point else start)
      let begun := if withMarkers then noted.beginChange v else noted
      let shifted := (moved.filter (·.2 ≠ 0)).foldl
        (fun s (id, delta) => s.push (.markerShift id delta)) begun
      shifted.push (.deletion text offset)

/-- Records that the `length` characters at `start` are to be replaced. -/
def recordChange (start length : Nat) (v : View) : RecordM Unit := whenEnabled do
  let stop := start + length
  require (Offset.Fits stop)
  match v.read start stop with
  | .error e => throw (.error (.history (.unreadable e)))
  | .ok text =>
    recordDelete start text false v
    recordInsert start length v

/-- Records that the document is about to be modified for the first time. -/
def recordFirstChange (v : View) : RecordM Unit := whenEnabled do
  modify (noteFirstChange v)

/-- Records the old value of a property that is to change over `length` characters. -/
def recordPropertyChange (start length : Nat) (name : String) (old : Json) (v : View) :
    RecordM Unit := whenEnabled do
  let stop := start + length
  require (Offset.Fits stop)
  modify fun s =>
    ((s.beginChange v).noteFirstChange v).push
      (.propertyChange { doc := v.doc, name, old, start, stop })

/-! ### Boundaries -/

/-- Ends the open unit of the document, if there is one, and remembers the cursor. -/
def endUnit (v : View) (s : Recording) : Recording :=
  if s.log.disabled then s
  else
    let closed :=
      if s.log.atBoundary then s
      else
        let pending := if s.recorder.pending = some v.doc then none else s.recorder.pending
        { s.push .boundary with recorder := { s.recorder with pending } }
    { closed with
      recorder := { closed.recorder with
        lastBoundary := some { doc := v.doc, position := v.point } } }

/-- Inserts a boundary: what follows belongs to another unit. -/
def insertBoundary (v : View) : RecordM Unit := modify (endUnit v)

end Recording

end EditHistory
