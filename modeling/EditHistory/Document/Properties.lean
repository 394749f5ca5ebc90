/-
Putting text properties.

What has to be recorded of a property that is put over a range are the values it
had there, one entry for each longest run of positions with one old value.
Positions that have the new value already are left out, and if that leaves
nothing, the operation does nothing.
-/
import EditHistory.Document.Edit

namespace EditHistory

/-- A run of positions, from `start` up to `stop`, at which a property has one value. -/
structure Run where
  start : Nat
  stop : Nat
  old : Json
deriving DecidableEq, Repr

namespace Run

/--
Adds the position after those seen so far to the runs, latest first.  The position
is left out if its value is the new one already, and lengthens the latest run if
it follows on it with the same value.
-/
def addPosition (value : Json) (runs : List Run) (pos : Nat) (old : Json) : List Run :=
  if old.Same value then runs
  else
    match runs with
    | run :: earlier =>
      if run.stop = pos ∧ run.old.Same old then { run with stop := pos + 1 } :: earlier
      else { start := pos, stop := pos + 1, old } :: runs
    | [] => [{ start := pos, stop := pos + 1, old }]

end Run

namespace Document

/-- The runs of a range that a new value changes, in increasing order. -/
def changedRuns (doc : Document) (start stop : Nat) (name : String) (value : Json) : List Run :=
  ((List.range' start (stop - start)).foldl
    (fun runs pos => Run.addPosition value runs pos (doc.propertyAt pos name)) []).reverse

/-- Records the old value of a run. -/
def recordRun (name : String) (run : Run) : EditM Document Unit :=
  EditM.record (Recording.recordPropertyChange run.start (run.stop - run.start) name run.old)

/-- Gives a property a value from `start` up to `stop`. -/
def putProperty (start stop : Nat) (name : String) (value : Json) : EditM Document Unit := do
  let doc := (← get).doc
  if stop < start ∨ doc.text.length < stop then
    throw (.error (.propertyOutside start stop doc.text.length))
  let runs := doc.changedRuns start stop name value
  unless runs.isEmpty do
    runs.forM (recordRun name)
    EditM.apply fun s =>
      checked { s with
        doc := touch { s.doc with spans := { start, stop, name, value } :: s.doc.spans } }

end Document

end EditHistory
