/-
The recorder: what recording remembers across documents.

One recorder serves every document of a run.  The logs belong to the documents;
the recorder itself remembers only where the cursor stood at the last boundary,
and which document has a unit open that no boundary has closed yet.  It sends a
notice at the first undoable change of a document to whoever listens; notices
gather in `sent` until they are collected.
-/
import EditHistory.Settings.Basic
import EditHistory.Truncation

namespace EditHistory

/-- The last boundary: the document it was for, and where the cursor stood. -/
structure LastBoundary where
  doc : DocId
  position : Nat
deriving DecidableEq, Repr

/-- What recording remembers across documents. -/
structure Recorder where
  settings : Settings := {}
  lastBoundary : Option LastBoundary := none
  /-- The document with an open unit, of the latest change. -/
  pending : Option DocId := none
  hook : Option Hook := none
  /-- Somebody listens for first undoable changes. -/
  listening : Bool := false
  /-- The notices sent and not yet collected, oldest first. -/
  sent : List DocId := []
deriving Repr, Inhabited

namespace Recorder

/-- A recorder with the given settings that remembers nothing. -/
def ofSettings (settings : Settings) : Recorder := { settings }

/-- Where the cursor stood at the last boundary, if that was for this document. -/
def positionIn (recorder : Recorder) (doc : DocId) : Option Nat :=
  (recorder.lastBoundary.filter (·.doc = doc)).map (·.position)

/-- Tells the listener, if there is one, of a document's first undoable change. -/
def notify (doc : DocId) (recorder : Recorder) : Recorder :=
  if recorder.listening then { recorder with sent := recorder.sent ++ [doc] } else recorder

/-- The notices sent so far are collected. -/
def collected (recorder : Recorder) : Recorder := { recorder with sent := [] }

end Recorder

end EditHistory
