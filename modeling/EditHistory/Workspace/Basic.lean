/-
A workspace: one recorder, the documents it serves, and their markers.

Documents are named by their place in the workspace.  Some are drafts; a sheet is
either kind.  `depth` counts how often truncation is being held off.
-/
import EditHistory.Document.Undo
import EditHistory.Draft
import EditHistory.Typing

namespace EditHistory

/-- A document or a draft. -/
inductive Sheet where
  | document (doc : Document)
  | draft (draft : Draft)
deriving Repr

namespace Sheet

def id : Sheet → DocId
  | .document d => d.id
  | .draft d => d.id

def text : Sheet → Text
  | .document d => d.text
  | .draft d => d.text

def log : Sheet → Log
  | .document d => d.log
  | .draft d => d.log

def point : Sheet → Nat
  | .document d => d.point
  | .draft d => d.point

def ticks : Sheet → Ticks
  | .document d => d.ticks
  | .draft d => d.ticks

def modtime : Sheet → Option Int
  | .document d => d.modtime
  | .draft d => d.modtime

instance : Recordable Sheet where
  log := log
  setLog log
    | .document d => .document { d with log }
    | .draft d => .draft { d with log }
  view markers
    | .document d => Recordable.view markers d
    | .draft d => Recordable.view markers d

/-- Puts the cursor somewhere; only a document keeps it inside its text. -/
def setPoint (pos : Nat) : Sheet → Sheet
  | .document d => .document (d.setPoint pos)
  | .draft d => .draft { d with point := pos }

/-- Sets the ticks to any values. -/
def setTicks (ticks : Ticks) : Sheet → Sheet
  | .document d => .document { d with ticks }
  | .draft d => .draft { d with ticks }

/-- A marker of the sheet; only a document keeps it inside its text. -/
def marker (pos : Nat) (advances : Bool) : Sheet → Marker
  | .document d => d.marker pos advances
  | .draft d => { position := pos, advances, owner := some d.id }

end Sheet

/-- A recorder with the documents and markers it serves. -/
structure Workspace where
  recorder : Recorder := {}
  /-- How often truncation is being held off. -/
  depth : Nat := 0
  markers : MarkerTable := {}
  /-- A document stands at the place that its name numbers. -/
  sheets : List Sheet := []
deriving Repr

namespace Workspace

/-- A workspace in which nothing was done yet; each sheet is made for its place. -/
def opened (settings : Settings) (sheets : List (DocId → Sheet)) : Workspace where
  recorder := .ofSettings settings
  sheets := sheets.zipIdx.map fun (make, number) => make ⟨number⟩

/-- The sheet of the given name. -/
def sheet? (w : Workspace) (id : DocId) : Option Sheet := w.sheets[id.number]?

/-- Puts a sheet in its place. -/
def setSheet (sheet : Sheet) (id : DocId) (w : Workspace) : Workspace :=
  { w with sheets := w.sheets.set id.number sheet }

end Workspace

end EditHistory
