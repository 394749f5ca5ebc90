/-
What can be asked of a workspace.

Commands are sorted by what they are addressed to: the recorder, a marker, a sheet
of either kind, a document, or a draft.  Everything that can happen in a session is
a command, so a session is a list of commands.
-/
import EditHistory.Workspace.Basic

namespace EditHistory

/-- Commands to the recorder. -/
inductive RecorderCommand where
  /-- Takes the settings as they are. -/
  | setSettings (settings : Settings)
  /-- Puts the limits in order. -/
  | orderSettings
  /-- Starts over with a recorder that remembers nothing. -/
  | restart (settings : Settings)
  /-- Listens for first undoable changes. -/
  | listen
  | setHook (hook : Hook)
  | clearHook
  /-- Holds truncation off, once more. -/
  | holdOff
  /-- Ends the latest holding off. -/
  | release
  | describe

/-- Commands to a marker, whatever document it belongs to. -/
inductive MarkerCommand where
  /-- Lets go of the marker. -/
  | release
  | moveTo (pos : Nat)
  | inspect

/-- Commands to a document or a draft. -/
inductive SheetCommand where
  | recordInsert (start length : Nat)
  | recordDelete (start : Nat) (text : Text) (withMarkers : Bool)
  | recordChange (start length : Nat)
  | recordFirstChange
  | recordPropertyChange (start length : Nat) (name : String) (old : Json)
  | insertBoundary
  /-- Measures the newest units, or the whole log. -/
  | measure (units : Option Int)
  | disableLog
  | enableLog
  | clearLog
  | retainLog (count : Nat)
  | rearmLog
  /-- Starts a new log. -/
  | freshLog (disabled : Bool)
  /-- Takes a copy of another sheet's log. -/
  | copyLog (source : DocId)
  /-- Compares an entry with one of another sheet. -/
  | compareEntry (index : Nat) (other : DocId) (otherIndex : Nat)
  /-- Whether an entry is about a marker, if it is about any. -/
  | entryRefersTo (index : Nat) (marker : MarkerId)
  | makeMarker (pos : Nat) (advances : Bool)
  | dropMarker (marker : MarkerId)
  | setPoint (pos : Nat)
  | setTicks (ticks : Ticks)
  | read (start stop : Nat)
  | inspect
  | units

/-- Commands to a document. -/
inductive DocumentCommand where
  | insert (text : Text)
  | deleteRange (start stop : Nat)
  | replaceRange (start : Nat) (text : Text)
  | putProperty (start stop : Nat) (name : String) (value : Json)
  /-- Reads a property position by position. -/
  | properties (start stop : Nat) (name : String)
  | markSaved (modtime : Int)
  | markUnmodified
  | typeIn (text : Text) (size : Nat)
  | report (units : Int)
  | undo (count : Nat)
  | describe

/-- Commands to a draft. -/
inductive DraftCommand where
  | typeText (text : Text)
  | backspace
  | save (modtime : Option Int)

/-- A command and what it is addressed to. -/
inductive Command where
  | recorder (command : RecorderCommand)
  | marker (id : MarkerId) (command : MarkerCommand)
  | sheet (id : DocId) (command : SheetCommand)
  | document (id : DocId) (command : DocumentCommand)
  | draft (id : DocId) (command : DraftCommand)
  /-- Truncates the log of a document or a draft. -/
  | truncate (id : DocId)

namespace Command

/-- The document that the command is addressed to. -/
def target? : Command → Option DocId
  | .recorder _ | .marker .. => none
  | .sheet id _ | .document id _ | .draft id _ | .truncate id => some id

end Command

/-- What a command answers. -/
inductive Answer where
  /-- Nothing but that it was done. -/
  | done
  | flag (value : Bool)
  | number (value : Nat)
  | size (bytes : Option Nat)
  | settings (settings : Settings)
  | outcome (outcome : Outcome)
  | text (text : Text)
  | words (words : String)
  /-- Whether a log is empty, and whether it has no newest entry. -/
  | emptiness (empty headless : Bool)
  /-- Whether an entry is about a marker, if it is about any. -/
  | reference (value : Option Bool)
  | marker (position : Nat) (advances : Bool)
  | values (values : List Json)
  | units (units : List (List Entry))
  | report (report : Report)
  /-- The sheet that the command was addressed to, as a whole. -/
  | sheet

end EditHistory
