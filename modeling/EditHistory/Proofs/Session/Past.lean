/-
The past of a document in a session.

A session is a list of commands to a workspace, here newest first, so that the last
command is the head.  What one document lived through in it is its past: a list of
events, newest first, each with the moment just before it.  A command to the
document counts call by call, so an undo leaves an event for each call it makes;
everything else in the workspace counts as an aside.

From the past one can read when each entry of the log was recorded: an entry
appears between two moments when the log grows from one to the other.  `origins`
lists the events in question beside the entries, and `beginnings` picks those of the
entries that open a unit.
-/
import EditHistory.Proofs.Document.Deeds
import EditHistory.Proofs.Log.Units
import EditHistory.Workspace.Step

namespace EditHistory

/-! ### Commands, call by call -/

/-- The calls that a command to a sheet makes of a document. -/
def SheetCommand.calls : SheetCommand → List Call
  | .insertBoundary => [.boundary]
  | .makeMarker pos advances => [.makeMarker pos advances]
  | .dropMarker marker => [.dropMarker marker]
  | .setPoint pos => [.setPoint pos]
  | _ => []

/-- The calls that a command makes of a document with this log. -/
def DocumentCommand.calls (log : Log) : DocumentCommand → List Call
  | .insert text => [.insert text]
  | .deleteRange start stop => [.deleteRange start stop]
  | .replaceRange start text => [.replaceRange start text]
  | .putProperty start stop name value => [.putProperty start stop name value]
  | .markSaved modtime => [.markSaved modtime]
  | .markUnmodified => [.markUnmodified]
  | .typeIn text size =>
    (pieces (max size 1) text).flatMap fun piece => [.insert piece, .boundary]
  | .undo count => Document.undoCalls count log
  | .properties .. | .report _ | .describe => []

/-- The calls that a command makes of the document `id`, which has this log. -/
def Command.calls (id : DocId) (log : Log) : Command → List Call
  | .sheet target command => if target = id then command.calls else []
  | .document target command => if target = id then command.calls log else []
  | _ => []

/-- What happens in a session, as seen from one document. -/
inductive Happening where
  /-- A call of the document. -/
  | call (c : Call)
  /-- The log of the document is truncated. -/
  | truncation
  /-- A command, as far as it makes no calls of the document. -/
  | aside (c : Command)

namespace Happening

/-- Whether the log of the document is truncated. -/
def isTruncation : Happening → Bool
  | .truncation => true
  | _ => false

/-- Whether somebody sets the document to unmodified. -/
def isUnmarking : Happening → Bool
  | .call .markUnmodified => true
  | _ => false

end Happening

/-- What a command comes to for the document `id` besides its calls. -/
def Command.rest (id : DocId) (c : Command) : Happening :=
  match c with
  | .truncate target => if target = id then .truncation else .aside c
  | _ => .aside c

/-- A moment of a document, and what happened then. -/
structure Event where
  before : Editing Document
  what : Happening

/-- Carries out calls in order, up to the first that fails, on top of a past. -/
def Call.follow : List Call → Editing Document → List Event → Editing Document × List Event
  | [], s, past => (s, past)
  | c :: rest, s, past =>
    match c.run s with
    | .ok _ s' => follow rest s' ({ before := s, what := .call c } :: past)
    | .error _ s' => (s', { before := s, what := .call c } :: past)

/-! ### Sessions -/

namespace Workspace

/-- The moment of the document `id`, if there is one of that name. -/
def moment? (id : DocId) (w : Workspace) : Option (Editing Document) :=
  match w.sheet? id with
  | some (.document doc) => some { recorder := w.recorder, markers := w.markers, doc }
  | _ => none

/-- The workspace after the commands, newest first. -/
def later (start : Workspace) : List Command → Workspace
  | [] => start
  | c :: earlier => ((start.later earlier).step c).after

/-- No command ended the session. -/
def Unbroken (start : Workspace) : List Command → Prop
  | [] => True
  | c :: earlier => start.Unbroken earlier ∧ ((start.later earlier).step c).ends = false

instance (start : Workspace) : (commands : List Command) → Decidable (start.Unbroken commands)
  | [] => inferInstanceAs (Decidable True)
  | _ :: earlier =>
    have := instDecidableUnbroken start earlier
    inferInstanceAs (Decidable (_ ∧ _))

/-- What the document `id` went through while the commands were carried out. -/
def past (id : DocId) (start : Workspace) : List Command → List Event
  | [] => []
  | c :: earlier =>
    match (start.later earlier).moment? id with
    | none => start.past id earlier
    | some s =>
      let (s', past) := Call.follow (c.calls id s.doc.log) s (start.past id earlier)
      { before := s', what := c.rest id } :: past

end Workspace

/-! ### When entries were recorded -/

/--
For each entry of the log of a document, newest first, the event in which it was
recorded.  Between two moments a log grows or shrinks: what grows was recorded in
between, and what is lost is lost at the old end.
-/
def origins (now : Editing Document) : List Event → List Event
  | [] => []
  | e :: earlier =>
    (List.replicate (now.doc.log.length - e.before.doc.log.length) e ++
      origins e.before earlier).take now.doc.log.length

/-- The events in which the units of a log began, the newest unit first. -/
def beginnings : List Entry → List Event → List Event
  | e :: older, o :: origins =>
    if Log.begins e older then o :: beginnings older origins
    else beginnings older origins
  | _, _ => []

/-- The events in which the units in the log of a document began, the newest unit first. -/
def unitBeginnings (now : Editing Document) (past : List Event) : List Event :=
  beginnings now.doc.log.entries (origins now past)

/-- The events in which the entries of the newest unit of a log were recorded, newest first. -/
def newestOrigins (entries : List Entry) (origins : List Event) : List Event :=
  (((entries.zip origins).dropWhile (·.1.isBoundary)).takeWhile (!·.1.isBoundary)).map (·.2)

end EditHistory
