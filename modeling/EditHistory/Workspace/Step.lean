/-
Carrying out commands.

A command that succeeds or is refused leaves a workspace to go on with; one that
ends in a fault ends the session.  Along with its answer go the notices sent while
it was carried out, and the calls of the outer-limit hook.
-/
import EditHistory.Describe
import EditHistory.Workspace.Command

namespace EditHistory

/-- What came of a command. -/
structure Reply where
  result : Except Failure Answer
  /-- The documents whose first undoable change was announced, in order. -/
  notices : List DocId := []
  /-- The calls of the outer-limit hook, in order. -/
  calls : List HookCall := []
  /-- The workspace afterwards. -/
  after : Workspace

/-! ### Documents and drafts -/

/-- Does something and answers nothing. -/
def EditM.done {δ : Type} (act : EditM δ Unit) : EditM δ Answer := do
  act
  return .done

/-- Carries out a command to a document. -/
def DocumentCommand.run : DocumentCommand → EditM Document Answer
  | .insert text => EditM.done (Document.insert text)
  | .deleteRange start stop => EditM.done (Document.deleteRange start stop)
  | .replaceRange start text => EditM.done (Document.replaceRange start text)
  | .putProperty start stop name value => EditM.done (Document.putProperty start stop name value)
  | .properties start stop name => do
    let doc := (← get).doc
    return .values ((List.range' start (stop - start)).map (doc.propertyAt · name))
  | .markSaved modtime => EditM.done (EditM.modifyDoc (Document.markSaved modtime))
  | .markUnmodified => EditM.done (EditM.modifyDoc Document.markUnmodified)
  | .typeIn text size => EditM.done (Document.typeIn text size)
  | .report units => do
    match Report.ofLog (← get).doc.log units with
    | .ok r => return .report r
    | .error e => throw (.error (.history e))
  | .undo count => EditM.done (Document.undo count)
  | .describe => do
    let s ← get
    return .words (s.doc.describe (s.markers.ofDoc s.doc.id).length)

/-- Carries out a command to a draft. -/
def DraftCommand.run : DraftCommand → EditM Draft Answer
  | .typeText text => EditM.done (Draft.typeText text)
  | .backspace => EditM.done Draft.backspace
  | .save modtime => EditM.done (EditM.modifyDoc (Draft.save modtime))

/-! ### Sheets -/

namespace Sheet

/-- Changes the log by one of its own operations. -/
def changeLog (f : Log → Log) : EditM Sheet Answer :=
  EditM.done (EditM.modifyDoc fun sheet => Recordable.setLog (f sheet.log) sheet)

/-- Records something and answers nothing. -/
def recorded (call : View → RecordM Unit) : EditM Sheet Answer := EditM.done (EditM.record call)

/-- Gives the sheet a new marker and answers its number. -/
def makeMarker (pos : Nat) (advances : Bool) : EditM Sheet Answer := do
  let s ← get
  set { s with markers := s.markers.push (s.doc.marker pos advances) }
  return .number s.markers.nextId

/-- Takes a marker from the sheet and answers whether it was there. -/
def dropMarker (id : MarkerId) : EditM Sheet Answer := do
  let s ← get
  let owned := s.markers.owns s.doc.id id
  if owned then set { s with markers := s.markers.detach id }
  return .flag owned

end Sheet

/-- Whether an entry is about a marker, if it is about any. -/
def Entry.refersTo? (marker : MarkerId) : Entry → Option Bool
  | .markerShift id _ => some (id = marker)
  | _ => none

namespace Workspace

/-- Starts a new log, and answers whether it is empty and has no newest entry. -/
def startLog (disabled : Bool) : EditM Sheet Answer := do
  let log : Log := if disabled then .off else {}
  EditM.modifyDoc (Recordable.setLog log)
  return .emptiness log.entries.isEmpty log.head?.isNone

/-- Whether two entries that may be absent are equal. -/
def sameEntry : Option Entry → Option Entry → Bool
  | none, none => true
  | some a, some b => a.Same b
  | _, _ => false

/-- Carries out a command to a sheet; `other` finds the logs of the other sheets. -/
def runSheet (other : DocId → Log) : SheetCommand → EditM Sheet Answer
  | .recordInsert start length => Sheet.recorded (Recording.recordInsert start length)
  | .recordDelete start text withMarkers =>
    Sheet.recorded (Recording.recordDelete start text withMarkers)
  | .recordChange start length => Sheet.recorded (Recording.recordChange start length)
  | .recordFirstChange => Sheet.recorded Recording.recordFirstChange
  | .recordPropertyChange start length name old =>
    Sheet.recorded (Recording.recordPropertyChange start length name old)
  | .insertBoundary => Sheet.recorded Recording.insertBoundary
  | .measure units => do
    match (← get).doc.log.sizeWithin units with
    | .ok size => return .size size
    | .error e => throw (.error (.history e))
  | .disableLog => Sheet.changeLog Log.disable
  | .enableLog => Sheet.changeLog Log.enable
  | .clearLog => Sheet.changeLog Log.clear
  | .retainLog count => Sheet.changeLog (Log.retain count)
  | .rearmLog => Sheet.changeLog Log.rearm
  | .freshLog disabled => startLog disabled
  | .copyLog source => Sheet.changeLog fun _ => other source
  | .compareEntry index doc otherIndex => do
    return .flag (sameEntry (← get).doc.log.entries[index]? (other doc).entries[otherIndex]?)
  | .entryRefersTo index marker => do
    return .reference ((← get).doc.log.entries[index]?.bind (Entry.refersTo? marker))
  | .makeMarker pos advances => Sheet.makeMarker pos advances
  | .dropMarker marker => Sheet.dropMarker marker
  | .setPoint pos => EditM.done (EditM.modifyDoc (Sheet.setPoint pos))
  | .setTicks ticks => do
    EditM.modifyDoc (Sheet.setTicks ticks)
    return .flag (decide ticks.Clean)
  | .read start stop => do
    let s ← get
    match (Recordable.view s.markers s.doc).read start stop with
    | .ok text => return .text text
    | .error e => throw (.error (.text e))
  | .inspect => return .sheet
  | .units => return .units (← get).doc.log.units

/-! ### Commands -/

/-- A reply that leaves the workspace as it is. -/
def refuse (w : Workspace) (failure : Failure) : Reply := { result := .error failure, after := w }

/-- A reply that succeeds. -/
def answer (w : Workspace) (answer : Answer) : Reply := { result := .ok answer, after := w }

/-- Carries out an editing operation on the document of the given name. -/
def edit {δ : Type} (w : Workspace) (id : DocId) (put : δ → Sheet) (doc : δ)
    (act : EditM δ Answer) : Reply :=
  let finish (s : Editing δ) (result : Except Failure Answer) : Reply :=
    { result
      notices := s.recorder.sent
      after := { w with recorder := s.recorder.collected, markers := s.markers }.setSheet
        (put s.doc) id }
  match act { recorder := w.recorder, markers := w.markers, doc } with
  | .ok a s => finish s (.ok a)
  | .error e s => finish s (.error e)

/-- Truncates the log of a sheet under the recorder's settings and hook. -/
def truncate (w : Workspace) (id : DocId) (sheet : Sheet) : Reply :=
  let ended := truncateUnder w.recorder.hook w.recorder.settings w.depth sheet.log
  { result := match ended.result with
      | .ok outcome => .ok (.outcome outcome)
      | .error e => .error (.error (.history e))
    calls := ended.calls
    after := { w with depth := ended.depth }.setSheet (Recordable.setLog ended.log sheet) id }

/-- Carries out a command to the recorder. -/
def runRecorder (w : Workspace) : RecorderCommand → Reply
  | .setSettings settings =>
    { w with recorder := { w.recorder with settings } }.answer .done
  | .orderSettings =>
    let settings := w.recorder.settings.ordered
    { w with recorder := { w.recorder with settings } }.answer (.settings settings)
  | .restart settings => { w with recorder := .ofSettings settings }.answer (.settings settings)
  | .listen => { w with recorder := { w.recorder with listening := true } }.answer .done
  | .setHook hook => { w with recorder := { w.recorder with hook := some hook } }.answer .done
  | .clearHook =>
    { w with recorder := { w.recorder with hook := none } }.answer (.flag w.recorder.hook.isSome)
  | .holdOff => { w with depth := w.depth + 1 }.answer (.flag true)
  | .release =>
    let depth := w.depth - 1
    { w with depth }.answer (.flag (0 < depth))
  | .describe => w.answer (.words w.recorder.describe)

/-- Carries out a command to a marker. -/
def runMarker (w : Workspace) (id : MarkerId) (m : Marker) : MarkerCommand → Reply
  | .release =>
    { w with markers := w.markers.modify id ({ · with held := false }) }.answer
      (.flag m.owner.isSome)
  | .moveTo pos =>
    { w with markers := w.markers.modify id ({ · with position := pos }) }.answer .done
  | .inspect => w.answer (.marker m.position m.advances)

/-- The log of a sheet, empty if there is no such sheet. -/
def logOf (w : Workspace) (id : DocId) : Log := ((w.sheet? id).map Sheet.log).getD {}

/-- Carries out a command. -/
def step (w : Workspace) : Command → Reply
  | .recorder command => w.runRecorder command
  | .marker id command =>
    match w.markers.get? id with
    | some m => w.runMarker id m command
    | none => w.refuse (.fault .misaddressed)
  | .sheet id command =>
    match w.sheet? id with
    | some sheet => w.edit id (fun s => s) sheet (runSheet w.logOf command)
    | none => w.refuse (.fault .misaddressed)
  | .document id command =>
    match w.sheet? id with
    | some (.document doc) => w.edit id Sheet.document doc command.run
    | _ => w.refuse (.fault .misaddressed)
  | .draft id command =>
    match w.sheet? id with
    | some (.draft draft) => w.edit id Sheet.draft draft command.run
    | _ => w.refuse (.fault .misaddressed)
  | .truncate id =>
    match w.sheet? id with
    | some sheet => w.truncate id sheet
    | none => w.refuse (.fault .misaddressed)

end Workspace

/-- Whether the session ended with the reply. -/
def Reply.ends (r : Reply) : Bool :=
  match r.result with
  | .error (.fault _) => true
  | _ => false

namespace Workspace

/-- The replies to a session, which ends with the first fault. -/
def session (w : Workspace) : List Command → List Reply
  | [] => []
  | command :: rest =>
    let reply := w.step command
    reply :: if reply.ends then [] else reply.after.session rest

/-- The workspace after the commands, whatever came of each. -/
def afterAll (w : Workspace) (commands : List Command) : Workspace :=
  commands.foldl (fun w command => (w.step command).after) w

end Workspace

end EditHistory
