/-
Recording by documents of any kind.

Recording does not know what a document is: it is shown a `View`, and trusts nothing that
it sees.  A ledger is a recorder with the logs it records into, and nothing else.  It takes
any request of any document, true or false, and between two requests logs are truncated or
used by themselves and the recorder is set up anew.  Each log that can be reached in this
way is grammatical.

A workspace shows a ledger, and its commands are steps of it, as far as recording is
concerned.  So the logs of every workspace that can be reached are grammatical too.
-/
import EditHistory.Proofs.Log.Grammar
import EditHistory.Proofs.Maintains

namespace EditHistory

namespace Recording

/-- What a document can ask to be recorded. -/
inductive Request where
  | insertion (start length : Nat)
  | deletion (start : Nat) (text : Text) (withMarkers : Bool)
  | change (start length : Nat)
  | firstChange
  | propertyChange (start length : Nat) (name : String) (old : Json)
  | boundary

/-- The recording call for a request. -/
def Request.call : Request → View → RecordM Unit
  | .insertion start length => recordInsert start length
  | .deletion start text withMarkers => recordDelete start text withMarkers
  | .change start length => recordChange start length
  | .firstChange => recordFirstChange
  | .propertyChange start length name old => recordPropertyChange start length name old
  | .boundary => insertBoundary

end Recording

open Recording (Request)

/-- A recorder and the logs that it records into, by the names of their documents. -/
@[ext]
structure Ledger where
  recorder : Recorder := {}
  /-- How often truncation is being held off. -/
  depth : Nat := 0
  logs : DocId → Log := fun _ => {}

namespace Ledger

/-- The recorder with the log of one document. -/
def recording (id : DocId) (l : Ledger) : Recording :=
  { recorder := l.recorder, log := l.logs id }

/-- The ledger with another log for a document. -/
def setLog (id : DocId) (log : Log) (l : Ledger) : Ledger :=
  { l with logs := fun other => if other = id then log else l.logs other }

/-- The ledger with another recorder and another log for a document. -/
def setRecording (id : DocId) (r : Recording) (l : Ledger) : Ledger :=
  { l.setLog id r.log with recorder := r.recorder }

/-- The ledger after a document, whatever it shows of itself, made a request. -/
def record (id : DocId) (v : View) (request : Request) (l : Ledger) : Ledger :=
  l.setRecording id (finalState (request.call v (l.recording id)))

/-- The ledger after a log was truncated as the recorder is set up. -/
def truncate (id : DocId) (l : Ledger) : Ledger :=
  let ended := truncateUnder l.recorder.hook l.recorder.settings l.depth (l.logs id)
  { l.setLog id ended.log with depth := ended.depth }

/-- What can become of a ledger in one step. -/
inductive Step (l : Ledger) : Ledger → Prop
  /-- A request that does not end the run. -/
  | record (id : DocId) (v : View) (request : Request)
      (h : faults (request.call v (l.recording id)) = false) : Step l (l.record id v request)
  | truncate (id : DocId) : Step l (l.truncate id)
  /-- A log is used by itself. -/
  | upkeep {log : Log} (id : DocId) (h : Log.Upkept (l.logs id) log) : Step l (l.setLog id log)
  /-- A log is copied. -/
  | copy (id source : DocId) : Step l (l.setLog id (l.logs source))
  /-- A new log is started. -/
  | start (id : DocId) : Step l (l.setLog id {})
  /-- The recorder is set up anew, or truncation is held off or not. -/
  | configure (recorder : Recorder) (depth : Nat) : Step l { l with recorder, depth }

/-- The ledger can be reached from one with empty logs. -/
inductive Reached : Ledger → Prop
  | empty (recorder : Recorder) (depth : Nat) : Reached { recorder, depth }
  | step {l l' : Ledger} (h : Reached l) (hstep : l.Step l') : Reached l'

variable {l l' : Ledger} {id : DocId} {log : Log} {r r' : Recording}

/-- A step that gives one log another content keeps the others. -/
theorem forall_setLog {P : Log → Prop} (h : ∀ id, P (l.logs id)) (hlog : P log) :
    ∀ other, P ((l.setLog id log).logs other) := by
  intro other
  unfold setLog
  dsimp only
  split
  · exact hlog
  · exact h other

theorem logs_setRecording_self (id : DocId) (r : Recording) (l : Ledger) :
    (l.setRecording id r).logs id = r.log := if_pos rfl

theorem recording_setRecording (id : DocId) (r : Recording) (l : Ledger) :
    (l.setRecording id r).recording id = r := by
  rw [recording, logs_setRecording_self]
  rfl

theorem setRecording_setRecording (id : DocId) (r r' : Recording) (l : Ledger) :
    (l.setRecording id r').setRecording id r = l.setRecording id r := by
  have hlogs : ((l.setRecording id r').setRecording id r).logs = (l.setRecording id r).logs := by
    funext other
    simp only [setRecording, setLog]
    split <;> rfl
  exact congrArg (fun logs => ({ recorder := r.recorder, depth := l.depth, logs } : Ledger)) hlogs

/-! ### Every log is in order -/

/-- A request leaves a log that is in order in order. -/
theorem ordered_request (request : Request) (v : View) :
    Maintains Recording.Ordered (request.call v) := by
  have hinsert (start length : Nat) :
      Maintains Recording.Ordered (Recording.recordInsert start length v) :=
    Recording.maintains_recordInsert start length v fun _ => Recording.ordered_afterInsert
  have hdelete (start : Nat) (text : Text) (withMarkers : Bool) :
      Maintains Recording.Ordered (Recording.recordDelete start text withMarkers v) :=
    Recording.maintains_recordDelete start text withMarkers v fun hstop hmoved _ h =>
      Recording.ordered_afterDelete h hstop hmoved
  cases request with
  | insertion start length => exact hinsert start length
  | deletion start text withMarkers => exact hdelete start text withMarkers
  | change start length =>
      exact Recording.maintains_recordChange start length v (hdelete start · false)
        (hinsert start length)
  | firstChange =>
      exact Recording.maintains_recordFirstChange v fun _ => Recording.ordered_noteFirstChange v
  | propertyChange start length name old =>
      exact Recording.maintains_recordPropertyChange start length name old v fun _ =>
        Recording.ordered_afterPropertyChange v start length name old
  | boundary => exact Maintains.modify fun _ => Recording.ordered_endUnit v

/-- Every log is in order. -/
def Ordered (l : Ledger) : Prop := ∀ id, Log.Grammar none (l.logs id).entries

theorem Ordered.setLog (h : l.Ordered) (hlog : Log.Grammar none log.entries) :
    (l.setLog id log).Ordered :=
  forall_setLog (P := fun log => Log.Grammar none log.entries) h hlog

/-- A step leaves logs that are in order in order. -/
theorem Ordered.step (h : l.Ordered) (hstep : l.Step l') : l'.Ordered := by
  cases hstep with
  | record id v request hfault =>
      exact h.setLog (ordered_request request v _ _ (EndsAt.of_not_faults hfault) (h id))
  | truncate id => exact h.setLog ((h id).upkept (upkept_truncateUnder _ _ _ _))
  | upkeep id hkept => exact h.setLog ((h id).upkept hkept)
  | copy id source => exact h.setLog (h source)
  | start id => exact h.setLog trivial
  | configure recorder depth => exact h

theorem Reached.ordered (h : Reached l) : l.Ordered := by
  induction h with
  | empty recorder depth => exact fun _ => trivial
  | step _ hstep ih => exact ih.step hstep

/--
**Every log is grammatical.**  Let documents of any kind ask for recordings in any order, with
any arguments, and let logs be truncated under any hook and used by themselves, and the
recorder be set up anew at any time.  Then no log has two boundaries next to each other;
below a point move there is nothing or a boundary, or a first change with that below it; and
above a marker shift there are marker shifts at most and then a deletion, of a text at least as
long as the shift, which is not zero.
-/
theorem logs_grammatical (h : Reached l) (id : DocId) : (l.logs id).Grammatical :=
  (h.ordered id).grammatical

/-- A text as a document that is no document of the library shows it, with one marker in it. -/
def abcView (point : Nat) : View where
  doc := ⟨0⟩
  point
  ticks := {}
  modtime := none
  markers := [(0, { position := 2, advances := true, owner := none })]
  read := Text.slice ['a', 'b', 'c']

/-- The cursor is moved after a boundary, and the text around the marker deleted. -/
def deletion : Ledger :=
  (record ⟨0⟩ (abcView 0) .boundary {}).record ⟨0⟩ (abcView 3) (.deletion 1 ['b', 'c'] true)

theorem logs_grammatical_deletion :
    Reached deletion ∧ (deletion.logs ⟨0⟩).Grammatical ∧
      (deletion.logs ⟨0⟩).entries
        = [.deletion ['b', 'c'] (-1), .markerShift 0 1, .pointMove 0, .firstChange none] := by
  have hreached : Reached deletion := by
    refine .step (.step (.empty {} 0) (.record ⟨0⟩ (abcView 0) .boundary rfl)) ?_
    exact .record ⟨0⟩ (abcView 3) (.deletion 1 ['b', 'c'] true) (by decide +kernel)
  exact ⟨hreached, logs_grammatical hreached ⟨0⟩, by decide +kernel⟩

end Ledger

/-! ### The ledger of a workspace -/

namespace Editing

variable {δ : Type} [Recordable δ]

/-- The recorder, and the log of the document. -/
def kept (s : Editing δ) : Recording := { recorder := s.recorder, log := Recordable.log s.doc }

/-- The recorder and the log can be those of the document `id`, if the other logs are those of `l`. -/
def Reached (id : DocId) (l : Ledger) (s : Editing δ) : Prop :=
  (l.setRecording id s.kept).Reached

end Editing

/-- The call makes a request of what it is shown, whatever that is. -/
def Recording.Requests (call : View → RecordM Unit) : Prop :=
  ∀ v, ∃ request : Request, call v = request.call v

section Operations

variable {δ : Type} [Recordable δ] {id : DocId} {l : Ledger}

theorem reached_congr {s s' : Editing δ} (hrecorder : s'.recorder = s.recorder)
    (hlog : Recordable.log s'.doc = Recordable.log s.doc) (h : s.Reached id l) :
    s'.Reached id l := by
  unfold Editing.Reached Editing.kept
  rwa [hrecorder, hlog]

theorem reached_record [LawfulRecordable δ] {call : View → RecordM Unit}
    (hcall : Recording.Requests call) :
    Maintains (Editing.Reached id l) (EditM.record call : EditM δ Unit) := by
  intro s s' hends h
  obtain ⟨r, hr, rfl⟩ := EditM.endsAt_record hends
  obtain ⟨request, hrequest⟩ := hcall (Recordable.view s.markers s.doc)
  rw [hrequest] at hr
  have hstep := Ledger.Step.record (l := l.setRecording id s.kept) id
    (Recordable.view s.markers s.doc) request
    (by rw [Ledger.recording_setRecording]; exact hr.not_faults)
  rw [Ledger.record, Ledger.recording_setRecording, Ledger.setRecording_setRecording] at hstep
  unfold Editing.Reached Editing.kept
  dsimp only
  rw [LawfulRecordable.log_setLog]
  rw [Editing.kept, hr.finalState_eq] at hstep
  exact .step h hstep

/-- A step that gives the log of the document another content. -/
theorem reached_setLog [LawfulRecordable δ] {s : Editing δ} {log : Log}
    (hstep : (l.setRecording id s.kept).Step ((l.setRecording id s.kept).setLog id log))
    (h : s.Reached id l) : { s with doc := Recordable.setLog log s.doc : Editing δ }.Reached id l := by
  have hset : (l.setRecording id s.kept).setLog id log
      = l.setRecording id { recorder := s.recorder, log } :=
    Ledger.setRecording_setRecording id { recorder := s.recorder, log } s.kept l
  unfold Editing.Reached Editing.kept
  dsimp only
  rw [LawfulRecordable.log_setLog, ← hset]
  exact .step h hstep

end Operations

namespace Document

variable {id : DocId} {l : Ledger}

theorem reached_apply {change : Editing Document → Except Failure (Editing Document)}
    (h : ∀ s s', change s = .ok s' → s'.recorder = s.recorder ∧ s'.doc.log = s.doc.log) :
    Maintains (Editing.Reached id l) (EditM.apply change) :=
  EditM.maintains_apply fun s s' hrun => reached_congr (h s s' hrun).1 (h s s' hrun).2

theorem reached_insert (text : Text) : Maintains (Editing.Reached id l) (insert text) := by
  refine Maintains.ite (fun _ => Maintains.pure _) fun _ => Maintains.bind Maintains.get fun s => ?_
  refine Maintains.bind (reached_record fun v => ⟨.insertion _ _, rfl⟩) fun _ => ?_
  refine reached_apply fun s s' h => ?_
  unfold insertText at h
  split at h
  · cases h
  · rw [eq_of_checked h]
    exact ⟨rfl, rfl⟩

theorem reached_deleteRange (start stop : Nat) :
    Maintains (Editing.Reached id l) (deleteRange start stop) := by
  unfold deleteRange
  refine Maintains.bind Maintains.get fun s => ?_
  split
  · exact Maintains.throw _
  · refine Maintains.ite (fun _ => Maintains.pure _) fun _ => ?_
    refine Maintains.bind (reached_record fun v => ⟨.deletion _ _ _, rfl⟩) fun _ => ?_
    refine reached_apply fun s s' h => ?_
    unfold removeText at h
    split at h
    · cases h
    · rw [eq_of_checked h]
      exact ⟨rfl, rfl⟩

theorem reached_replaceRange (start : Nat) (new : Text) :
    Maintains (Editing.Reached id l) (replaceRange start new) := by
  have hrest : Maintains (Editing.Reached id l) (do
      EditM.mapFailure whileReplacing (EditM.record (Recording.recordChange start new.length))
      EditM.apply (overwriteText start new)) := by
    refine Maintains.bind (EditM.maintains_mapFailure (fun _ => rfl)
      (reached_record fun v => ⟨.change _ _, rfl⟩)) fun _ => ?_
    refine reached_apply fun s s' h => ?_
    unfold overwriteText at h
    split at h
    · cases h
    · rw [eq_of_checked h]
      exact ⟨rfl, rfl⟩
  refine Maintains.bind (EditM.maintains_require _) fun _ => Maintains.bind Maintains.get fun s => ?_
  exact Maintains.ite (fun _ => Maintains.bind (Maintains.throw _) fun _ => hrest) fun _ => hrest

theorem reached_putProperty (start stop : Nat) (name : String) (value : Json) :
    Maintains (Editing.Reached id l) (putProperty start stop name value) := by
  refine Maintains.bind Maintains.get fun s => ?_
  have hrest : Maintains (Editing.Reached id l) (do
      (s.doc.changedRuns start stop name value).forM (recordRun name)
      EditM.apply fun s =>
        checked { s with
          doc := touch { s.doc with spans := { start, stop, name, value } :: s.doc.spans } }) := by
    refine Maintains.bind (Maintains.forM fun run _ =>
      reached_record fun v => ⟨.propertyChange _ _ _ _, rfl⟩) fun _ => ?_
    refine reached_apply fun s s' h => ?_
    rw [eq_of_checked h]
    exact ⟨rfl, rfl⟩
  have hdone : Maintains (Editing.Reached id l) (do
      unless (s.doc.changedRuns start stop name value).isEmpty do
        (s.doc.changedRuns start stop name value).forM (recordRun name)
        EditM.apply fun s =>
          checked { s with
            doc := touch { s.doc with spans := { start, stop, name, value } :: s.doc.spans } }) :=
    Maintains.ite (fun _ => Maintains.pure _) fun _ => hrest
  exact Maintains.ite (fun _ => Maintains.bind (Maintains.throw _) fun _ => hdone) fun _ => hdone

theorem reached_restoreMarker (marker : MarkerId) (delta : Int) :
    Maintains (Editing.Reached id l) (EditM.apply (restoreMarker marker delta)) := by
  refine reached_apply fun s s' h => ?_
  unfold restoreMarker at h
  split at h
  · cases h
    exact ⟨rfl, rfl⟩
  · dsimp only at h
    split at h
    · cases h
      exact ⟨rfl, rfl⟩
    · cases h

end Document

theorem Call.reached_run {id : DocId} {l : Ledger} (c : Call) :
    Maintains (Editing.Reached id l) c.run := by
  cases c with
  | insert text => exact Document.reached_insert text
  | deleteRange start stop => exact Document.reached_deleteRange start stop
  | replaceRange start text => exact Document.reached_replaceRange start text
  | putProperty start stop name value => exact Document.reached_putProperty start stop name value
  | restoreProperty change =>
      refine Maintains.bind Maintains.get fun s => ?_
      exact Maintains.ite (fun _ => Document.reached_putProperty _ _ _ _) fun _ => Maintains.throw _
  | boundary => exact reached_record fun v => ⟨.boundary, rfl⟩
  | restoreMarker marker delta => exact Document.reached_restoreMarker marker delta
  | dropMarker marker =>
      refine Maintains.modify fun s h => ?_
      split
      · exact h
      · exact h
  | revisit modtime =>
      refine Maintains.modify fun s h => ?_
      dsimp only
      split
      · exact h
      · exact h
  | setPoint pos => exact Maintains.modify fun s h => h
  | markSaved modtime => exact Maintains.modify fun s h => h
  | markUnmodified => exact Maintains.modify fun s h => h
  | makeMarker pos advances => exact Maintains.modify fun s h => h

theorem DocumentCommand.reached_run {id : DocId} {l : Ledger} (c : DocumentCommand)
    {s : Editing Document} (hfault : faults (c.run s) = false) (h : s.Reached id l) :
    (finalState (c.run s)).Reached id l := by
  have hcalls : Maintains (Editing.Reached id l) (Call.runAll (c.calls s.doc.log)) :=
    Maintains.forM fun call _ => call.reached_run
  refine hcalls s _ ?_ h
  rcases c.ended_run hfault with hended | hended
  · exact Or.inl ⟨(), hended⟩
  · exact Or.inr hended

theorem Draft.reached_edited {text : Text} {point : Nat} {s s' : Editing Draft}
    (h : edited text point s = .ok s') : s'.recorder = s.recorder ∧ s'.doc.log = s.doc.log := by
  unfold edited at h
  split at h
  · cases h
    exact ⟨rfl, rfl⟩
  · cases h

theorem DraftCommand.reached_run {id : DocId} {l : Ledger} (c : DraftCommand) :
    Maintains (Editing.Reached id l) c.run := by
  cases c with
  | typeText text =>
      refine EditM.maintains_done (Maintains.forM fun c _ => ?_)
      refine Maintains.bind (reached_record fun v => ⟨.insertion _ _, rfl⟩) fun _ => ?_
      refine EditM.maintains_apply fun s s' h hreached => ?_
      split at h
      · exact reached_congr (Draft.reached_edited h).1 (Draft.reached_edited h).2 hreached
      · cases h
  | backspace =>
      refine EditM.maintains_done (Maintains.bind Maintains.get fun s => ?_)
      refine Maintains.bind (EditM.maintains_require _) fun _ => ?_
      dsimp only
      split
      · exact Maintains.throw _
      · refine Maintains.bind (reached_record fun v => ⟨.deletion _ _ _, rfl⟩) fun _ => ?_
        exact EditM.maintains_apply fun s s' h =>
          reached_congr (Draft.reached_edited h).1 (Draft.reached_edited h).2
  | save modtime => exact EditM.maintains_done (EditM.maintains_modifyDoc fun s h => h)

theorem Sheet.reached_recorded {id : DocId} {l : Ledger} {call : View → RecordM Unit}
    (h : Recording.Requests call) : Maintains (Editing.Reached id l) (recorded call) :=
  EditM.maintains_done (reached_record h)

theorem Sheet.reached_upkeep {id : DocId} {l : Ledger} {f : Log → Log}
    (h : ∀ log, Log.Upkept log (f log)) : Maintains (Editing.Reached id l) (changeLog f) := by
  refine EditM.maintains_done (EditM.maintains_modifyDoc fun s hs => reached_setLog ?_ hs)
  refine .upkeep id ?_
  rw [Ledger.logs_setRecording_self]
  exact h s.doc.log

/-- A command that only looks leaves the ledger as it is. -/
theorem SheetCommand.reached_of_onlyLooks {id : DocId} {l : Ledger} {other : DocId → Log}
    {c : SheetCommand} (hc : c.onlyLooks = true) :
    Maintains (Editing.Reached id l) (Workspace.runSheet other c) := by
  intro s s' hends h
  have hsame := (SheetCommand.preserves_of_onlyLooks other hc).finalState s
  rw [hends.finalState_eq] at hsame
  rwa [show s' = s from hsame]

theorem SheetCommand.reached_run {id : DocId} {l : Ledger} {other : DocId → Log}
    {c : SheetCommand} (hc : ∀ source, c ≠ .copyLog source) :
    Maintains (Editing.Reached id l) (Workspace.runSheet other c) := by
  cases c with
  | recordInsert start length =>
      exact Sheet.reached_recorded fun v => ⟨.insertion start length, rfl⟩
  | recordDelete start text withMarkers =>
      exact Sheet.reached_recorded fun v => ⟨.deletion start text withMarkers, rfl⟩
  | recordChange start length => exact Sheet.reached_recorded fun v => ⟨.change start length, rfl⟩
  | recordFirstChange => exact Sheet.reached_recorded fun v => ⟨.firstChange, rfl⟩
  | recordPropertyChange start length name old =>
      exact Sheet.reached_recorded fun v => ⟨.propertyChange start length name old, rfl⟩
  | insertBoundary => exact Sheet.reached_recorded fun v => ⟨.boundary, rfl⟩
  | disableLog => exact Sheet.reached_upkeep fun _ => .disable .refl
  | enableLog => exact Sheet.reached_upkeep fun _ => .enable .refl
  | clearLog => exact Sheet.reached_upkeep fun _ => .clear .refl
  | retainLog count => exact Sheet.reached_upkeep fun _ => .retain count .refl
  | rearmLog => exact Sheet.reached_upkeep fun _ => .rearm .refl
  | freshLog disabled =>
      refine Maintains.bind (EditM.maintains_modifyDoc fun s h => ?_) fun _ => Maintains.pure _
      have hstarted := reached_setLog (.start id) h
      cases disabled with
      | false => exact hstarted
      | true =>
          -- A log that is switched off is a new one that was.
          have hupkept : Log.Upkept ((l.setRecording id
              ({ s with doc := Recordable.setLog {} s.doc } : Editing Sheet).kept).logs id) .off := by
            rw [Ledger.logs_setRecording_self]
            show Log.Upkept (Recordable.log (Recordable.setLog {} s.doc)) .off
            rw [LawfulRecordable.log_setLog]
            exact .disable .refl
          have hoff := reached_setLog (.upkeep id hupkept) hstarted
          rwa [LawfulRecordable.setLog_setLog] at hoff
  | copyLog source => exact absurd rfl (hc source)
  | makeMarker pos advances =>
      intro s s' hends h
      rw [← hends.finalState_eq]
      exact h
  | dropMarker marker =>
      intro s s' hends h
      rw [← hends.finalState_eq, Workspace.runSheet, Sheet.dropMarker_eq]
      dsimp only [finalState]
      split
      · exact h
      · exact h
  | setPoint pos =>
      refine EditM.maintains_done (EditM.maintains_modifyDoc fun s h => ?_)
      refine reached_congr (s := s) rfl ?_ h
      cases s.doc <;> rfl
  | setTicks ticks =>
      refine Maintains.bind (EditM.maintains_modifyDoc fun s h => ?_) fun _ => Maintains.pure _
      refine reached_congr (s := s) rfl ?_ h
      cases s.doc <;> rfl
  | _ => exact reached_of_onlyLooks rfl

namespace Workspace

variable {w start : Workspace} {id : DocId}

/-- What recording knows of the workspace. -/
def ledger (w : Workspace) : Ledger := { recorder := w.recorder, depth := w.depth, logs := w.logOf }

theorem logOf_setSheet {sheet : Sheet} {r : Recorder} {table : MarkerTable} {depth : Nat}
    (hsheet : (w.sheet? id).isSome) (other : DocId) :
    ({ w with recorder := r, markers := table, depth }.setSheet sheet id).logOf other
      = if other = id then sheet.log else w.logOf other := by
  unfold logOf
  by_cases hother : other = id
  · subst hother
    obtain ⟨old, hold⟩ := Option.isSome_iff_exists.mp hsheet
    rw [if_pos rfl, sheet?_setSheet_self]
    exact congrArg (fun found => ((found.map fun _ => sheet).map Sheet.log).getD {}) hold
  · rw [if_neg hother, sheet?_setSheet_ne fun h => hother h.symm]
    rfl

/-- An operation on a sheet takes the ledger as far as it takes the sheet. -/
theorem reached_edit {δ : Type} [Recordable δ] (put : δ → Sheet) {doc : δ} {act : EditM δ Answer}
    (hput : ∀ doc, (put doc).log = Recordable.log doc) (hsheet : w.sheet? id = some (put doc))
    (hact : (finalState (act { recorder := w.recorder, markers := w.markers, doc })).Reached id
      w.ledger) : (w.edit id put doc act).after.ledger.Reached := by
  rw [edit_after]
  generalize finalState (act { recorder := w.recorder, markers := w.markers, doc }) = u at hact ⊢
  have hledger : ({ w with recorder := u.recorder.collected, markers := u.markers }.setSheet
      (put u.doc) id).ledger
        = { w.ledger.setRecording id u.kept with recorder := u.recorder.collected } := by
    have hlogs : ({ w with recorder := u.recorder.collected, markers := u.markers }.setSheet
        (put u.doc) id).logOf = (w.ledger.setRecording id u.kept).logs := by
      funext other
      rw [logOf_setSheet (by rw [hsheet]; rfl), hput]
      rfl
    exact congrArg (fun logs => ({ recorder := u.recorder.collected, depth := w.depth, logs } :
      Ledger)) hlogs
  rw [hledger]
  exact hact.step (.configure u.recorder.collected w.depth)

theorem step_truncate_eq {sheet : Sheet} (hsheet : w.sheet? id = some sheet) :
    w.step (.truncate id) = w.truncate id sheet := by
  unfold step
  dsimp only
  rw [hsheet]

theorem ledger_truncate {sheet : Sheet} (hsheet : w.sheet? id = some sheet) :
    (w.truncate id sheet).after.ledger = w.ledger.truncate id := by
  have hlog : w.logOf id = sheet.log := by
    unfold logOf
    rw [hsheet]
    rfl
  have hlogs : (w.truncate id sheet).after.logOf = (w.ledger.truncate id).logs := by
    funext other
    unfold truncate
    dsimp only
    rw [logOf_setSheet (by rw [hsheet]; rfl)]
    show (if other = id then (Recordable.setLog _ sheet : Sheet).log else w.logOf other)
      = if other = id then (truncateUnder w.recorder.hook w.recorder.settings w.depth (w.logOf id)).log
        else w.logOf other
    rw [hlog]
    exact congrArg (fun log => if other = id then log else w.logOf other)
      (LawfulRecordable.log_setLog _ sheet)
  have hdepth : (w.truncate id sheet).after.depth = (w.ledger.truncate id).depth := by
    show (truncateUnder w.recorder.hook w.recorder.settings w.depth sheet.log).depth
      = (truncateUnder w.recorder.hook w.recorder.settings w.depth (w.logOf id)).depth
    rw [hlog]
  exact Ledger.ext rfl hdepth hlogs

/-- A sheet is shown to recording with the log that the ledger has of it. -/
theorem setRecording_ledger {sheet : Sheet} (hsheet : w.sheet? id = some sheet) :
    w.ledger.setRecording id { recorder := w.recorder, log := sheet.log } = w.ledger := by
  have hlogs : (w.ledger.setRecording id { recorder := w.recorder, log := sheet.log }).logs
      = w.ledger.logs := by
    funext other
    show (if other = id then sheet.log else w.logOf other) = w.logOf other
    split
    · rename_i hother
      rw [hother, logOf, hsheet]
      rfl
    · rfl
  exact Ledger.ext rfl rfl hlogs

theorem reached_begin {δ : Type} [Recordable δ] (put : δ → Sheet) {doc : δ}
    (hput : ∀ doc, (put doc).log = Recordable.log doc) (hsheet : w.sheet? id = some (put doc))
    (h : w.ledger.Reached) :
    ({ recorder := w.recorder, markers := w.markers, doc } : Editing δ).Reached id w.ledger := by
  have hsame := setRecording_ledger hsheet
  rw [hput] at hsame
  show (w.ledger.setRecording id { recorder := w.recorder, log := Recordable.log doc }).Reached
  rwa [hsame]

/-- As far as recording is concerned, a command is a step or several of the ledger. -/
theorem reached_step {c : Command} (h : w.ledger.Reached) (hends : (w.step c).ends = false) :
    (w.step c).after.ledger.Reached := by
  cases c with
  | recorder rc => cases rc <;> exact h.step (.configure _ _)
  | marker marker mc =>
      unfold step
      dsimp only
      cases w.markers.get? marker with
      | none => exact h
      | some m => cases mc <;> exact h
  | sheet target sc =>
      obtain ⟨sheet, hsheet⟩ := sheet_of_step rfl hends
      rw [step_sheet_eq hsheet] at hends ⊢
      rw [edit_ends] at hends
      have hbegin := reached_begin (fun sheet => sheet) (fun _ => rfl) hsheet h
      refine reached_edit (fun sheet => sheet) (fun _ => rfl) hsheet ?_
      by_cases hcopy : ∃ source, sc = .copyLog source
      · obtain ⟨source, rfl⟩ := hcopy
        have hcopied : w.ledger.Step (w.ledger.setLog target (w.logOf source)) :=
          .copy target source
        rw [← setRecording_ledger hsheet] at hcopied
        exact reached_setLog hcopied hbegin
      · exact SheetCommand.reached_run (fun source hsc => hcopy ⟨source, hsc⟩) _ _
          (EndsAt.of_not_faults hends) hbegin
  | document target dc =>
      obtain ⟨doc, hsheet⟩ := document_of_step hends
      rw [step_document_eq hsheet] at hends ⊢
      rw [edit_ends] at hends
      exact reached_edit Sheet.document (fun _ => rfl) hsheet
        (dc.reached_run hends (reached_begin Sheet.document (fun _ => rfl) hsheet h))
  | draft target dc =>
      obtain ⟨draft, hsheet⟩ := draft_of_step hends
      rw [step_draft_eq hsheet] at hends ⊢
      rw [edit_ends] at hends
      exact reached_edit Sheet.draft (fun _ => rfl) hsheet (dc.reached_run _ _
        (EndsAt.of_not_faults hends) (reached_begin Sheet.draft (fun _ => rfl) hsheet h))
  | truncate target =>
      obtain ⟨sheet, hsheet⟩ := sheet_of_step rfl hends
      rw [step_truncate_eq hsheet, ledger_truncate hsheet]
      exact h.step (.truncate target)

/-- A workspace in which no command ended the session has a ledger that can be reached. -/
theorem reached_later {commands : List Command} (hstart : start.ledger.Reached)
    (hunbroken : start.Unbroken commands) : (start.later commands).ledger.Reached := by
  induction commands with
  | nil => exact hstart
  | cons c earlier ih => exact reached_step (ih hunbroken.1) hunbroken.2

/-- So its logs are grammatical. -/
theorem grammatical_logOf {commands : List Command} (hstart : start.ledger.Reached)
    (hunbroken : start.Unbroken commands) (id : DocId) :
    ((start.later commands).logOf id).Grammatical :=
  ((reached_later hstart hunbroken).ordered id).grammatical

/-- In a workspace that was just opened the logs are empty. -/
theorem reached_opened {settings : Settings} {sheets : List (DocId → Sheet)}
    (h : ∀ make ∈ sheets, ∀ id, (make id).log = {}) : (opened settings sheets).ledger.Reached := by
  have hlogs : (opened settings sheets).logOf = fun _ => {} := by
    funext id
    unfold logOf
    cases hsheet : (opened settings sheets).sheet? id with
    | none => rfl
    | some sheet =>
        have hmake : ∃ make, sheets[id.number]? = some make ∧ make id = sheet := by
          simpa [sheet?, opened, List.getElem?_zipIdx] using hsheet
        obtain ⟨make, hmake, rfl⟩ := hmake
        exact h make (List.mem_of_getElem? hmake) id
  have hempty : (opened settings sheets).ledger
      = { recorder := .ofSettings settings, depth := 0 } := Ledger.ext rfl rfl hlogs
  rw [hempty]
  exact .empty _ _

end Workspace

end EditHistory
