/-
Recording never influences editing.

A run of operations on a document is laid among commands that only record: recording
calls, boundaries, truncations, all that is done to logs or to the recorder.  Two such
runs have the same operations in the same order, but what is laid between them is not the
same, nor are the logs and recorders that they start with.  `Interspersed` says so, from
the latest command back.

Then the operations answer the same, and leave documents that look the same, one by one.
A command that only records changes nothing that shows, and an operation that starts from
what looks the same ends in what looks the same.
-/
import EditHistory.Proofs.Document.Apparent
import EditHistory.Proofs.Session.Course

namespace EditHistory

open Editing (LooksLike)
open LawfulRecordable (setLog_setLog)

/-! ### Operations, and commands that only record -/

/-- The command works on the document behind the sheet. -/
def SheetCommand.operates : SheetCommand → Bool
  | .makeMarker .. | .dropMarker _ | .setPoint _ => true
  | _ => false

/-- The command records, writes the log, or only looks. -/
def SheetCommand.onlyRecords : SheetCommand → Bool
  | .makeMarker .. | .dropMarker _ | .setPoint _ | .setTicks _ => false
  | _ => true

/-- The command edits the document or counts it as unmodified. -/
def DocumentCommand.operates : DocumentCommand → Bool
  | .insert _ | .deleteRange .. | .replaceRange .. | .putProperty .. => true
  | .markSaved _ | .markUnmodified => true
  | _ => false

namespace Command

/-- The command is an operation on the document `id`. -/
def operates (id : DocId) : Command → Bool
  | .sheet target c => target = id && c.operates
  | .document target c => target = id && c.operates
  | _ => false

/-- The command concerns the recorder and the logs of any documents, and nothing else. -/
def onlyRecords : Command → Bool
  | .recorder _ | .truncate _ => true
  | .sheet _ c => c.onlyRecords
  | .document _ c => c.onlyLooks
  | _ => false

/-- No command is both an operation and one that only records. -/
theorem operates_of_onlyRecords {id : DocId} {c : Command} (hc : c.onlyRecords = true) :
    c.operates id = false := by
  cases c with
  | sheet target sc => cases sc <;> simp_all [onlyRecords, operates, SheetCommand.onlyRecords,
      SheetCommand.operates]
  | document target dc => cases dc <;> simp_all [onlyRecords, operates, DocumentCommand.onlyLooks,
      DocumentCommand.operates]
  | _ => rfl

end Command

/-- The same operations on the document `id`, each lot among commands of its own that only
record. -/
inductive Interspersed (id : DocId) : List Command → List Command → Prop
  | nil : Interspersed id [] []
  | both {c : Command} {earlier earlier' : List Command} (hc : c.operates id = true)
      (h : Interspersed id earlier earlier') : Interspersed id (c :: earlier) (c :: earlier')
  | left {c : Command} {earlier commands' : List Command} (hc : c.onlyRecords = true)
      (h : Interspersed id earlier commands') : Interspersed id (c :: earlier) commands'
  | right {c : Command} {commands earlier' : List Command} (hc : c.onlyRecords = true)
      (h : Interspersed id commands earlier') : Interspersed id commands (c :: earlier')

/--
What came of the operations on the document `id`, the latest first: what each answered,
and what showed of the document afterwards.
-/
def Workspace.operated (id : DocId) (start : Workspace) :
    List Command → List (Except Failure Answer × Option (MarkerTable × Document))
  | [] => []
  | c :: earlier =>
    if c.operates id then
      (((start.later earlier).step c).result,
        ((start.later (c :: earlier)).moment? id).map Editing.apparent) :: start.operated id earlier
    else start.operated id earlier

/-! ### A command that only records -/

section Recording

variable {δ : Type} [Recordable δ]

/-- What shows of a document of any kind. -/
abbrev Editing.Shown (s : Editing δ) : MarkerTable × δ := (s.markers, Recordable.setLog {} s.doc)

theorem EditM.preserves_record [LawfulRecordable δ] (call : View → RecordM Unit) :
    Preserves Editing.Shown (record call : EditM δ Unit) := by
  intro s
  unfold record
  dsimp only
  cases call (Recordable.view s.markers s.doc)
      { recorder := s.recorder, log := Recordable.log s.doc } with
  | ok _ r => exact congrArg (Prod.mk s.markers) (setLog_setLog {} r.log s.doc)
  | error e r => exact congrArg (Prod.mk s.markers) (setLog_setLog {} r.log s.doc)

end Recording

namespace Sheet

theorem preserves_recorded (call : View → RecordM Unit) :
    Preserves Editing.Shown (recorded call) :=
  Preserves.bind (EditM.preserves_record call) fun _ => Preserves.pure _

theorem preserves_setLog (f : Sheet → Log) :
    Preserves Editing.Shown (EditM.modifyDoc fun sheet => Recordable.setLog (f sheet) sheet) :=
  Preserves.modify fun s => congrArg (Prod.mk s.markers) (setLog_setLog _ _ s.doc)

theorem preserves_changeLog (f : Log → Log) : Preserves Editing.Shown (changeLog f) :=
  Preserves.bind (preserves_setLog _) fun _ => Preserves.pure _

end Sheet

theorem SheetCommand.preserves_run (other : DocId → Log) {c : SheetCommand}
    (hc : c.onlyRecords = true) : Preserves Editing.Shown (Workspace.runSheet other c) := by
  cases c with
  | recordInsert start length => exact Sheet.preserves_recorded _
  | recordDelete start text withMarkers => exact Sheet.preserves_recorded _
  | recordChange start length => exact Sheet.preserves_recorded _
  | recordFirstChange => exact Sheet.preserves_recorded _
  | recordPropertyChange start length name old => exact Sheet.preserves_recorded _
  | insertBoundary => exact Sheet.preserves_recorded _
  | disableLog => exact Sheet.preserves_changeLog _
  | enableLog => exact Sheet.preserves_changeLog _
  | clearLog => exact Sheet.preserves_changeLog _
  | retainLog count => exact Sheet.preserves_changeLog _
  | rearmLog => exact Sheet.preserves_changeLog _
  | copyLog source => exact Sheet.preserves_changeLog fun _ => other source
  | freshLog disabled =>
      exact Preserves.bind (Sheet.preserves_setLog fun _ => _) fun _ => Preserves.pure _
  | makeMarker pos advances => cases hc
  | dropMarker marker => cases hc
  | setPoint pos => cases hc
  | setTicks ticks => cases hc
  | _ => exact (SheetCommand.preserves_of_onlyLooks other rfl).of_id

namespace Workspace

variable {w w' start start' : Workspace} {id target : DocId} {c : Command}
  {s s' : Editing Document} {commands commands' : List Command}

/-- A command to any sheet that changes nothing of it that shows. -/
theorem edit_only_records {δ : Type} [Recordable δ] {put : δ → Sheet} {doc : δ}
    {act : EditM δ Answer} (hs : w.moment? id = some s) (hact : Preserves Editing.Shown act)
    (hput : ∀ log d, put (Recordable.setLog log d) = Recordable.setLog log (put d))
    (hdoc : target = id → put doc = .document s.doc) :
    ∃ t, (w.edit target put doc act).after.moment? id = some t ∧ t.apparent = s.apparent := by
  obtain ⟨-, -, hmark⟩ := moment?_eq_some.mp hs
  have hshown := hact.finalState { recorder := w.recorder, markers := w.markers, doc }
  rw [edit_after]
  generalize finalState (act { recorder := w.recorder, markers := w.markers, doc }) = u at hshown
  obtain ⟨hmarkers, hlog⟩ := Prod.mk.inj hshown
  have hmarkers' : u.markers = s.markers := hmarkers.trans hmark
  by_cases htarget : target = id
  · subst htarget
    have hput' : Recordable.setLog {} (put u.doc) = Recordable.setLog {} (Sheet.document s.doc) := by
      rw [← hput, ← hdoc rfl, ← hput]
      exact congrArg put hlog
    cases hdoc' : put u.doc with
    | document d =>
        rw [hdoc'] at hput'
        refine ⟨_, moment?_setSheet_self hs _ _ w.depth d, ?_⟩
        exact Prod.ext hmarkers' (Sheet.document.inj hput')
    | draft d =>
        rw [hdoc'] at hput'
        cases hput'
  · refine ⟨_, moment?_setSheet_ne htarget hs _ _ w.depth _, ?_⟩
    exact Prod.ext hmarkers' rfl

/-- A command that only records changes nothing that shows, whatever becomes of it. -/
theorem step_only_records (hs : w.moment? id = some s) (hc : c.onlyRecords = true) :
    ∃ t, (w.step c).after.moment? id = some t ∧ t.apparent = s.apparent := by
  obtain ⟨hsheet, -, -⟩ := moment?_eq_some.mp hs
  cases c with
  | recorder rc =>
      obtain ⟨t, ht, haside⟩ := step_recorder hs rc
      exact ⟨t, ht, Prod.ext (haside.markers rfl) (by rw [Editing.apparent, haside.doc]; rfl)⟩
  | truncate target =>
      unfold step
      dsimp only
      cases hother : w.sheet? target with
      | none => exact ⟨s, hs, rfl⟩
      | some sheet =>
          by_cases htarget : target = id
          · subst htarget
            obtain rfl : sheet = .document s.doc := Option.some.inj (hother.symm.trans hsheet)
            exact ⟨_, moment?_setSheet_self hs w.recorder w.markers _ _, by
              rw [Editing.apparent, Editing.apparent, (moment?_eq_some.mp hs).2.2]⟩
          · exact ⟨_, moment?_setSheet_ne htarget hs w.recorder w.markers _ _, by
              rw [Editing.apparent, Editing.apparent, (moment?_eq_some.mp hs).2.2]⟩
  | sheet target sc =>
      unfold step
      dsimp only
      cases hother : w.sheet? target with
      | none => exact ⟨s, hs, rfl⟩
      | some sheet =>
          refine edit_only_records hs (SheetCommand.preserves_run w.logOf hc) (fun _ _ => rfl) ?_
          rintro rfl
          exact Option.some.inj (hother.symm.trans hsheet)
  | document target dc =>
      unfold step
      dsimp only
      split
      · rename_i doc hother
        refine edit_only_records hs (DocumentCommand.preserves_of_onlyLooks hc).of_id (fun _ _ => rfl) ?_
        rintro rfl
        exact Option.some.inj (hother.symm.trans hsheet)
      · exact ⟨s, hs, rfl⟩
  | _ => cases hc

/-! ### An operation -/

/-- Two workspaces in which the document `id` looks the same. -/
def LookAlike (id : DocId) (w w' : Workspace) : Prop :=
  ∃ s s', w.moment? id = some s ∧ w'.moment? id = some s' ∧ LooksLike s s'

theorem LookAlike.apparent (h : LookAlike id w w') :
    (w.moment? id).map Editing.apparent = (w'.moment? id).map Editing.apparent := by
  obtain ⟨s, s', hs, hs', hlooks⟩ := h
  rw [hs, hs', Option.map_some, Option.map_some, (Editing.looksLike_iff.mp hlooks).1]

/-- A command that ends alike on both documents answers the same, and they look the same again. -/
theorem edit_alike {act act' : EditM Document Answer} (hs : w.moment? id = some s)
    (hs' : w'.moment? id = some s') (h : Alike LooksLike (act s) (act' s')) :
    (w.edit id Sheet.document s.doc act).result = (w'.edit id Sheet.document s'.doc act').result ∧
      LookAlike id (w.edit id Sheet.document s.doc act).after
        (w'.edit id Sheet.document s'.doc act').after := by
  obtain ⟨-, hrec, hmark⟩ := moment?_eq_some.mp hs
  obtain ⟨-, hrec', hmark'⟩ := moment?_eq_some.mp hs'
  have hcollected : ∀ {t t' : Editing Document}, LooksLike t t' →
      LooksLike { t with recorder := t.recorder.collected }
        { t' with recorder := t'.recorder.collected } := by
    rintro _ _ ⟨u, r, r', hpoint⟩
    exact .intro u { r with recorder := r.recorder.collected }
      { r' with recorder := r'.recorder.collected } hpoint
  rw [edit, edit, hrec, hmark, hrec', hmark']
  change Alike LooksLike (act { recorder := s.recorder, markers := s.markers, doc := s.doc })
    (act' { recorder := s'.recorder, markers := s'.markers, doc := s'.doc }) at h
  generalize act { recorder := s.recorder, markers := s.markers, doc := s.doc } = r at h ⊢
  generalize act' { recorder := s'.recorder, markers := s'.markers, doc := s'.doc } = r' at h ⊢
  cases h with
  | ok a h =>
      exact ⟨rfl, _, _, moment?_setSheet_self hs _ _ w.depth _,
        moment?_setSheet_self hs' _ _ w'.depth _, hcollected h⟩
  | error e h =>
      exact ⟨rfl, _, _, moment?_setSheet_self hs _ _ w.depth _,
        moment?_setSheet_self hs' _ _ w'.depth _, hcollected h⟩

end Workspace

theorem EditM.alike_done {act act' : EditM Document Unit} {s s' : Editing Document}
    {R : Editing Document → Editing Document → Prop} (h : Alike R (act s) (act' s')) :
    Alike R (done act s) (done act' s') := by
  unfold done
  simp only [Bind.bind, EStateM.bind]
  generalize act s = r at h ⊢
  generalize act' s' = r' at h ⊢
  cases h with
  | ok _ h => exact .ok _ h
  | error e h => exact .error e h

/-- The operations on a document do not look at the recording. -/
theorem DocumentCommand.alike_run {c : DocumentCommand} (hc : c.operates = true)
    {s s' : Editing Document} (h : LooksLike s s') (hshort : s.doc.text.Short) :
    Alike LooksLike (c.run s) (c.run s') := by
  cases c with
  | insert text => exact EditM.alike_done (Document.alike_insert text h)
  | deleteRange start stop => exact EditM.alike_done (Document.alike_deleteRange start stop h hshort)
  | replaceRange start text =>
      exact EditM.alike_done (Document.alike_replaceRange start text h hshort)
  | putProperty start stop name value =>
      exact EditM.alike_done (Document.alike_putProperty start stop name value h hshort)
  | markSaved modtime =>
      obtain ⟨s, r, r', hpoint⟩ := h
      exact .ok _ (.intro { s with doc := s.doc.markSaved modtime } r r' hpoint)
  | markUnmodified =>
      obtain ⟨s, r, r', hpoint⟩ := h
      exact .ok _ (.intro { s with doc := s.doc.markUnmodified } r r' hpoint)
  | _ => cases hc

/-- What an operation on a document as a sheet is to the document itself. -/
def SheetCommand.operation : SheetCommand → EditM Document Answer
  | .makeMarker pos advances => fun s =>
    .ok (.number s.markers.nextId) { s with markers := s.markers.push (s.doc.marker pos advances) }
  | .dropMarker id => fun s =>
    .ok (.flag (s.markers.owns s.doc.id id))
      (if s.markers.owns s.doc.id id then { s with markers := s.markers.detach id } else s)
  | .setPoint pos => fun s => .ok .done { s with doc := s.doc.setPoint pos }
  | _ => pure .done

theorem SheetCommand.alike_operation {c : SheetCommand} (hc : c.operates = true)
    {s s' : Editing Document} (h : LooksLike s s') :
    Alike LooksLike (c.operation s) (c.operation s') := by
  obtain ⟨s, r, r', hpoint⟩ := h
  cases c with
  | makeMarker pos advances =>
      exact .ok _ (.intro { s with markers := s.markers.push (s.doc.marker pos advances) } r r'
        hpoint)
  | setPoint pos =>
      exact .ok _ (.intro { s with doc := s.doc.setPoint pos } r r' (Nat.min_le_right _ _))
  | dropMarker id =>
      have hdropped := LooksLike.intro
        (if s.markers.owns s.doc.id id then { s with markers := s.markers.detach id } else s) r r'
        (by split <;> exact hpoint)
      have hrecorded : ∀ r : Recording, (if s.markers.owns s.doc.id id then
          { s with markers := s.markers.detach id } else s).recorded r
            = if s.markers.owns s.doc.id id then
                { s.recorded r with markers := s.markers.detach id } else s.recorded r := by
        intro r
        split <;> rfl
      rw [hrecorded, hrecorded] at hdropped
      exact .ok _ hdropped
  | _ => cases hc

namespace Workspace

variable {w w' start start' : Workspace} {id : DocId} {c : Command} {s s' : Editing Document}
  {commands commands' : List Command}

/-- As a sheet a document is worked on as by itself. -/
theorem runSheet_operation (other : DocId → Log) {sc : SheetCommand} (hc : sc.operates = true)
    (s : Editing Document) :
    ∃ a t, sc.operation s = .ok a t ∧
      runSheet other sc { recorder := s.recorder, markers := s.markers, doc := .document s.doc }
        = .ok a { recorder := t.recorder, markers := t.markers, doc := .document t.doc } := by
  cases sc with
  | makeMarker pos advances => exact ⟨_, _, rfl, rfl⟩
  | setPoint pos => exact ⟨_, _, rfl, rfl⟩
  | dropMarker marker =>
      refine ⟨_, _, rfl, ?_⟩
      simp only [runSheet, Sheet.dropMarker_eq]
      show EStateM.Result.ok _ (if s.markers.owns s.doc.id marker = true then _ else _) = _
      congr 1
      by_cases howned : s.markers.owns s.doc.id marker = true
      · rw [if_pos howned, if_pos howned]
      · rw [if_neg howned, if_neg howned]
  | _ => cases hc

theorem edit_operation {sc : SheetCommand} (hc : sc.operates = true) (hs : w.moment? id = some s) :
    w.edit id (fun s => s) (.document s.doc) (runSheet w.logOf sc)
      = w.edit id Sheet.document s.doc sc.operation := by
  obtain ⟨-, hrec, hmark⟩ := moment?_eq_some.mp hs
  obtain ⟨a, t, hoperation, hrun⟩ := runSheet_operation w.logOf hc s
  obtain ⟨recorder, markers, doc⟩ := s
  unfold edit
  rw [hrec, hmark, hrun, hoperation]

/-- An operation answers the same in two workspaces that look alike, and they look alike again. -/
theorem step_alike (h : LookAlike id w w') (hc : c.operates id = true)
    (hshort : ∀ s, w.moment? id = some s → s.doc.text.Short) :
    (w.step c).result = (w'.step c).result ∧ LookAlike id (w.step c).after (w'.step c).after := by
  obtain ⟨s, s', hs, hs', hlooks⟩ := h
  have hsheet := (moment?_eq_some.mp hs).1
  have hsheet' := (moment?_eq_some.mp hs').1
  cases c with
  | sheet target sc =>
      simp only [Command.operates, Bool.and_eq_true, decide_eq_true_eq] at hc
      obtain ⟨rfl, hc⟩ := hc
      rw [step_sheet_eq hsheet, step_sheet_eq hsheet', edit_operation hc hs, edit_operation hc hs']
      exact edit_alike hs hs' (SheetCommand.alike_operation hc hlooks)
  | document target dc =>
      simp only [Command.operates, Bool.and_eq_true, decide_eq_true_eq] at hc
      obtain ⟨rfl, hc⟩ := hc
      rw [step_document_eq hsheet, step_document_eq hsheet']
      exact edit_alike hs hs' (DocumentCommand.alike_run hc hlooks (hshort s hs))
  | _ => cases hc

/-! ### Runs -/

/-- What an interspersed run comes to does not depend on what it is interspersed with. -/
theorem operated_alike (h : Interspersed id commands commands') (hstart : LookAlike id start start')
    (hshort : ∀ n s, (start.later (commands.drop n)).moment? id = some s → s.doc.text.Short) :
    LookAlike id (start.later commands) (start'.later commands') ∧
      start.operated id commands = start'.operated id commands' := by
  induction h with
  | nil => exact ⟨hstart, rfl⟩
  | @both c earlier earlier' hc _ ih =>
      obtain ⟨halike, hoperated⟩ := ih fun n => hshort (n + 1)
      obtain ⟨hresult, halike'⟩ := step_alike halike hc (hshort 1)
      refine ⟨halike', ?_⟩
      rw [operated, operated, if_pos hc, if_pos hc, hoperated, hresult]
      congr 2
      exact halike'.apparent
  | @left c earlier commands' hc _ ih =>
      obtain ⟨⟨s, s', hs, hs', hlooks⟩, hoperated⟩ := ih fun n => hshort (n + 1)
      obtain ⟨t, ht, hshown⟩ := step_only_records hs hc
      refine ⟨⟨t, s', ht, hs', hlooks.of_apparent hshown rfl⟩, ?_⟩
      rw [operated, if_neg (by simp [Command.operates_of_onlyRecords hc]), hoperated]
  | @right c commands earlier' hc _ ih =>
      obtain ⟨⟨s, s', hs, hs', hlooks⟩, hoperated⟩ := ih hshort
      obtain ⟨t, ht, hshown⟩ := step_only_records hs' hc
      refine ⟨⟨s, t, hs, ht, hlooks.of_apparent rfl hshown⟩, ?_⟩
      rw [operated, if_neg (by simp [Command.operates_of_onlyRecords hc]), hoperated]

/--
**Recording never influences editing.**  Let two workspaces hold a document that looks the
same in both; its logs may differ, and so may the recorders.  Let the same operations on it
be carried out in both, each time among other commands that only record.  As long as the text
is one that a signed word can count, every operation answers the same, or fails in the same
way, and after each the document looks the same in both workspaces: text, cursor, markers,
properties, ticks and modification time.  So it does in the end.
-/
theorem recording_never_influences_editing (h : Interspersed id commands commands')
    (hs : start.moment? id = some s) (hs' : start'.moment? id = some s')
    (hsame : s.apparent = s'.apparent) (hpoint : s.doc.point ≤ s.doc.text.length)
    (hshort : ∀ n t, (start.later (commands.drop n)).moment? id = some t → t.doc.text.Short) :
    start.operated id commands = start'.operated id commands' ∧
      ((start.later commands).moment? id).map Editing.apparent
        = ((start'.later commands').moment? id).map Editing.apparent := by
  obtain ⟨halike, hoperated⟩ := operated_alike h
    ⟨s, s', hs, hs', Editing.looksLike_iff.mpr ⟨hsame, hpoint⟩⟩ hshort
  exact ⟨hoperated, halike.apparent⟩

end Workspace

/-- Two edits and one that is refused, with a boundary. -/
def trimming : List Command :=
  [.document ⟨0⟩ (.deleteRange 1 9), .sheet ⟨0⟩ .insertBoundary, .document ⟨0⟩ (.deleteRange 1 3),
    .document ⟨0⟩ (.insert ['x', 'y'])]

/-- The same edits, for the most part unrecorded. -/
def trimmingUnrecorded : List Command :=
  [.truncate ⟨0⟩, .document ⟨0⟩ (.deleteRange 1 9), .document ⟨0⟩ (.deleteRange 1 3),
    .sheet ⟨0⟩ .enableLog, .document ⟨0⟩ (.insert ['x', 'y'])]

/-- A text under a recorder that listens and leaves out the cursor, with its log switched off. -/
def Workspace.unrecorded : Workspace := (Workspace.ofText ['a', 'b', 'c']).later
  [.sheet ⟨0⟩ .disableLog, .recorder .listen, .recorder (.restart { inhibitPoint := true })]

/-- The edits come to the same, though the logs do not. -/
theorem recording_never_influences_editing_trimming :
    (Workspace.ofText ['a', 'b', 'c']).operated ⟨0⟩ trimming
        = Workspace.unrecorded.operated ⟨0⟩ trimmingUnrecorded ∧
      ((Workspace.ofText ['a', 'b', 'c']).later trimming).logOf ⟨0⟩
        ≠ (Workspace.unrecorded.later trimmingUnrecorded).logOf ⟨0⟩ := by
  have hinterspersed : Interspersed ⟨0⟩ trimming trimmingUnrecorded :=
    .right rfl (.both rfl (.left rfl (.both rfl (.right rfl (.both rfl .nil)))))
  have hshort : ∀ n < 5, (((Workspace.ofText ['a', 'b', 'c']).later (trimming.drop n)).moment?
      ⟨0⟩).all (·.doc.text.Short) := by
    decide +kernel
  obtain ⟨s, s', hs, hs', hsame, hpoint⟩ : ∃ s s',
      (Workspace.ofText ['a', 'b', 'c']).moment? ⟨0⟩ = some s ∧
        Workspace.unrecorded.moment? ⟨0⟩ = some s' ∧ s.apparent = s'.apparent ∧
        s.doc.point ≤ s.doc.text.length := ⟨_, _, rfl, rfl, rfl, Nat.zero_le _⟩
  refine ⟨(Workspace.recording_never_influences_editing hinterspersed hs hs' hsame hpoint ?_).1,
    by decide +kernel⟩
  intro n t ht
  have hall := hshort (min n 4) (by omega)
  have hdrop : trimming.drop (min n 4) = trimming.drop n := by
    by_cases hn : n ≤ 4
    · rw [Nat.min_eq_left hn]
    · have hlength : trimming.length ≤ n := Nat.le_of_lt (Nat.not_le.mp hn)
      rw [Nat.min_eq_right (by omega), List.drop_of_length_le hlength]
      rfl
  rw [hdrop, ht] at hall
  simpa using hall

end EditHistory
