/-
What commands leave alone.

The recorder is shared by all documents, and one thing in it matters to a document
while others are edited: the place of the last boundary.  Only a boundary moves it,
so no edit does, wherever it is made.  `Preserves f act` says that `act` ends with
the same `f` it started from, however it ends, and is proved along the structure of
the program.
-/
import EditHistory.Proofs.Recording
import EditHistory.Workspace.Step

namespace EditHistory

/-- The action ends with the same `f` that it started from, whether it succeeds or not. -/
def Preserves {σ ε α β : Type} (f : σ → α) (act : EStateM ε σ β) : Prop :=
  ∀ s, match act s with
    | .ok _ s' => f s' = f s
    | .error _ s' => f s' = f s

namespace Preserves

variable {σ ε α β γ : Type} {f : σ → α}

theorem pure (b : β) : Preserves f (pure b : EStateM ε σ β) := fun _ => rfl

theorem throw (e : ε) : Preserves f (throw e : EStateM ε σ β) := fun _ => rfl

theorem get : Preserves f (get : EStateM ε σ σ) := fun _ => rfl

theorem modify {g : σ → σ} (h : ∀ s, f (g s) = f s) :
    Preserves f (modify g : EStateM ε σ PUnit) := h

theorem bind {act : EStateM ε σ β} {next : β → EStateM ε σ γ} (hact : Preserves f act)
    (hnext : ∀ b, Preserves f (next b)) : Preserves f (act >>= next) := by
  intro s
  have h := hact s
  simp only [Bind.bind, EStateM.bind]
  cases hrun : act s with
  | error e s' => rwa [hrun] at h
  | ok b s' =>
      rw [hrun] at h
      have h' := hnext b s'
      dsimp only
      split at h' <;> simp_all

theorem ite {p : Prop} [Decidable p] {act act' : EStateM ε σ β} (h : Preserves f act)
    (h' : Preserves f act') : Preserves f (if p then act else act') := by
  split
  · exact h
  · exact h'

theorem forM {δ : Type} {act : δ → EStateM ε σ PUnit} (l : List δ)
    (h : ∀ a ∈ l, Preserves f (act a)) : Preserves f (l.forM act) := by
  induction l with
  | nil => exact pure _
  | cons a rest ih =>
      exact bind (h a List.mem_cons_self) fun _ =>
        ih fun b hb => h b (List.mem_cons_of_mem _ hb)

/-- What leaves everything as it is leaves anything as it is. -/
theorem of_id {act : EStateM ε σ β} (h : Preserves id act) : Preserves f act := by
  intro s
  have hs := h s
  cases hrun : act s with
  | ok b s' =>
      rw [hrun] at hs
      exact congrArg f hs
  | error e s' =>
      rw [hrun] at hs
      exact congrArg f hs

end Preserves

/-! ### The log of a document -/

/-- A document holds its log like a field, and shows no more of the run than its own markers. -/
class LawfulRecordable (δ : Type) [Recordable δ] : Prop where
  log_setLog : ∀ (log : Log) (doc : δ), Recordable.log (Recordable.setLog log doc) = log
  setLog_log : ∀ doc : δ, Recordable.setLog (Recordable.log doc) doc = doc
  setLog_setLog : ∀ (log log' : Log) (doc : δ),
    Recordable.setLog log (Recordable.setLog log' doc) = Recordable.setLog log doc
  view_setLog : ∀ (table : MarkerTable) (log : Log) (doc : δ),
    Recordable.view table (Recordable.setLog log doc) = Recordable.view table doc
  view_table : ∀ (table table' : MarkerTable) (doc : δ), Recordable.view table' doc =
    { Recordable.view table doc with
      markers := table'.ofDoc (Recordable.view table doc).doc }

instance : LawfulRecordable Document where
  log_setLog _ _ := rfl
  setLog_log _ := rfl
  setLog_setLog _ _ _ := rfl
  view_setLog _ _ _ := rfl
  view_table _ _ _ := rfl

instance : LawfulRecordable Draft where
  log_setLog _ _ := rfl
  setLog_log _ := rfl
  setLog_setLog _ _ _ := rfl
  view_setLog _ _ _ := rfl
  view_table _ _ _ := rfl

instance : LawfulRecordable Sheet where
  log_setLog _ sheet := by cases sheet <;> rfl
  setLog_log sheet := by cases sheet <;> rfl
  setLog_setLog _ _ sheet := by cases sheet <;> rfl
  view_setLog _ _ sheet := by cases sheet <;> rfl
  view_table _ _ sheet := by cases sheet <;> rfl

/-! ### Recording -/

namespace Recording

/-- The recording leaves the last boundary where it is. -/
abbrev KeepsBoundary (act : RecordM Unit) : Prop :=
  Preserves (fun s : Recording => s.recorder.lastBoundary) act

theorem keepsBoundary_require (p : Prop) [Decidable p] : KeepsBoundary (require p) :=
  Preserves.ite (Preserves.pure _) (Preserves.throw _)

theorem keepsBoundary_whenEnabled {call : RecordM Unit} (h : KeepsBoundary call) :
    KeepsBoundary (whenEnabled call) :=
  Preserves.bind Preserves.get fun _ => Preserves.ite (Preserves.pure _) h

theorem keepsBoundary_recordInsert (start length : Nat) (v : View) :
    KeepsBoundary (recordInsert start length v) := by
  refine keepsBoundary_whenEnabled (Preserves.bind (keepsBoundary_require _) fun _ =>
    Preserves.modify fun s => ?_)
  rcases adds_or_lengthens_afterInsert v start length s with h | ⟨_, _, -, -, h⟩
  · exact h.keeps.lastBoundary
  · exact h.lastBoundary

theorem keepsBoundary_recordDelete (start : Nat) (text : Text) (withMarkers : Bool) (v : View) :
    KeepsBoundary (recordDelete start text withMarkers v) := by
  refine keepsBoundary_whenEnabled (Preserves.bind (keepsBoundary_require _) fun _ => ?_)
  refine Preserves.bind (keepsBoundary_require _) fun _ => ?_
  refine Preserves.bind (keepsBoundary_require _) fun _ => Preserves.modify fun s => ?_
  exact (adds_afterDelete v start text withMarkers s).keeps.lastBoundary

theorem keepsBoundary_recordChange (start length : Nat) (v : View) :
    KeepsBoundary (recordChange start length v) := by
  refine keepsBoundary_whenEnabled (Preserves.bind (keepsBoundary_require _) fun _ => ?_)
  split
  · exact Preserves.throw _
  · exact Preserves.bind (keepsBoundary_recordDelete _ _ _ v) fun _ =>
      keepsBoundary_recordInsert _ _ v

theorem keepsBoundary_recordFirstChange (v : View) : KeepsBoundary (recordFirstChange v) :=
  keepsBoundary_whenEnabled <| Preserves.modify fun s =>
    (adds_noteFirstChange v s).keeps.lastBoundary

theorem keepsBoundary_recordPropertyChange (start length : Nat) (name : String) (old : Json)
    (v : View) : KeepsBoundary (recordPropertyChange start length name old v) :=
  keepsBoundary_whenEnabled <| Preserves.bind (keepsBoundary_require _) fun _ =>
    Preserves.modify fun s =>
      (adds_afterPropertyChange v start length name old s).keeps.lastBoundary

end Recording

/-! ### Editing -/

namespace EditM

variable {δ : Type}

/-- The operation leaves the last boundary where it is. -/
abbrev KeepsBoundary {α : Type} (act : EditM δ α) : Prop :=
  Preserves (fun s : Editing δ => s.recorder.lastBoundary) act

theorem keepsBoundary_record [Recordable δ] {call : View → RecordM Unit}
    (h : ∀ v, Recording.KeepsBoundary (call v)) : KeepsBoundary (record call : EditM δ Unit) := by
  intro s
  have h' := h (Recordable.view s.markers s.doc)
    { recorder := s.recorder, log := Recordable.log s.doc }
  unfold record
  dsimp only
  split at h'
  · rename_i hrun
    rw [hrun]
    exact h'
  · rename_i hrun
    rw [hrun]
    exact h'

theorem keepsBoundary_apply {change : Editing δ → Except Failure (Editing δ)}
    (h : ∀ s s', change s = .ok s' → s'.recorder = s.recorder) : KeepsBoundary (apply change) := by
  intro s
  unfold apply
  cases hrun : change s with
  | error e => rfl
  | ok s' =>
      dsimp only
      rw [h s s' hrun]

theorem keepsBoundary_modifyDoc (f : δ → δ) : KeepsBoundary (modifyDoc f) :=
  Preserves.modify fun _ => rfl

theorem keepsBoundary_require (p : Prop) [Decidable p] : KeepsBoundary (require p : EditM δ Unit) :=
  Preserves.ite (Preserves.pure _) (Preserves.throw _)

theorem keepsBoundary_mapFailure {f : Failure → Failure} {act : EditM δ Unit}
    (h : KeepsBoundary act) : KeepsBoundary (mapFailure f act) := by
  intro s
  have h' := h s
  unfold mapFailure
  cases hrun : act s with
  | error e s' => rwa [hrun] at h'
  | ok a s' => rwa [hrun] at h'

theorem keepsBoundary_done {act : EditM δ Unit} (h : KeepsBoundary act) :
    KeepsBoundary (done act) :=
  Preserves.bind h fun _ => Preserves.pure _

end EditM

open EditM

namespace Document

variable {s s' : Editing Document}

theorem recorder_checked (h : checked s = .ok s') : s'.recorder = s.recorder := by
  unfold checked at h
  split at h
  · cases h
    rfl
  · cases h

theorem keepsBoundary_insert (text : Text) : EditM.KeepsBoundary (insert text) := by
  unfold insert
  refine Preserves.ite (Preserves.pure _) (Preserves.bind Preserves.get fun _ => ?_)
  refine Preserves.bind
    (keepsBoundary_record (Recording.keepsBoundary_recordInsert _ _)) fun _ => ?_
  refine keepsBoundary_apply fun s s' h => ?_
  unfold insertText at h
  split at h
  · cases h
  · exact (recorder_checked h).trans rfl

theorem keepsBoundary_deleteRange (start stop : Nat) :
    EditM.KeepsBoundary (deleteRange start stop) := by
  unfold deleteRange
  refine Preserves.bind Preserves.get fun _ => ?_
  split
  · exact Preserves.throw _
  · refine Preserves.ite (Preserves.pure _) ?_
    refine Preserves.bind (keepsBoundary_record (Recording.keepsBoundary_recordDelete _ _ _))
      fun _ => ?_
    refine keepsBoundary_apply fun s s' h => ?_
    unfold removeText at h
    split at h
    · cases h
    · exact (recorder_checked h).trans rfl

theorem keepsBoundary_replaceRange (start : Nat) (new : Text) :
    EditM.KeepsBoundary (replaceRange start new) := by
  unfold replaceRange
  have hrest : EditM.KeepsBoundary (do
      EditM.mapFailure whileReplacing (EditM.record (Recording.recordChange start new.length))
      EditM.apply (overwriteText start new)) := by
    refine Preserves.bind (keepsBoundary_mapFailure
      (keepsBoundary_record (Recording.keepsBoundary_recordChange _ _))) fun _ => ?_
    refine keepsBoundary_apply fun s s' h => ?_
    unfold overwriteText at h
    split at h
    · cases h
    · exact (recorder_checked h).trans rfl
  refine Preserves.bind (EditM.keepsBoundary_require _) fun _ =>
    Preserves.bind Preserves.get fun _ => ?_
  exact Preserves.ite (Preserves.bind (Preserves.throw _) fun _ => hrest) hrest

theorem keepsBoundary_putProperty (start stop : Nat) (name : String) (value : Json) :
    EditM.KeepsBoundary (putProperty start stop name value) := by
  unfold putProperty
  refine Preserves.bind Preserves.get fun s => ?_
  have hrest : EditM.KeepsBoundary (do
      (s.doc.changedRuns start stop name value).forM (recordRun name)
      EditM.apply fun s =>
        checked { s with
          doc := touch { s.doc with spans := { start, stop, name, value } :: s.doc.spans } }) := by
    refine Preserves.bind (Preserves.forM _ fun run _ => ?_) fun _ =>
      keepsBoundary_apply fun s s' h => (recorder_checked h).trans rfl
    exact keepsBoundary_record (Recording.keepsBoundary_recordPropertyChange _ _ _ _)
  have hdone := Preserves.ite (p := (s.doc.changedRuns start stop name value).isEmpty)
    (Preserves.pure ()) hrest
  exact Preserves.ite (Preserves.bind (Preserves.throw _) fun _ => hdone) hdone

end Document

namespace Draft

theorem recorder_edited {text : Text} {point : Nat} {s s' : Editing Draft}
    (h : edited text point s = .ok s') : s'.recorder = s.recorder := by
  unfold edited at h
  split at h
  · cases h
    rfl
  · cases h

theorem keepsBoundary_typeChar (c : Char) : EditM.KeepsBoundary (typeChar c) := by
  unfold typeChar
  refine Preserves.bind (keepsBoundary_record fun v =>
    Recording.keepsBoundary_recordInsert v.point 1 v) fun _ => ?_
  refine keepsBoundary_apply fun s s' h => ?_
  split at h
  · exact recorder_edited h
  · cases h

theorem keepsBoundary_backspace : EditM.KeepsBoundary backspace := by
  unfold backspace
  refine Preserves.bind Preserves.get fun _ =>
    Preserves.bind (EditM.keepsBoundary_require _) fun _ => ?_
  dsimp only
  split
  · exact Preserves.throw _
  · exact Preserves.bind (keepsBoundary_record (Recording.keepsBoundary_recordDelete _ _ _))
      fun _ => keepsBoundary_apply fun s s' h => recorder_edited h

end Draft

/-! ### Commands -/

/-- The command only looks at the sheet. -/
def SheetCommand.onlyLooks : SheetCommand → Bool
  | .measure _ | .compareEntry .. | .entryRefersTo .. | .read .. | .inspect | .units => true
  | _ => false

/-- The command only looks at the document. -/
def DocumentCommand.onlyLooks : DocumentCommand → Bool
  | .properties .. | .report _ | .describe => true
  | _ => false

theorem SheetCommand.preserves_of_onlyLooks (other : DocId → Log) {c : SheetCommand}
    (h : c.onlyLooks = true) : Preserves id (Workspace.runSheet other c) := by
  cases c with
  | measure units =>
      refine Preserves.bind Preserves.get fun _ => ?_
      split
      · exact Preserves.pure _
      · exact Preserves.throw _
  | compareEntry index doc otherIndex =>
      exact Preserves.bind Preserves.get fun _ => Preserves.pure _
  | entryRefersTo index marker => exact Preserves.bind Preserves.get fun _ => Preserves.pure _
  | read start stop =>
      refine Preserves.bind Preserves.get fun _ => ?_
      split
      · exact Preserves.pure _
      · exact Preserves.throw _
  | inspect => exact Preserves.pure _
  | units => exact Preserves.bind Preserves.get fun _ => Preserves.pure _
  | _ => cases h

theorem DocumentCommand.preserves_of_onlyLooks {c : DocumentCommand} (h : c.onlyLooks = true) :
    Preserves id c.run := by
  cases c with
  | properties start stop name => exact Preserves.bind Preserves.get fun _ => Preserves.pure _
  | report units =>
      refine Preserves.bind Preserves.get fun _ => ?_
      split
      · exact Preserves.pure _
      · exact Preserves.throw _
  | describe => exact Preserves.bind Preserves.get fun _ => Preserves.pure _
  | _ => cases h

/-- The command ends units of the document it is addressed to. -/
def DocumentCommand.endsUnits : DocumentCommand → Bool
  | .typeIn .. | .undo _ => true
  | _ => false

theorem DocumentCommand.keepsBoundary_run {c : DocumentCommand} (h : c.endsUnits = false) :
    EditM.KeepsBoundary c.run := by
  cases c with
  | insert text => exact keepsBoundary_done (Document.keepsBoundary_insert text)
  | deleteRange start stop =>
      exact keepsBoundary_done (Document.keepsBoundary_deleteRange start stop)
  | replaceRange start text =>
      exact keepsBoundary_done (Document.keepsBoundary_replaceRange start text)
  | putProperty start stop name value =>
      exact keepsBoundary_done (Document.keepsBoundary_putProperty start stop name value)
  | markSaved modtime => exact keepsBoundary_done (keepsBoundary_modifyDoc _)
  | markUnmodified => exact keepsBoundary_done (keepsBoundary_modifyDoc _)
  | typeIn text size => cases h
  | undo count => cases h
  | _ => exact (DocumentCommand.preserves_of_onlyLooks rfl).of_id

theorem DraftCommand.keepsBoundary_run (c : DraftCommand) : EditM.KeepsBoundary c.run := by
  cases c with
  | typeText text =>
      exact keepsBoundary_done (Preserves.forM text fun c _ => Draft.keepsBoundary_typeChar c)
  | backspace => exact keepsBoundary_done Draft.keepsBoundary_backspace
  | save modtime => exact keepsBoundary_done (keepsBoundary_modifyDoc _)

theorem Sheet.keepsBoundary_recorded {call : View → RecordM Unit}
    (h : ∀ v, Recording.KeepsBoundary (call v)) : EditM.KeepsBoundary (Sheet.recorded call) :=
  keepsBoundary_done (keepsBoundary_record h)

theorem Sheet.keepsBoundary_changeLog (f : Log → Log) : EditM.KeepsBoundary (Sheet.changeLog f) :=
  keepsBoundary_done (keepsBoundary_modifyDoc _)

theorem Sheet.dropMarker_eq (id : MarkerId) (s : Editing Sheet) :
    dropMarker id s = .ok (.flag (s.markers.owns s.doc.id id))
      (if s.markers.owns s.doc.id id then { s with markers := s.markers.detach id } else s) := by
  simp only [dropMarker, get_bind]
  by_cases h : s.markers.owns s.doc.id id = true
  · rw [if_pos h, if_pos h]
    rfl
  · rw [if_neg h, if_neg h]
    rfl

/-- Of all that can be asked of a sheet only a boundary moves the last boundary. -/
theorem Workspace.keepsBoundary_runSheet (other : DocId → Log) {c : SheetCommand}
    (h : c ≠ .insertBoundary) : EditM.KeepsBoundary (Workspace.runSheet other c) := by
  cases c with
  | recordInsert start length =>
      exact Sheet.keepsBoundary_recorded (Recording.keepsBoundary_recordInsert start length)
  | recordDelete start text withMarkers =>
      exact Sheet.keepsBoundary_recorded
        (Recording.keepsBoundary_recordDelete start text withMarkers)
  | recordChange start length =>
      exact Sheet.keepsBoundary_recorded (Recording.keepsBoundary_recordChange start length)
  | recordFirstChange =>
      exact Sheet.keepsBoundary_recorded Recording.keepsBoundary_recordFirstChange
  | recordPropertyChange start length name old =>
      exact Sheet.keepsBoundary_recorded
        (Recording.keepsBoundary_recordPropertyChange start length name old)
  | insertBoundary => exact absurd rfl h
  | disableLog => exact Sheet.keepsBoundary_changeLog _
  | enableLog => exact Sheet.keepsBoundary_changeLog _
  | clearLog => exact Sheet.keepsBoundary_changeLog _
  | retainLog count => exact Sheet.keepsBoundary_changeLog _
  | rearmLog => exact Sheet.keepsBoundary_changeLog _
  | copyLog source => exact Sheet.keepsBoundary_changeLog fun _ => other source
  | freshLog disabled => exact Preserves.bind (keepsBoundary_modifyDoc _) fun _ => Preserves.pure _
  | makeMarker pos advances =>
      exact fun s => rfl
  | dropMarker marker =>
      intro s
      simp only [runSheet, Sheet.dropMarker_eq]
      split <;> rfl
  | setPoint pos => exact keepsBoundary_done (keepsBoundary_modifyDoc _)
  | setTicks ticks => exact Preserves.bind (keepsBoundary_modifyDoc _) fun _ => Preserves.pure _
  | _ => exact (SheetCommand.preserves_of_onlyLooks other rfl).of_id

end EditHistory
