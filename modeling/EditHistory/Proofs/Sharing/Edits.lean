/-
Operations beside other documents.

Two moments of a document run in parallel if they are one moment, but for the recording and
the markers of the others: `Editing.Parallel`.  An operation that starts from two such
moments ends in two such moments, and with the same result, since it looks at the document,
at its own markers and at its own log, and at nothing else of either.

How the tables of the markers go together is left open, and only two things are asked: the
document sees its own markers in both, under other numbers, and moves them in both.
-/
import EditHistory.Proofs.Document.Alike
import EditHistory.Proofs.Session.Course
import EditHistory.Proofs.Sharing.Markers
import EditHistory.Proofs.Sharing.Recording

namespace EditHistory

/-! ### Moments in parallel -/

open LawfulRecordable

/-- The document sees its own markers in both tables, under other numbers, and moves them in
both. -/
structure Terms.Admits (terms : Terms) (M : MarkerTable → MarkerTable → Prop) : Prop where
  ofDoc : ∀ {table table'}, M table table' → table'.ofDoc terms.id =
    (table.ofDoc terms.id).map fun (marker, m) => (terms.number marker, m)
  move : ∀ {table table'}, M table table' →
    ∀ f, M (table.move terms.id f) (table'.move terms.id f)

variable {δ : Type} [Recordable δ] {M : MarkerTable → MarkerTable → Prop} {terms : Terms}

namespace Editing

/-- The two are one moment of the document, but for the recording and the markers of others. -/
inductive Parallel (M : MarkerTable → MarkerTable → Prop) (terms : Terms) (s : Editing δ) :
    Editing δ → Prop
  | intro (table : MarkerTable) (r : Recording)
      (hid : (Recordable.view s.markers s.doc).doc = terms.id) (hmarkers : M s.markers table)
      (hrec : Recording.Parallel terms { recorder := s.recorder, log := Recordable.log s.doc } r) :
    Parallel M terms s
      { recorder := r.recorder, markers := table, doc := Recordable.setLog r.log s.doc }

variable {s t : Editing δ}

theorem Parallel.id (h : Parallel M terms s t) :
    (Recordable.view s.markers s.doc).doc = terms.id := by
  cases h with
  | intro table r hid hmarkers hrec => exact hid

theorem Parallel.markers (h : Parallel M terms s t) : M s.markers t.markers := by
  cases h with
  | intro table r hid hmarkers hrec => exact hmarkers

theorem Parallel.recorder (h : Parallel M terms s t) : s.recorder.KeepsTo terms := by
  cases h with
  | intro table r hid hmarkers hrec => exact hrec.left

/-- A moment runs in parallel with itself, if markers keep their numbers. -/
theorem Parallel.refl [LawfulRecordable δ] (hid : (Recordable.view s.markers s.doc).doc = terms.id)
    (hmarkers : M s.markers s.markers) (hrec : s.recorder.KeepsTo terms)
    (hnumber : ∀ marker, terms.number marker = marker) : Parallel M terms s s := by
  have hsame : Log.Parallel terms.number (Recordable.log s.doc) (Recordable.log s.doc) :=
    Log.parallel_self fun e _ => e.renumbered_self fun marker _ _ => hnumber marker
  have hself := Parallel.intro s.markers { recorder := s.recorder, log := Recordable.log s.doc } hid
    hmarkers ⟨hsame, hrec, hrec, rfl⟩
  rwa [setLog_log] at hself

end Editing

open Editing (Parallel)

variable {s t : Editing δ}

/-! ### Steps in parallel -/

namespace EditM

variable [LawfulRecordable δ]

theorem parallel_record (hM : terms.Admits M) {call : View → RecordM Unit}
    (hcall : ∀ v : View, v.doc = terms.id →
      RunsAlike (Recording.Parallel terms) (call v) (call (v.renumbered terms.number))) :
    Respects (Parallel M terms) (record call : EditM δ Unit) := by
  rintro s _ ⟨table, r, hid, hmarkers, hrec⟩
  have hview : Recordable.view table (Recordable.setLog r.log s.doc)
      = (Recordable.view s.markers s.doc).renumbered terms.number := by
    have hown : (Recordable.view s.markers s.doc).markers = s.markers.ofDoc terms.id := by
      rw [← hid]
      exact congrArg View.markers (view_table s.markers s.markers s.doc)
    rw [view_setLog, view_table s.markers table, hid, hM.ofDoc hmarkers, ← hown]
    rfl
  refine alike_record (Q := Recording.Parallel terms) ?_ ?_
  · rw [hview, log_setLog]
    exact hcall _ hid _ _ hrec
  · intro q q' hq
    rw [setLog_setLog]
    have hintro : Parallel M terms
        { s with recorder := q.recorder, doc := Recordable.setLog q.log s.doc }
        { recorder := q'.recorder, markers := table,
          doc := Recordable.setLog q'.log (Recordable.setLog q.log s.doc) } := by
      refine .intro table q' ?_ hmarkers ?_
      · rw [view_setLog]
        exact hid
      · rw [log_setLog]
        exact hq
    rwa [setLog_setLog] at hintro

omit [LawfulRecordable δ] in
/-- A change of the document itself that leaves its log alone. -/
theorem parallel_modifyDoc {f : δ → δ}
    (hf : ∀ (table : MarkerTable) (log : Log) (doc : δ),
      f (Recordable.setLog log doc) = Recordable.setLog log (f doc) ∧
        Recordable.log (f doc) = Recordable.log doc ∧
        (Recordable.view table (f doc)).doc = (Recordable.view table doc).doc) :
    Respects (Parallel M terms) (modifyDoc f : EditM δ Unit) := by
  refine .modify ?_
  rintro s _ ⟨table, r, hid, hmarkers, hrec⟩
  obtain ⟨hset, hlog, hdoc⟩ := hf s.markers r.log s.doc
  dsimp only
  rw [hset]
  refine .intro table r (hdoc.trans hid) hmarkers ?_
  rwa [hlog]

/-- A change of the log that takes parallel logs to parallel logs. -/
theorem parallel_modifyLog {f : Log → Log}
    (hf : ∀ log log', Log.Parallel terms.number log log' →
      Log.Parallel terms.number (f log) (f log')) :
    Respects (Parallel M terms) (modifyDoc fun doc : δ =>
      Recordable.setLog (f (Recordable.log doc)) doc) := by
  refine .modify ?_
  rintro s _ ⟨table, r, hid, hmarkers, hrec⟩
  dsimp only
  rw [log_setLog, setLog_setLog]
  have hintro : Parallel M terms
      { s with doc := Recordable.setLog (f (Recordable.log s.doc)) s.doc }
      { recorder := r.recorder, markers := table, doc := Recordable.setLog (f r.log)
          (Recordable.setLog (f (Recordable.log s.doc)) s.doc) } := by
    refine .intro table { r with log := f r.log } ?_ hmarkers ?_
    · rw [view_setLog]
      exact hid
    · rw [log_setLog]
      exact ⟨hf _ _ hrec.log, hrec.left, hrec.right, hrec.sent⟩
  rwa [setLog_setLog] at hintro

end EditM

/-! ### Documents -/

namespace Document

variable {s t u u' : Editing Document}

/-- Whether a moment is in range is decided by the document and its own markers. -/
theorem inRange_iff (hM : terms.Admits M) (h : Parallel M terms u u') : InRange u ↔ InRange u' := by
  obtain ⟨table, r, hid, hmarkers, hrec⟩ := h
  have hid' : u.doc.id = terms.id := hid
  show InRange u ↔ Offset.Fits u.doc.point ∧ Offset.Fits u.doc.ticks.modified ∧
    (∀ m ∈ table.ofDoc u.doc.id, Offset.Fits m.2.position) ∧
    ∀ span ∈ u.doc.spans, Offset.Fits span.start ∧ Offset.Fits span.stop
  rw [hid', hM.ofDoc hmarkers, List.forall_mem_map, ← hid']
  exact Iff.rfl

/-- A change that is checked in both moments goes alike. -/
theorem alike_checked (hM : terms.Admits M)
    {change : Editing Document → Except Failure (Editing Document)}
    (hst : Parallel M terms s t) (hchange : change s = checked u) (hchange' : change t = checked u')
    (hu : Parallel M terms u u') :
    Alike (Parallel M terms) (EditM.apply change s) (EditM.apply change t) := by
  refine EditM.alike_apply hst ?_
  rw [hchange, hchange']
  by_cases hin : InRange u
  · exact Or.inl ⟨u, u', checked_ok hin, checked_ok ((inRange_iff hM hu).mp hin), hu⟩
  · exact Or.inr ⟨_, checked_overflow hin,
      checked_overflow fun hin' => hin ((inRange_iff hM hu).mpr hin')⟩

theorem respects_insertText (hM : terms.Admits M) (start : Nat) (added : Text) :
    Respects (Parallel M terms) (EditM.apply (insertText start added)) := by
  rintro s _ ⟨table, r, hid, hmarkers, hrec⟩
  have hst := Parallel.intro table r hid hmarkers hrec
  have hmoved := hM.move hmarkers fun m =>
    Offset.afterInsert start added.length m.advances m.position
  rw [← hid] at hmoved
  cases htext : s.doc.text.insert start added with
  | error e =>
      exact EditM.alike_apply hst (Or.inr ⟨_, insertText_error htext, insertText_error htext⟩)
  | ok text =>
      exact alike_checked hM hst (insertText_checked htext) (insertText_checked htext)
        (.intro _ r hid hmoved hrec)

theorem respects_removeText (hM : terms.Admits M) (start stop : Nat) :
    Respects (Parallel M terms) (EditM.apply (removeText start stop)) := by
  rintro s _ ⟨table, r, hid, hmarkers, hrec⟩
  have hst := Parallel.intro table r hid hmarkers hrec
  have hmoved := hM.move hmarkers fun m => Offset.afterDelete start stop m.position
  rw [← hid] at hmoved
  cases htext : s.doc.text.remove start stop with
  | error e =>
      exact EditM.alike_apply hst (Or.inr ⟨_, removeText_error htext, removeText_error htext⟩)
  | ok text =>
      exact alike_checked hM hst (removeText_checked htext) (removeText_checked htext)
        (.intro _ r hid hmoved hrec)

theorem respects_overwriteText (hM : terms.Admits M) (start : Nat) (new : Text) :
    Respects (Parallel M terms) (EditM.apply (overwriteText start new)) := by
  rintro s _ ⟨table, r, hid, hmarkers, hrec⟩
  have hst := Parallel.intro table r hid hmarkers hrec
  cases htext : s.doc.text.overwrite start new with
  | error e =>
      exact EditM.alike_apply hst
        (Or.inr ⟨_, overwriteText_error htext, overwriteText_error htext⟩)
  | ok text =>
      exact alike_checked hM hst (overwriteText_checked htext) (overwriteText_checked htext)
        (.intro table r hid hmarkers hrec)

theorem respected_parallel (hM : terms.Admits M) : Respected (Parallel M terms) where
  text := by
    rintro s _ ⟨table, r, -, -, -⟩
    rfl
  point := by
    rintro s _ ⟨table, r, -, -, -⟩
    rfl
  spans := by
    rintro s _ ⟨table, r, -, -, -⟩
    rfl
  recordInsert start length := EditM.parallel_record hM fun _ hv =>
    Recording.runsAlike_recordInsert hv start length
  recordDelete start text withMarkers := EditM.parallel_record hM fun _ hv =>
    Recording.runsAlike_recordDelete hv start text withMarkers
  recordChange start length := EditM.parallel_record hM fun _ hv =>
    Recording.runsAlike_recordChange hv start length
  recordRun _ _ := EditM.parallel_record hM fun _ hv =>
    Recording.runsAlike_recordPropertyChange hv _ _ _ _
  insertBoundary := EditM.parallel_record hM fun _ _ => Recording.runsAlike_insertBoundary
  insertText := respects_insertText hM
  removeText := respects_removeText hM
  overwriteText := respects_overwriteText hM
  withSpan span := by
    rintro s _ ⟨table, r, hid, hmarkers, hrec⟩
    have hst := Parallel.intro table r hid hmarkers hrec
    exact alike_checked hM hst rfl rfl (.intro table r hid hmarkers hrec)

end Document

/-! ### Drafts -/

namespace Draft

theorem edited_alike {s t : Editing Draft} (h : Parallel M terms s t) (text : Text) (point : Nat) :
    (∃ u u', edited text point s = .ok u ∧ edited text point t = .ok u' ∧ Parallel M terms u u') ∨
      ∃ e, edited text point s = .error e ∧ edited text point t = .error e := by
  obtain ⟨table, r, hid, hmarkers, hrec⟩ := h
  by_cases htick : Offset.Fits (s.doc.ticks.modified + 1)
  · exact Or.inl ⟨_, _, if_pos htick, if_pos htick, .intro table r hid hmarkers hrec⟩
  · exact Or.inr ⟨_, if_neg htick, if_neg htick⟩

theorem respects_typeChar (hM : terms.Admits M) (c : Char) :
    Respects (Parallel M terms) (typeChar c) := by
  refine .bind (EditM.parallel_record hM fun v hv =>
    Recording.runsAlike_recordInsert hv v.point 1) ?_
  intro _ s t h
  refine EditM.alike_apply h ?_
  have hsame : t.doc.point = s.doc.point ∧ t.doc.text = s.doc.text := by
    obtain ⟨table, r, -, -, -⟩ := h
    exact ⟨rfl, rfl⟩
  rw [hsame.1, hsame.2]
  split
  · exact edited_alike h _ _
  · exact Or.inr ⟨_, rfl, rfl⟩

theorem respects_backspace (hM : terms.Admits M) : Respects (Parallel M terms) backspace := by
  refine .get_bind ?_
  rintro s _ ⟨table, r, -, -, -⟩
  refine .bind (EditM.respects_require _) ?_
  intro _
  dsimp only
  cases s.doc.text[s.doc.point - 1]? with
  | none => exact .throw _
  | some c =>
      refine .bind (EditM.parallel_record hM fun _ hv =>
        Recording.runsAlike_recordDelete hv (s.doc.point - 1) [c] true) ?_
      intro _ u u' h
      exact EditM.alike_apply h (edited_alike h _ _)

end Draft

/-! ### Commands -/

/-- The command works on the sheet alone, and not by the number of its entries. -/
def SheetCommand.isSelfContained : SheetCommand → Bool
  | .retainLog _ | .copyLog _ => false
  | _ => true

/-- The command makes or drops a marker. -/
def SheetCommand.marks : SheetCommand → Bool
  | .makeMarker .. | .dropMarker _ => true
  | _ => false

/-- The command takes nothing back. -/
def DocumentCommand.isSelfContained : DocumentCommand → Bool
  | .undo _ => false
  | _ => true

theorem Alike.finalState {σ ε β : Type} {R : σ → σ → Prop} {r r' : EStateM.Result ε σ β}
    (h : Alike R r r') : R (finalState r) (finalState r') := by
  cases h with
  | ok b h => exact h
  | error e h => exact h

omit [Recordable δ] in
theorem EditM.respects_done {R : Editing δ → Editing δ → Prop} {act : EditM δ Unit}
    (h : Respects R act) : Respects R (done act) :=
  .bind h fun _ => .pure _

/-- Looking changes nothing. -/
theorem finalState_of_looks {σ ε β : Type} {R : σ → σ → Prop} {act act' : EStateM ε σ β}
    (hact : Preserves id act) (hact' : Preserves id act') {s t : σ} (h : R s t) :
    R (finalState (act s)) (finalState (act' t)) := by
  have hs : finalState (act s) = s := hact.finalState s
  have ht : finalState (act' t) = t := hact'.finalState t
  rwa [hs, ht]

section Runs

variable (hM : terms.Admits M)

include hM

/-- What a command does to a sheet, markers apart, it does to the sheet in parallel. -/
theorem SheetCommand.parallel_run {c : SheetCommand} (hc : c.isSelfContained = true)
    (hmarks : c.marks = false) (other other' : DocId → Log) {s t : Editing Sheet}
    (h : Parallel M terms s t) :
    Parallel M terms (finalState (Workspace.runSheet other c s))
      (finalState (Workspace.runSheet other' c t)) := by
  have hrecorded {call : View → RecordM Unit} (hcall : ∀ v : View, v.doc = terms.id →
      RunsAlike (Recording.Parallel terms) (call v) (call (v.renumbered terms.number))) :
      Parallel M terms (finalState (Sheet.recorded call s)) (finalState (Sheet.recorded call t)) :=
    (EditM.respects_done (EditM.parallel_record hM hcall) s t h).finalState
  have hlog {f : Log → Log} (hf : ∀ log log', Log.Parallel terms.number log log' →
      Log.Parallel terms.number (f log) (f log')) :
      Parallel M terms (finalState (Sheet.changeLog f s)) (finalState (Sheet.changeLog f t)) :=
    (EditM.respects_done (EditM.parallel_modifyLog hf) s t h).finalState
  cases c with
  | recordInsert start length => exact hrecorded fun _ hv => Recording.runsAlike_recordInsert hv _ _
  | recordDelete start text withMarkers =>
      exact hrecorded fun _ hv => Recording.runsAlike_recordDelete hv _ _ _
  | recordChange start length => exact hrecorded fun _ hv => Recording.runsAlike_recordChange hv _ _
  | recordFirstChange => exact hrecorded fun _ _ => Recording.runsAlike_recordFirstChange
  | recordPropertyChange start length name old =>
      exact hrecorded fun _ hv => Recording.runsAlike_recordPropertyChange hv _ _ _ _
  | insertBoundary => exact hrecorded fun _ _ => Recording.runsAlike_insertBoundary
  | disableLog => exact hlog fun _ _ h => h.disable
  | enableLog => exact hlog fun _ _ h => h.enable
  | clearLog => exact hlog fun _ _ h => h.clear
  | rearmLog => exact hlog fun _ _ h => h.rearm
  | freshLog disabled =>
      have hfresh : Respects (Parallel M terms) (Workspace.startLog disabled) := by
        refine .bind (EditM.parallel_modifyLog (f := fun _ => if disabled then .off else {}) ?_)
          fun _ => .pure _
        intro _ _ _
        refine Log.parallel_of_nil ?_ ?_ rfl rfl rfl
        all_goals cases disabled <;> rfl
      exact (hfresh s t h).finalState
  | setPoint pos =>
      refine (EditM.respects_done (EditM.parallel_modifyDoc ?_) s t h).finalState
      intro _ _ sheet
      cases sheet <;> exact ⟨rfl, rfl, rfl⟩
  | setTicks ticks =>
      have hset : Respects (Parallel M terms)
          (EditM.modifyDoc (Sheet.setTicks ticks) : EditM Sheet Unit) := by
        refine EditM.parallel_modifyDoc ?_
        intro _ _ sheet
        cases sheet <;> exact ⟨rfl, rfl, rfl⟩
      exact (RunsAlike.bind hset (fun _ => .pure _) s t h).finalState
  | retainLog count => cases hc
  | copyLog source => cases hc
  | makeMarker pos advances => cases hmarks
  | dropMarker marker => cases hmarks
  | _ =>
      refine finalState_of_looks (SheetCommand.preserves_of_onlyLooks other ?_)
        (SheetCommand.preserves_of_onlyLooks other' ?_) h
      all_goals rfl

theorem DocumentCommand.parallel_run {c : DocumentCommand} (hc : c.isSelfContained = true)
    {s t : Editing Document} (h : Parallel M terms s t) :
    Parallel M terms (finalState (c.run s)) (finalState (c.run t)) := by
  have hsteps := Document.respected_parallel hM
  have hdone {act : EditM Document Unit} (hact : Respects (Parallel M terms) act) :
      Parallel M terms (finalState (EditM.done act s)) (finalState (EditM.done act t)) :=
    (EditM.respects_done hact s t h).finalState
  cases c with
  | insert text => exact hdone (hsteps.insert text)
  | deleteRange start stop => exact hdone (hsteps.deleteRange start stop)
  | replaceRange start text => exact hdone (hsteps.replaceRange start text)
  | putProperty start stop name value => exact hdone (hsteps.putProperty start stop name value)
  | markSaved modtime => exact hdone (EditM.parallel_modifyDoc fun _ _ _ => ⟨rfl, rfl, rfl⟩)
  | markUnmodified => exact hdone (EditM.parallel_modifyDoc fun _ _ _ => ⟨rfl, rfl, rfl⟩)
  | typeIn text size => exact hdone (hsteps.typeIn text size)
  | undo count => cases hc
  | _ =>
      refine finalState_of_looks (DocumentCommand.preserves_of_onlyLooks ?_)
        (DocumentCommand.preserves_of_onlyLooks ?_) h
      all_goals rfl

theorem DraftCommand.parallel_run (c : DraftCommand) {s t : Editing Draft}
    (h : Parallel M terms s t) :
    Parallel M terms (finalState (c.run s)) (finalState (c.run t)) := by
  have hdone {act : EditM Draft Unit} (hact : Respects (Parallel M terms) act) :
      Parallel M terms (finalState (EditM.done act s)) (finalState (EditM.done act t)) :=
    (EditM.respects_done hact s t h).finalState
  cases c with
  | typeText text => exact hdone (.forM text fun c _ => Draft.respects_typeChar hM c)
  | backspace => exact hdone (Draft.respects_backspace hM)
  | save modtime => exact hdone (EditM.parallel_modifyDoc fun _ _ _ => ⟨rfl, rfl, rfl⟩)

end Runs

end EditHistory
