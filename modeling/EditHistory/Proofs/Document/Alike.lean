/-
Operations of a document that run side by side.

What an operation does is decided by the text, the cursor and the properties it finds, and
done by few steps: a call to the recorder, and a change of the document.  So a relation
between moments that these steps respect is respected by every operation.

The changes themselves do not look at the recording.
-/
import EditHistory.Proofs.Alike
import EditHistory.Proofs.Document.Edits
import EditHistory.Typing

namespace EditHistory.Document

variable {s t : Editing Document} {start stop : Nat} {text added new : Text}

/-! ### Changes do not look at the recording -/

/-- Whether a moment is in range does not depend on the recording. -/
theorem checked_recorded {r : Recording} (h : t = s.recorded r) :
    checked t = (checked s).map (·.recorded r) := by
  subst h
  have hsame : InRange (s.recorded r) ↔ InRange s := Iff.rfl
  by_cases h : InRange s
  · rw [checked_ok h, checked_ok (hsame.mpr h)]
    rfl
  · rw [checked_overflow h, checked_overflow fun hin => h (hsame.mp hin)]
    rfl

theorem insertText_error {e : TextError} (h : s.doc.text.insert start added = .error e) :
    insertText start added s = .error (.error (.text e)) := by
  unfold insertText
  rw [h]

theorem insertText_checked (h : s.doc.text.insert start added = .ok text) :
    insertText start added s = checked { s with
      markers := s.markers.afterInsert s.doc.id start added.length
      doc := touch { s.doc with
        text
        point := start + added.length
        spans := s.doc.spans.map (·.afterInsert start added.length) } } := by
  unfold insertText
  rw [h]

theorem removeText_error {e : TextError} (h : s.doc.text.remove start stop = .error e) :
    removeText start stop s = .error (.error (.text e)) := by
  unfold removeText
  rw [h]

theorem removeText_checked (h : s.doc.text.remove start stop = .ok text) :
    removeText start stop s = checked { s with
      markers := s.markers.afterDelete s.doc.id start stop
      doc := touch { s.doc with
        text
        point := Offset.afterDelete start stop s.doc.point
        spans := (s.doc.spans.map (·.afterDelete start stop)).filter
          fun span => span.start < span.stop } } := by
  unfold removeText
  rw [h]

theorem overwriteText_error {e : Failure} (h : s.doc.text.overwrite start new = .error e) :
    overwriteText start new s = .error e := by
  unfold overwriteText
  rw [h]

theorem overwriteText_checked (h : s.doc.text.overwrite start new = .ok text) :
    overwriteText start new s = checked { s with doc := touch { s.doc with text } } := by
  unfold overwriteText
  rw [h]

theorem insertText_recorded (start : Nat) (added : Text) (s : Editing Document) (r : Recording) :
    insertText start added (s.recorded r) = (insertText start added s).map (·.recorded r) := by
  unfold insertText
  rw [Editing.text_recorded]
  cases s.doc.text.insert start added with
  | error e => rfl
  | ok text => exact checked_recorded rfl

theorem removeText_recorded (start stop : Nat) (s : Editing Document) (r : Recording) :
    removeText start stop (s.recorded r) = (removeText start stop s).map (·.recorded r) := by
  unfold removeText
  rw [Editing.text_recorded]
  cases s.doc.text.remove start stop with
  | error e => rfl
  | ok text => exact checked_recorded rfl

theorem overwriteText_recorded (start : Nat) (new : Text) (s : Editing Document) (r : Recording) :
    overwriteText start new (s.recorded r) = (overwriteText start new s).map (·.recorded r) := by
  unfold overwriteText
  rw [Editing.text_recorded]
  cases s.doc.text.overwrite start new with
  | error e => rfl
  | ok text => exact checked_recorded rfl

theorem withSpan_recorded (span : Span) (s : Editing Document) (r : Recording) :
    checked ((s.recorded r).withSpan span) = (checked (s.withSpan span)).map (·.recorded r) :=
  checked_recorded rfl

/-! ### Operations, from their steps -/

/--
The steps that operations are made of respect the relation, and what operations look at is
the same in related moments.
-/
structure Respected (R : Editing Document → Editing Document → Prop) : Prop where
  text : ∀ {s t}, R s t → t.doc.text = s.doc.text
  point : ∀ {s t}, R s t → t.doc.point = s.doc.point
  spans : ∀ {s t}, R s t → t.doc.spans = s.doc.spans
  recordInsert : ∀ start length, Respects R (EditM.record (Recording.recordInsert start length))
  recordDelete : ∀ start text withMarkers,
    Respects R (EditM.record (Recording.recordDelete start text withMarkers))
  recordChange : ∀ start length, Respects R (EditM.record (Recording.recordChange start length))
  recordRun : ∀ name run, Respects R (recordRun name run)
  insertBoundary : Respects R (EditM.record Recording.insertBoundary)
  insertText : ∀ start added, Respects R (EditM.apply (insertText start added))
  removeText : ∀ start stop, Respects R (EditM.apply (removeText start stop))
  overwriteText : ∀ start new, Respects R (EditM.apply (overwriteText start new))
  withSpan : ∀ span, Respects R (EditM.apply fun s => checked (s.withSpan span))

namespace Respected

variable {R : Editing Document → Editing Document → Prop}

theorem insert (h : Respected R) (added : Text) : Respects R (insert added) := by
  refine .ite (.pure _) (.get_bind ?_)
  intro s t hst
  rw [h.point hst]
  refine .bind (h.recordInsert _ _) ?_
  intro _
  exact h.insertText _ _

theorem deleteRange (h : Respected R) (start stop : Nat) : Respects R (deleteRange start stop) := by
  refine .get_bind ?_
  intro s t hst
  rw [h.text hst]
  cases s.doc.text.slice start stop with
  | error e => exact .throw _
  | ok text =>
      refine .ite (.pure _) (.bind (h.recordDelete _ _ _) ?_)
      intro _
      exact h.removeText _ _

theorem replaceRange (h : Respected R) (start : Nat) (new : Text) :
    Respects R (replaceRange start new) := by
  have hrest : Respects R (do
      EditM.mapFailure whileReplacing (EditM.record (Recording.recordChange start new.length))
      EditM.apply (Document.overwriteText start new)) := by
    refine .bind (EditM.respects_mapFailure _ (h.recordChange _ _)) ?_
    intro _
    exact h.overwriteText _ _
  refine .bind (EditM.respects_require _) ?_
  intro _
  refine .get_bind ?_
  intro s t hst
  rw [h.text hst]
  exact .ite (.bind (.throw _) fun _ => hrest) hrest

theorem changedRuns (h : Respected R) (hst : R s t) (start stop : Nat) (name : String)
    (value : Json) :
    t.doc.changedRuns start stop name value = s.doc.changedRuns start stop name value := by
  unfold Document.changedRuns Document.propertyAt
  rw [h.spans hst]

theorem putProperty (h : Respected R) (start stop : Nat) (name : String) (value : Json) :
    Respects R (putProperty start stop name value) := by
  refine .get_bind ?_
  intro s t hst
  dsimp only
  rw [h.text hst, h.changedRuns hst]
  have hrest : Respects R (do
      (s.doc.changedRuns start stop name value).forM (Document.recordRun name)
      EditM.apply fun s => checked (s.withSpan { start, stop, name, value })) := by
    refine .bind (.forM _ fun run _ => h.recordRun name run) ?_
    intro _
    exact h.withSpan _
  have hdone := RunsAlike.ite (p := (s.doc.changedRuns start stop name value).isEmpty)
    (.pure ()) hrest
  exact .ite (.bind (.throw _) fun _ => hdone) hdone

theorem typeIn (h : Respected R) (text : Text) (size : Nat) : Respects R (typeIn text size) := by
  refine .forM _ ?_
  intro piece _
  refine .bind (h.insert piece) ?_
  intro _
  exact h.insertBoundary

end Respected

end EditHistory.Document
