/-
A refused edit changes nothing.

An edit records before it carries out what it records, so a refusal in between would leave
a log that tells of an edit nobody made.  There is none: whatever an edit can be refused
for is checked before it records anything, and the cursor, which an insertion does not
check, is in the text at all times.  The last point is `Workspace.Sound`, which every
command keeps.

What is said to be unchanged is the whole workspace: with the document its log and its
markers, the recorder with the last boundary and the pending claim, and all the other
sheets.  A fault is not a refusal; of a session that ends in one nothing is said here.
-/
import EditHistory.Proofs.Session.Turns

namespace EditHistory

/-! ### Recording a change -/

/-- A change is refused only if its text cannot be read, and that is found out first. -/
theorem Recording.recordChange_refused {v : View} {start length : Nat} {s s' : Recording}
    {e : EditError} (h : recordChange start length v s = .error (.error e) s') : s' = s := by
  unfold recordChange at h
  by_cases hon : s.log.disabled = false
  · rw [whenEnabled_on hon] at h
    rw [require_bind] at h
    split at h
    · cases hread : v.read start (start + length) with
      | error e =>
          rw [hread] at h
          cases h
          rfl
      | ok text =>
          rw [hread] at h
          have hcomes := (comesTo_recordDelete start text false v s).bind
            (comesTo_recordInsert start length v _)
          exact absurd h (hcomes.not_refused e)
    · cases h
  · rw [whenEnabled_off (by simpa using hon)] at h
    cases h

/-! ### Editing a document -/

namespace DocumentCommand

/-- The command inserts, deletes or replaces text, or puts a property. -/
def isEdit : DocumentCommand → Bool
  | .insert _ | .deleteRange .. | .replaceRange .. | .putProperty .. => true
  | _ => false

/-- An edit is a call, and if it is refused the call would have changed nothing. -/
theorem unchanged_of_refused {c : DocumentCommand} (hc : c.isEdit = true)
    {s s' : Editing Document} (hpoint : s.doc.point ≤ s.doc.text.length) {e : EditError}
    (h : c.run s = .error (.error e) s') : s' = s ∧ ∀ added, c ≠ .insert added := by
  have hcall (call : Call) (hrun : EditM.done call.run s = .error (.error e) s') :
      call.run s = .error (.error e) s' := by
    unfold EditM.done at hrun
    cases hact : call.run s with
    | ok u s₁ =>
        rw [EditM.bind_ok hact] at hrun
        cases hrun
    | error e' s₁ =>
        rw [EditM.bind_error hact] at hrun
        cases hrun
        rfl
  cases c with
  | insert added =>
      have hrun := hcall (.insert added) h
      have hnil : added = [] :=
        Classical.not_not.mp (Call.unchanged_of_refused hpoint hrun).2
      have hok : (Call.insert added).run s = .ok () s := by
        rw [hnil]
        exact Document.insert_nil s
      rw [hok] at hrun
      cases hrun
  | deleteRange start stop =>
      exact ⟨(Call.unchanged_of_refused hpoint (hcall (.deleteRange start stop) h)).1, nofun⟩
  | replaceRange start new =>
      exact ⟨(Call.unchanged_of_refused hpoint (hcall (.replaceRange start new) h)).1, nofun⟩
  | putProperty start stop name value =>
      exact ⟨(Call.unchanged_of_refused hpoint
        (hcall (.putProperty start stop name value) h)).1, nofun⟩
  | _ => cases hc

end DocumentCommand

/-! ### The workspace -/

namespace Workspace

variable {w start : Workspace} {id : DocId} {e : EditError}

theorem setSheet_self {sheet : Sheet} (h : w.sheet? id = some sheet) : w.setSheet sheet id = w := by
  obtain ⟨hlt, hget⟩ := List.getElem?_eq_some_iff.mp h
  unfold setSheet
  rw [← hget, List.set_getElem_self hlt]

section Edits

variable {δ : Type} {put : δ → Sheet} {doc : δ} {act : EditM δ Answer}

theorem edit_error {f : Failure} (h : (w.edit id put doc act).result = .error f) :
    ∃ s', act { recorder := w.recorder, markers := w.markers, doc } = .error f s' := by
  cases hrun : act { recorder := w.recorder, markers := w.markers, doc } with
  | ok a s' =>
      rw [Workspace.edit, hrun] at h
      cases h
  | error f' s' =>
      rw [Workspace.edit, hrun] at h
      obtain rfl : f' = f := Except.error.inj h
      exact ⟨s', rfl⟩

/-- An operation that fails where it began leaves the workspace as it was. -/
theorem edit_unchanged {f : Failure} (hsheet : w.sheet? id = some (put doc))
    (hsent : w.recorder.sent = [])
    (hrun : act { recorder := w.recorder, markers := w.markers, doc }
      = .error f { recorder := w.recorder, markers := w.markers, doc }) :
    (w.edit id put doc act).after = w ∧ (w.edit id put doc act).notices = [] ∧
      (w.edit id put doc act).calls = [] := by
  have hcollected : w.recorder.collected = w.recorder := by
    unfold Recorder.collected
    rw [← hsent]
  rw [Workspace.edit, hrun]
  dsimp only
  rw [hcollected]
  exact ⟨setSheet_self hsheet, hsent, rfl⟩

end Edits

theorem Sound.refused (hw : w.Sound) {c : DocumentCommand} (hc : c.isEdit = true)
    (h : (w.step (.document id c)).result = .error (.error e)) :
    (w.step (.document id c)).after = w ∧ (w.step (.document id c)).notices = [] ∧
      (w.step (.document id c)).calls = [] ∧ ∀ added, c ≠ .insert added := by
  have hends : (w.step (.document id c)).ends = false := by
    unfold Reply.ends
    rw [h]
  obtain ⟨doc, hsheet⟩ := document_of_step hends
  rw [step_document_eq hsheet] at h ⊢
  obtain ⟨s', hrun⟩ := edit_error h
  obtain ⟨rfl, hinsert⟩ := c.unchanged_of_refused hc (hw.inPlace id _ hsheet).2 hrun
  obtain ⟨hafter, hnotices, hcalls⟩ := edit_unchanged hsheet hw.sent hrun
  exact ⟨hafter, hnotices, hcalls, hinsert⟩

/--
Errors are atomic.  After any commands, an edit of a document that is refused leaves the
workspace as it was and sends no notice, and an insertion is never refused; and a change
that a recorder refuses to record, for whatever document, leaves the recorder and the log
as they were.
-/
theorem refused_changes_nothing {commands : List Command} (hsound : start.Sound)
    (hunbroken : start.Unbroken commands) :
    (∀ (id : DocId) (c : DocumentCommand) (e : EditError), c.isEdit = true →
      ((start.later commands).step (.document id c)).result = .error (.error e) →
      ((start.later commands).step (.document id c)).after = start.later commands ∧
      ((start.later commands).step (.document id c)).notices = [] ∧
      ((start.later commands).step (.document id c)).calls = []) ∧
    (∀ (id : DocId) (added : Text) (e : EditError),
      ((start.later commands).step (.document id (.insert added))).result ≠ .error (.error e)) ∧
    ∀ (v : View) (start length : Nat) (r r' : Recording) (e : EditError),
      Recording.recordChange start length v r = .error (.error e) r' → r' = r := by
  have hlater := hsound.later hunbroken
  refine ⟨fun id c e hc h => ?_, fun id added e h => ?_, fun _ _ _ _ _ _ h =>
    Recording.recordChange_refused h⟩
  · obtain ⟨hafter, hnotices, hcalls, -⟩ := hlater.refused hc h
    exact ⟨hafter, hnotices, hcalls⟩
  · exact (hlater.refused rfl h).2.2.2 added rfl

/-- A deletion past the end of what was typed is refused, and leaves it alone. -/
theorem refused_changes_nothing_past_end :
    let w := (ofText []).later [.document ⟨0⟩ (.insert ['a', 'b', 'c'])]
    (∃ e, (w.step (.document ⟨0⟩ (.deleteRange 2 9))).result = .error (.error e)) ∧
      (w.step (.document ⟨0⟩ (.deleteRange 2 9))).after = w :=
  have hunbroken : (ofText []).Unbroken [.document ⟨0⟩ (.insert ['a', 'b', 'c'])] :=
    ⟨trivial, by decide +kernel⟩
  ⟨⟨_, rfl⟩, ((refused_changes_nothing (sound_ofText []) hunbroken).1 ⟨0⟩ (.deleteRange 2 9) _
    rfl rfl).1⟩

end Workspace

end EditHistory
