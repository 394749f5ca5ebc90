/-
What a call comes to, whatever the log and however long the text.

Recording into a log that is switched off does nothing, and that is all the difference
that the log makes: `Call.outcome` is `Call.after` without what was recorded, if the log is
off.  A call that ends the run in no fault leads there, if only the cursor is in the text.

A call is refused before it does anything.  An insertion is never refused, and neither is
any other call that would change something: `Call.Changes` says which those are.
-/
import EditHistory.Proofs.Document.Deeds
import EditHistory.Proofs.Document.Properties
import EditHistory.Proofs.Maintains

namespace EditHistory

/-! ### Recording -/

namespace Recording

variable {v : View} {s r : Recording} {start length : Nat}

/-- What becomes of a recording by a call that makes it `r` if the log is switched on. -/
def whenOn (s r : Recording) : Recording := if s.log.disabled then s else r

/-- One call after the other. -/
theorem whenOn_whenOn (next : Recording → Recording) (h : r.log.disabled = s.log.disabled) :
    (s.whenOn r).whenOn (next (s.whenOn r)) = s.whenOn (next r) := by
  unfold whenOn
  by_cases hoff : s.log.disabled = true
  · simp only [hoff, if_true]
  · rw [if_neg hoff, if_neg (by rwa [h]), if_neg hoff]

theorem comesTo_require {p : Prop} [Decidable p] {next : RecordM Unit}
    (h : p → ComesTo next s r) : ComesTo (do require p; next) s r := by
  have hrun : (do require p; next : RecordM Unit) s
      = if p then next s else .error (.fault .overflow) s := require_bind _ s
  unfold ComesTo
  rw [hrun]
  by_cases hp : p
  · rw [if_pos hp]
    exact h hp
  · rw [if_neg hp]
    exact Or.inr ⟨.overflow, s, rfl⟩

theorem comesTo_whenEnabled {call : RecordM Unit}
    (h : s.log.disabled = false → ComesTo call s r) :
    ComesTo (whenEnabled call) s (s.whenOn r) := by
  unfold ComesTo whenOn
  by_cases hon : s.log.disabled = false
  · rw [whenEnabled_on hon, if_neg (by simp [hon])]
    exact h hon
  · rw [whenEnabled_off (by simpa using hon), if_pos (by simpa using hon)]
    exact Or.inl rfl

theorem comesTo_recordInsert (start length : Nat) (v : View) (s : Recording) :
    ComesTo (recordInsert start length v) s (s.whenOn (s.afterInsert v start length)) :=
  comesTo_whenEnabled fun _ => comesTo_require fun _ => .modify _

theorem comesTo_recordDelete (start : Nat) (text : Text) (withMarkers : Bool) (v : View)
    (s : Recording) :
    ComesTo (recordDelete start text withMarkers v) s
      (s.whenOn (s.afterDelete v start text withMarkers)) :=
  comesTo_whenEnabled fun _ => comesTo_require fun _ => comesTo_require fun _ =>
    comesTo_require fun _ => .modify _

/-- What was read is recorded as deleted, and its span as inserted. -/
theorem comesTo_recordChange_of_read {old : Text}
    (hread : v.read start (start + length) = .ok old) :
    ComesTo (recordChange start length v) s
      (s.whenOn ((s.afterDelete v start old false).afterInsert v start length)) := by
  refine comesTo_whenEnabled fun hon => comesTo_require fun _ => ?_
  rw [hread]
  have hdelete := comesTo_recordDelete start old false v s
  have hinsert := comesTo_recordInsert start length v (s.afterDelete v start old false)
  have hon' : (s.afterDelete v start old false).log.disabled = false :=
    (adds_afterDelete v start old false s).keeps.disabled.trans hon
  rw [whenOn, if_neg (by simp [hon])] at hdelete
  rw [whenOn, if_neg (by simp [hon'])] at hinsert
  exact hdelete.bind hinsert

/-- If what was read is as long as its span, that is a replacement. -/
theorem comesTo_recordChange {old : Text} (hread : v.read start (start + length) = .ok old)
    (hlength : old.length = length) :
    ComesTo (recordChange start length v) s (s.whenOn (s.afterChange v start old)) := by
  have hcomes := comesTo_recordChange_of_read (s := s) hread
  rwa [← hlength] at hcomes ⊢

theorem comesTo_recordPropertyChange (start length : Nat) (name : String) (old : Json) (v : View)
    (s : Recording) :
    ComesTo (recordPropertyChange start length name old v) s
      (s.whenOn (s.afterPropertyChange v start length name old)) :=
  comesTo_whenEnabled fun _ => comesTo_require fun _ => .modify _

end Recording

/-! ### Editing -/

/-- A property has another value somewhere in a range of the text. -/
def Document.Differs (doc : Document) (start stop : Nat) (name : String) (value : Json) : Prop :=
  stop ≤ doc.text.length ∧ ∃ pos, start ≤ pos ∧ pos < stop ∧ ¬(doc.propertyAt pos name).Same value

namespace EditM

variable {s t u : Editing Document} {r : Recording}

theorem comesTo_record {call : View → RecordM Unit} (h : ComesTo (call s.view) s.recording r) :
    ComesTo (record call) s (s.recorded r) := by
  rcases h with h | ⟨fault, r', h⟩
  · exact Or.inl (record_eq h)
  · exact Or.inr ⟨fault, _, record_fault h⟩

theorem comesTo_mapFailure {f : Failure → Failure} {act : EditM Document Unit}
    (hf : ∀ fault, f (.fault fault) = .fault fault) (h : ComesTo act s t) :
    ComesTo (mapFailure f act) s t := by
  unfold ComesTo mapFailure
  rcases h with h | ⟨fault, s', h⟩
  · rw [h]
    exact Or.inl rfl
  · rw [h]
    exact Or.inr ⟨fault, s', congrArg (EStateM.Result.error · s') (hf fault)⟩

theorem comesTo_apply {change : Editing Document → Except Failure (Editing Document)}
    (h : change s = Document.checked t) : ComesTo (apply change) s t := by
  by_cases hrange : Document.InRange t
  · exact Or.inl (apply_ok (h.trans (Document.checked_ok hrange)))
  · exact Or.inr ⟨.overflow, s, apply_error (h.trans (Document.checked_overflow hrange))⟩

end EditM

namespace Document

variable {s : Editing Document} {start stop : Nat} {name : String} {value : Json}
  {added new : Text}

theorem comesTo_insert (hne : added ≠ []) (hpoint : s.doc.point ≤ s.doc.text.length) :
    ComesTo (insert added) s ((s.recorded (s.recording.whenOn
      (s.recording.afterInsert s.view s.doc.point added.length))).withInsertion s.doc.point added) := by
  unfold ComesTo
  rw [insert_run hne]
  refine (EditM.comesTo_record (Recording.comesTo_recordInsert _ _ _ _)).bind ?_
  exact EditM.comesTo_apply (insertText_eq (s := s.recorded _) hpoint)

theorem comesTo_deleteRange (hspan : start < stop) (hstop : stop ≤ s.doc.text.length) :
    ComesTo (deleteRange start stop) s ((s.recorded (s.recording.whenOn (s.recording.afterDelete
      s.view start (s.doc.text.between start stop) true))).withoutSpan start stop) := by
  unfold ComesTo
  rw [deleteRange_run hspan hstop]
  refine (EditM.comesTo_record (Recording.comesTo_recordDelete _ _ _ _ _)).bind ?_
  exact EditM.comesTo_apply (removeText_eq (s := s.recorded _) (Nat.le_of_lt hspan) hstop)

theorem comesTo_replaceRange (hfits : Offset.Fits (start + new.length))
    (hstop : start + new.length ≤ s.doc.text.length) :
    ComesTo (replaceRange start new) s ((s.recorded (s.recording.whenOn (s.recording.afterChange
      s.view start (s.doc.text.between start (start + new.length))))).withOverwritten start new) := by
  have hread : s.view.read start (start + new.length)
      = .ok (s.doc.text.between start (start + new.length)) :=
    slice_eq (Nat.le_add_right start new.length) hstop
  have hlength := length_between (Nat.le_add_right start new.length) hstop
  unfold ComesTo
  rw [replaceRange_run hfits hstop]
  refine (EditM.comesTo_mapFailure (fun _ => rfl) (EditM.comesTo_record
    (Recording.comesTo_recordChange hread (by omega)))).bind ?_
  exact EditM.comesTo_apply (overwriteText_eq (s := s.recorded _) hfits hstop)

theorem comesTo_record_runs (name : String) (runs : List Run) (s : Editing Document) :
    ComesTo (runs.forM (recordRun name)) s (s.recorded (s.recording.whenOn
      (Editing.recordedRuns s.view name runs s.recording))) := by
  induction runs generalizing s with
  | nil =>
      rw [show s.recording.whenOn (Editing.recordedRuns s.view name [] s.recording) = s.recording
        from ite_self _]
      exact .pure
  | cons run rest ih =>
      have hrun := EditM.comesTo_record (Recording.comesTo_recordPropertyChange run.start
        (run.stop - run.start) name run.old s.view s.recording)
      have hrest := ih (s.recorded (s.recording.whenOn (s.recording.afterPropertyChange s.view
        run.start (run.stop - run.start) name run.old)))
      rw [Editing.view_recorded, Editing.recording_recorded, Editing.recorded_recorded,
        Recording.whenOn_whenOn _ (Recording.adds_afterPropertyChange _ _ _ _ _ _).keeps.disabled]
        at hrest
      exact hrun.bind hrest

theorem comesTo_putProperty (hin : ¬(stop < start ∨ s.doc.text.length < stop))
    (hruns : s.doc.changedRuns start stop name value ≠ []) :
    ComesTo (putProperty start stop name value) s ((s.recorded (s.recording.whenOn
      (Editing.recordedRuns s.view name (s.doc.changedRuns start stop name value)
        s.recording))).withSpan { start, stop, name, value }) := by
  unfold ComesTo
  rw [putProperty_run hin hruns]
  exact (comesTo_record_runs name _ s).bind (EditM.comesTo_apply rfl)

end Document

/-! ### Calls -/

namespace Call

variable {c : Call} {s s' : Editing Document}

/--
The moment a call comes to.  With the log switched off it is the moment after the call, but
nothing was recorded.
-/
def outcome (c : Call) (s : Editing Document) : Editing Document :=
  if s.doc.log.disabled then (c.after s).recorded s.recording else c.after s

/-- The call changes the document, its log, cursor, markers and ticks apart. -/
def Changes (s : Editing Document) : Call → Prop
  | .insert added => added ≠ []
  | .deleteRange start stop => start < stop ∧ stop ≤ s.doc.text.length
  | .replaceRange start new => start + new.length ≤ s.doc.text.length
  | .putProperty start stop name value => s.doc.Differs start stop name value
  | .restoreProperty change =>
    change.doc = s.doc.id ∧ s.doc.Differs change.start change.stop change.name change.old
  | _ => False

theorem outcome_of_after (h : c.after s = s) : c.outcome s = s := by
  unfold outcome
  rw [h]
  exact ite_self _

/-- The outcome of an edit after a recording. -/
theorem outcome_eq {r : Recording} (edit : Recording → Editing Document)
    (hafter : c.after s = edit r)
    (hedit : (edit r).recorded s.recording = edit s.recording) :
    c.outcome s = edit (s.recording.whenOn r) := by
  unfold outcome Recording.whenOn
  rw [hafter, hedit, Editing.log_recording]
  split <;> rfl

/-- A call that records nothing. -/
theorem outcome_of_quiet (hrecorder : (c.after s).recorder = s.recorder)
    (hlog : (c.after s).doc.log = s.doc.log) : c.outcome s = c.after s := by
  have hsame : (c.after s).recorded s.recording = c.after s := by
    unfold Editing.recorded Editing.recording
    dsimp only
    rw [← hrecorder, ← hlog]
  unfold outcome
  rw [hsame]
  exact ite_self _

theorem comesTo_of_quiet (hrun : c.run s = .ok () (c.after s))
    (hrecorder : (c.after s).recorder = s.recorder) (hlog : (c.after s).doc.log = s.doc.log) :
    ComesTo c.run s (c.outcome s) := by
  rw [outcome_of_quiet hrecorder hlog]
  exact Or.inl hrun

/-- A property that is put over a range of the text, or over none. -/
theorem comesTo_putProperty {start stop : Nat} {name : String} {value : Json}
    (hafter : c.after s = s.afterProperty start stop name value) :
    ComesTo (Document.putProperty start stop name value) s (c.outcome s) ∨
      (¬s.doc.Differs start stop name value ∧ c.outcome s = s ∧
        ∃ e, Document.putProperty start stop name value s = .error (.error e) s) := by
  by_cases hin : stop < start ∨ s.doc.text.length < stop
  · refine Or.inr ⟨?_, ?_, Document.putProperty_outside hin⟩
    · rintro ⟨hstop, pos, hstart, hpos, -⟩
      omega
    · refine outcome_of_after (hafter.trans (if_neg ?_))
      omega
  · refine Or.inl ?_
    by_cases hruns : s.doc.changedRuns start stop name value = []
    · rw [outcome_of_after (hafter.trans (if_neg fun h => h.2.2 hruns))]
      exact Or.inl (Document.putProperty_same hin hruns)
    · have hput : s.afterProperty start stop name value = s.putting { start, stop, name, value }
          (s.doc.changedRuns start stop name value) :=
        if_pos ⟨by omega, by omega, hruns⟩
      rw [outcome_eq (fun r => (s.recorded r).withSpan { start, stop, name, value })
        (hafter.trans hput) rfl]
      exact Document.comesTo_putProperty hin hruns

/-- A call comes to its outcome, or it is refused and then would have changed nothing. -/
theorem comesTo_or_refused (c : Call) (hpoint : s.doc.point ≤ s.doc.text.length) :
    ComesTo c.run s (c.outcome s) ∨
      (¬c.Changes s ∧ c.outcome s = s ∧ ∃ e, c.run s = .error (.error e) s) := by
  cases c with
  | insert added =>
      refine Or.inl ?_
      by_cases hne : added = []
      · have hafter : (Call.insert added).after s = s := if_pos hne
        rw [outcome_of_after hafter, hne]
        exact Or.inl (Document.insert_nil s)
      · have hafter : (Call.insert added).after s = s.inserting added := if_neg hne
        rw [outcome_eq (fun r => (s.recorded r).withInsertion s.doc.point added) hafter rfl]
        exact Document.comesTo_insert hne hpoint
  | deleteRange start stop =>
      by_cases hspan : start < stop ∧ stop ≤ s.doc.text.length
      · have hafter : (Call.deleteRange start stop).after s = s.deleting start stop := if_pos hspan
        rw [outcome_eq (fun r => (s.recorded r).withoutSpan start stop) hafter rfl]
        exact Or.inl (Document.comesTo_deleteRange hspan.1 hspan.2)
      · have hafter : (Call.deleteRange start stop).after s = s := if_neg hspan
        rw [outcome_of_after hafter]
        by_cases hempty : start = stop ∧ stop ≤ s.doc.text.length
        · obtain ⟨rfl, hstop⟩ := hempty
          exact Or.inl (Or.inl (Document.deleteRange_empty hstop))
        · exact Or.inr ⟨hspan, rfl, Document.deleteRange_outside (by omega)⟩
  | replaceRange start new =>
      by_cases hstop : start + new.length ≤ s.doc.text.length
      · have hafter : (Call.replaceRange start new).after s = s.replacing start new :=
          if_pos hstop
        rw [outcome_eq (fun r => (s.recorded r).withOverwritten start new) hafter rfl]
        by_cases hfits : Offset.Fits (start + new.length)
        · exact Or.inl (Document.comesTo_replaceRange hfits hstop)
        · exact Or.inl (Or.inr ⟨.overflow, s, Document.replaceRange_unfit hfits⟩)
      · have hafter : (Call.replaceRange start new).after s = s := if_neg hstop
        rw [outcome_of_after hafter]
        by_cases hfits : Offset.Fits (start + new.length)
        · exact Or.inr ⟨hstop, rfl, Document.replaceRange_outside hfits (Nat.not_le.mp hstop)⟩
        · exact Or.inl (Or.inr ⟨.overflow, s, Document.replaceRange_unfit hfits⟩)
  | putProperty start stop name value => exact comesTo_putProperty rfl
  | restoreProperty change =>
      by_cases hown : change.doc = s.doc.id
      · rcases comesTo_putProperty (c := .restoreProperty change) (if_pos hown) with
          h | ⟨hdiffers, hsame, e, h⟩
        · refine Or.inl ?_
          unfold ComesTo at h ⊢
          rw [restoreProperty_own hown]
          exact h
        · refine Or.inr ⟨fun hchanges => hdiffers hchanges.2, hsame, e, ?_⟩
          rw [restoreProperty_own hown]
          exact h
      · have hafter : (Call.restoreProperty change).after s = s := if_neg hown
        exact Or.inr ⟨fun hchanges => hown hchanges.1, outcome_of_after hafter, _,
          restoreProperty_foreign hown⟩
  | restoreMarker id delta =>
      refine Or.inl ?_
      have hquiet := Editing.quiet_afterRestore id delta s
      rw [outcome_of_quiet (c := .restoreMarker id delta) hquiet.recorder hquiet.log]
      by_cases hfits : ∀ m, (s.markers.get? id).filter (·.isLive) = some m →
          Offset.FitsSigned (Offset.toSigned m.position - delta)
      · exact Or.inl (restoreMarker_ok hfits)
      · simp only [Classical.not_forall] at hfits
        obtain ⟨m, hm, hfits⟩ := hfits
        exact Or.inr ⟨.overflow, s, restoreMarker_overflow hm hfits⟩
  | boundary =>
      have hsame : s.recording.whenOn (s.recording.endUnit s.view) = s.recording.endUnit s.view := by
        unfold Recording.whenOn
        split
        · rename_i hoff
          exact (if_pos hoff).symm
        · rfl
      have hafter : Call.boundary.after s = s.recorded (s.recording.endUnit s.view) := rfl
      rw [outcome_eq (fun r => s.recorded r) hafter rfl, hsame]
      exact Or.inl (Or.inl rfl)
  | dropMarker id =>
      refine Or.inl (comesTo_of_quiet rfl ?_ ?_)
      · simp only [after]
        split <;> rfl
      · simp only [after]
        split <;> rfl
  | revisit modtime =>
      refine Or.inl (comesTo_of_quiet rfl rfl ?_)
      simp only [after]
      split <;> rfl
  | setPoint pos => exact Or.inl (comesTo_of_quiet rfl rfl rfl)
  | markSaved modtime => exact Or.inl (comesTo_of_quiet rfl rfl rfl)
  | markUnmodified => exact Or.inl (comesTo_of_quiet rfl rfl rfl)
  | makeMarker pos advances => exact Or.inl (comesTo_of_quiet rfl rfl rfl)

/-- A call that is refused has changed nothing, and would not have changed anything. -/
theorem unchanged_of_refused (hpoint : s.doc.point ≤ s.doc.text.length) {e : EditError}
    (h : c.run s = .error (.error e) s') : s' = s ∧ ¬c.Changes s := by
  rcases c.comesTo_or_refused hpoint with hcomes | ⟨hchanges, -, e', hrun⟩
  · exact absurd h (hcomes.not_refused e)
  · rw [hrun] at h
    cases h
    exact ⟨rfl, hchanges⟩

theorem leads_iff : c.Leads s s' ↔ EndsAt c.run s s' :=
  ⟨fun h => h.imp (fun h => ⟨(), h⟩) fun h => h, fun h => h.imp (fun ⟨_, h⟩ => h) fun h => h⟩

/-- A call that ends, ends at its outcome. -/
theorem Leads.eq_outcome (hpoint : s.doc.point ≤ s.doc.text.length) (h : c.Leads s s') :
    s' = c.outcome s := by
  rcases c.comesTo_or_refused hpoint with hcomes | ⟨-, hsame, e, hrun⟩
  · exact (hcomes.eq_of_endsAt (leads_iff.mp h)).2
  · exact (h.eq_of_refused hrun).trans hsame.symm

/-- A call that would change something and ends, succeeds. -/
theorem Leads.ok_of_changes (hpoint : s.doc.point ≤ s.doc.text.length) (h : c.Leads s s')
    (hc : c.Changes s) : c.run s = .ok () (c.outcome s) := by
  rcases c.comesTo_or_refused hpoint with hcomes | ⟨hno, -⟩
  · exact (hcomes.eq_of_endsAt (leads_iff.mp h)).1
  · exact absurd hc hno

/-! ### What an outcome has in common with the moment after -/

@[simp] theorem id_outcome (c : Call) (s : Editing Document) :
    (c.outcome s).doc.id = (c.after s).doc.id := by
  unfold outcome
  split <;> rfl

@[simp] theorem text_outcome (c : Call) (s : Editing Document) :
    (c.outcome s).doc.text = (c.after s).doc.text := by
  unfold outcome
  split <;> rfl

@[simp] theorem point_outcome (c : Call) (s : Editing Document) :
    (c.outcome s).doc.point = (c.after s).doc.point := by
  unfold outcome
  split <;> rfl

@[simp] theorem ticks_outcome (c : Call) (s : Editing Document) :
    (c.outcome s).doc.ticks = (c.after s).doc.ticks := by
  unfold outcome
  split <;> rfl

@[simp] theorem spans_outcome (c : Call) (s : Editing Document) :
    (c.outcome s).doc.spans = (c.after s).doc.spans := by
  unfold outcome
  split <;> rfl

@[simp] theorem markers_outcome (c : Call) (s : Editing Document) :
    (c.outcome s).markers = (c.after s).markers := by
  unfold outcome
  split <;> rfl

/-- A call keeps the cursor in the text, done or refused. -/
theorem Leads.point_le (h : c.Leads s s') (hpoint : s.doc.point ≤ s.doc.text.length) :
    s'.doc.point ≤ s'.doc.text.length := by
  rw [h.eq_outcome hpoint, point_outcome, text_outcome]
  exact (c.deed s).point_le hpoint

end Call

end EditHistory
