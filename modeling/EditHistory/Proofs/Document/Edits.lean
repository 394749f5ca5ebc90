/-
What each operation of a document comes to.

An operation that is not refused records and then edits.  The moment it leads to
is a plain function of the moment it starts from: `inserting`, `deleting`,
`replacing`, `putting`, `closing`.  Each operation gets one equation for success
and one for the overflow that is its only other way to end, so that nothing below
has to open an operation again.

The equations ask for what holds in every document that is reached by its own
operations: the cursor is in the text, the log is switched on, and the text is
shorter than a signed word can count.
-/
import EditHistory.Document.Properties
import EditHistory.Proofs.Recording

namespace EditHistory

/-! ### A moment, as recording sees it -/

namespace Editing

variable {s : Editing Document}

/-- The document among its markers, as recording sees it. -/
def view (s : Editing Document) : View := Recordable.view s.markers s.doc

/-- The recorder and the log. -/
def recording (s : Editing Document) : Recording := { recorder := s.recorder, log := s.doc.log }

/-- The moment with another recorder and log. -/
def recorded (r : Recording) (s : Editing Document) : Editing Document :=
  { s with recorder := r.recorder, doc := { s.doc with log := r.log } }

@[simp] theorem doc_view (s : Editing Document) : s.view.doc = s.doc.id := rfl

@[simp] theorem point_view (s : Editing Document) : s.view.point = s.doc.point := rfl

@[simp] theorem ticks_view (s : Editing Document) : s.view.ticks = s.doc.ticks := rfl

@[simp] theorem modtime_view (s : Editing Document) : s.view.modtime = s.doc.modtime := rfl

@[simp] theorem markers_view (s : Editing Document) :
    s.view.markers = s.markers.ofDoc s.doc.id := rfl

@[simp] theorem log_recording (s : Editing Document) : s.recording.log = s.doc.log := rfl

@[simp] theorem recorder_recording (s : Editing Document) :
    s.recording.recorder = s.recorder := rfl

/-- Recording does not see what recording does. -/
@[simp] theorem view_recorded (r : Recording) (s : Editing Document) :
    (s.recorded r).view = s.view := rfl

@[simp] theorem recording_recorded (r : Recording) (s : Editing Document) :
    (s.recorded r).recording = r := rfl

@[simp] theorem text_recorded (r : Recording) (s : Editing Document) :
    (s.recorded r).doc.text = s.doc.text := rfl

@[simp] theorem recorded_recorded (r r' : Recording) (s : Editing Document) :
    (s.recorded r).recorded r' = s.recorded r' := rfl

/-! ### The edits, without their recording -/

/-- Text put in at `start`. -/
def withInsertion (start : Nat) (added : Text) (s : Editing Document) : Editing Document :=
  { s with
    markers := s.markers.afterInsert s.doc.id start added.length
    doc := Document.touch { s.doc with
      text := s.doc.text.spliced start added
      point := start + added.length
      spans := s.doc.spans.map (·.afterInsert start added.length) } }

/-- The text from `start` up to `stop` taken out. -/
def withoutSpan (start stop : Nat) (s : Editing Document) : Editing Document :=
  { s with
    markers := s.markers.afterDelete s.doc.id start stop
    doc := Document.touch { s.doc with
      text := s.doc.text.without start stop
      point := Offset.afterDelete start stop s.doc.point
      spans := (s.doc.spans.map (·.afterDelete start stop)).filter
        fun span => span.start < span.stop } }

/-- Text written over other text. -/
def withOverwritten (start : Nat) (new : Text) (s : Editing Document) : Editing Document :=
  { s with
    doc := Document.touch { s.doc with
      text := (s.doc.text.without start (start + new.length)).spliced start new } }

/-- A property put over a span. -/
def withSpan (span : Span) (s : Editing Document) : Editing Document :=
  { s with doc := Document.touch { s.doc with spans := span :: s.doc.spans } }

/-! ### The operations -/

/-- After text was inserted at the cursor. -/
def inserting (added : Text) (s : Editing Document) : Editing Document :=
  (s.recorded (s.recording.afterInsert s.view s.doc.point added.length)).withInsertion
    s.doc.point added

/-- After the text from `start` up to `stop` was deleted. -/
def deleting (start stop : Nat) (s : Editing Document) : Editing Document :=
  (s.recorded (s.recording.afterDelete s.view start
    (s.doc.text.between start stop) true)).withoutSpan start stop

/-- After as many characters as `new` has were replaced from `start` on. -/
def replacing (start : Nat) (new : Text) (s : Editing Document) : Editing Document :=
  (s.recorded (s.recording.afterChange s.view start
    (s.doc.text.between start (start + new.length)))).withOverwritten start new

/-- The recording after the old values of the runs were recorded. -/
def recordedRuns (v : View) (name : String) (runs : List Run) (r : Recording) : Recording :=
  runs.foldl
    (fun r run => r.afterPropertyChange v run.start (run.stop - run.start) name run.old) r

/-- After a property that changes over the runs was put over the span. -/
def putting (span : Span) (runs : List Run) (s : Editing Document) : Editing Document :=
  (s.recorded (recordedRuns s.view span.name runs s.recording)).withSpan span

/-- After a boundary was inserted. -/
def closing (s : Editing Document) : Editing Document :=
  s.recorded (s.recording.endUnit s.view)

end Editing

/-! ### Running operations -/

theorem EditM.record_eq {s : Editing Document} {call : View → RecordM Unit} {r : Recording}
    (h : call s.view s.recording = .ok () r) : EditM.record call s = .ok () (s.recorded r) := by
  unfold EditM.record
  rw [show call (Recordable.view s.markers s.doc)
    { recorder := s.recorder, log := Recordable.log s.doc } = .ok () r from h]
  rfl

theorem EditM.record_fault {s : Editing Document} {call : View → RecordM Unit} {r : Recording}
    {f : Failure} (h : call s.view s.recording = .error f r) :
    EditM.record call s = .error f (s.recorded r) := by
  unfold EditM.record
  rw [show call (Recordable.view s.markers s.doc)
    { recorder := s.recorder, log := Recordable.log s.doc } = .error f r from h]
  rfl

theorem EditM.bind_ok {α β : Type} {act : EditM Document α} {f : α → EditM Document β}
    {s s' : Editing Document} {a : α} (h : act s = .ok a s') : (act >>= f) s = f a s' := by
  simp only [bind, EStateM.bind, h]

theorem EditM.bind_error {α β : Type} {act : EditM Document α} {f : α → EditM Document β}
    {s s' : Editing Document} {e : Failure} (h : act s = .error e s') :
    (act >>= f) s = .error e s' := by
  simp only [bind, EStateM.bind, h]

theorem EditM.apply_ok {change : Editing Document → Except Failure (Editing Document)}
    {s s' : Editing Document} (h : change s = .ok s') : EditM.apply change s = .ok () s' := by
  unfold EditM.apply
  rw [h]

theorem EditM.apply_error {change : Editing Document → Except Failure (Editing Document)}
    {s : Editing Document} {e : Failure} (h : change s = .error e) :
    EditM.apply change s = .error e s := by
  unfold EditM.apply
  rw [h]

namespace Document

variable {s : Editing Document} {start stop : Nat} {added new : Text}

theorem checked_ok (h : InRange s) : checked s = .ok s := if_pos h

theorem eq_of_checked {s' : Editing Document} (h : checked s = .ok s') : s' = s := by
  unfold checked at h
  split at h
  · exact (Except.ok.inj h).symm
  · cases h

theorem checked_overflow (h : ¬InRange s) : checked s = .error (.fault .overflow) := if_neg h

/-! #### Insertion -/

theorem insert_nil (s : Editing Document) : insert [] s = .ok () s := rfl

theorem insertText_eq (h : start ≤ s.doc.text.length) :
    insertText start added s = checked (s.withInsertion start added) := by
  unfold insertText Text.insert
  rw [if_pos h]
  rfl

theorem insert_run (hne : added ≠ []) :
    insert added s = (do
      EditM.record (Recording.recordInsert s.doc.point added.length)
      EditM.apply (insertText s.doc.point added) : EditM Document Unit) s := by
  unfold insert
  cases added with
  | nil => exact absurd rfl hne
  | cons c rest => rfl

theorem insert_ok (hon : s.doc.log.disabled = false) (hne : added ≠ [])
    (hpoint : s.doc.point ≤ s.doc.text.length) (hrange : InRange (s.inserting added)) :
    insert added s = .ok () (s.inserting added) := by
  have hfits : Offset.Fits (s.doc.point + added.length) := hrange.1
  have hrec := Recording.recordInsert_eq (s := s.recording) s.doc.point added.length s.view hon
  rw [if_pos hfits] at hrec
  rw [insert_run hne, EditM.bind_ok (EditM.record_eq hrec)]
  exact EditM.apply_ok ((insertText_eq (s := s.recorded _) hpoint).trans (checked_ok hrange))

theorem insert_overflow (hon : s.doc.log.disabled = false) (hne : added ≠ [])
    (hpoint : s.doc.point ≤ s.doc.text.length) (hrange : ¬InRange (s.inserting added)) :
    ∃ s', insert added s = .error (.fault .overflow) s' := by
  have hrec := Recording.recordInsert_eq (s := s.recording) s.doc.point added.length s.view hon
  rw [insert_run hne]
  by_cases hfits : Offset.Fits (s.doc.point + added.length)
  · rw [if_pos hfits] at hrec
    rw [EditM.bind_ok (EditM.record_eq hrec)]
    exact ⟨_, EditM.apply_error
      ((insertText_eq (s := s.recorded _) hpoint).trans (checked_overflow hrange))⟩
  · rw [if_neg hfits] at hrec
    exact ⟨_, EditM.bind_error (EditM.record_fault hrec)⟩

/-! #### Deletion -/

theorem deleteRange_outside (h : ¬(start ≤ stop ∧ stop ≤ s.doc.text.length)) :
    ∃ e, deleteRange start stop s = .error (.error e) s := by
  refine ⟨.deleting start stop (.spanOutside start stop s.doc.text.length), ?_⟩
  have hslice : s.doc.text.slice start stop
      = .error (.spanOutside start stop s.doc.text.length) := by
    simp only [Text.slice, Text.checkSpan, if_neg h]
    rfl
  simp only [deleteRange, get_bind, hslice]
  rfl

theorem slice_eq {text : Text} (hspan : start ≤ stop) (hstop : stop ≤ text.length) :
    text.slice start stop = .ok (text.between start stop) := by
  simp only [Text.slice, Text.checkSpan, if_pos (And.intro hspan hstop)]
  rfl

theorem length_between {text : Text} (hspan : start ≤ stop) (hstop : stop ≤ text.length) :
    (text.between start stop).length = stop - start := by
  simp [Text.between]
  omega

theorem deleteRange_empty (h : start ≤ s.doc.text.length) :
    deleteRange start start s = .ok () s := by
  have hlen := length_between (Nat.le_refl start) h
  have hempty : s.doc.text.between start start = [] := by
    rw [Nat.sub_self] at hlen
    exact List.eq_nil_of_length_eq_zero hlen
  simp only [deleteRange, get_bind, slice_eq (Nat.le_refl start) h, hempty]
  rfl

theorem removeText_eq (hspan : start ≤ stop) (hstop : stop ≤ s.doc.text.length) :
    removeText start stop s = checked (s.withoutSpan start stop) := by
  unfold removeText Text.remove Text.checkSpan
  rw [if_pos ⟨hspan, hstop⟩]
  rfl

theorem deleteRange_run (hspan : start < stop) (hstop : stop ≤ s.doc.text.length) :
    deleteRange start stop s = (do
      EditM.record (Recording.recordDelete start (s.doc.text.between start stop) true)
      EditM.apply (removeText start stop) : EditM Document Unit) s := by
  have hlen := length_between (Nat.le_of_lt hspan) hstop
  have hne : (s.doc.text.between start stop).isEmpty = false := by
    rw [List.isEmpty_eq_false_iff]
    intro h
    rw [h, List.length_nil] at hlen
    omega
  simp only [deleteRange, get_bind, slice_eq (Nat.le_of_lt hspan) hstop, hne]
  rfl

theorem record_delete_eq (hon : s.doc.log.disabled = false) (hspan : start < stop)
    (hstop : stop ≤ s.doc.text.length) (hshort : s.doc.text.length < 0x8000000000000000) :
    EditM.record (Recording.recordDelete start (s.doc.text.between start stop) true) s
      = .ok () (s.recorded
          (s.recording.afterDelete s.view start (s.doc.text.between start stop) true)) := by
  refine EditM.record_eq (Recording.recordDelete_eq _ _ _ _ hon ?_)
  rw [length_between (Nat.le_of_lt hspan) hstop]
  omega

theorem deleteRange_ok (hon : s.doc.log.disabled = false) (hspan : start < stop)
    (hstop : stop ≤ s.doc.text.length) (hshort : s.doc.text.length < 0x8000000000000000)
    (hrange : InRange (s.deleting start stop)) :
    deleteRange start stop s = .ok () (s.deleting start stop) := by
  rw [deleteRange_run hspan hstop, EditM.bind_ok (record_delete_eq hon hspan hstop hshort)]
  exact EditM.apply_ok
    ((removeText_eq (s := s.recorded _) (Nat.le_of_lt hspan) hstop).trans (checked_ok hrange))

theorem deleteRange_overflow (hon : s.doc.log.disabled = false) (hspan : start < stop)
    (hstop : stop ≤ s.doc.text.length) (hshort : s.doc.text.length < 0x8000000000000000)
    (hrange : ¬InRange (s.deleting start stop)) :
    ∃ s', deleteRange start stop s = .error (.fault .overflow) s' := by
  rw [deleteRange_run hspan hstop, EditM.bind_ok (record_delete_eq hon hspan hstop hshort)]
  exact ⟨_, EditM.apply_error ((removeText_eq (s := s.recorded _)
    (Nat.le_of_lt hspan) hstop).trans (checked_overflow hrange))⟩

/-! #### Replacement -/

theorem replaceRange_unfit (h : ¬Offset.Fits (start + new.length)) :
    replaceRange start new s = .error (.fault .overflow) s := by
  unfold replaceRange EditM.require
  simp [h]

theorem replaceRange_outside (hfits : Offset.Fits (start + new.length))
    (h : s.doc.text.length < start + new.length) :
    ∃ e, replaceRange start new s = .error (.error e) s := by
  refine ⟨.replacementOutside start (start + new.length) s.doc.text.length, ?_⟩
  unfold replaceRange EditM.require
  simp [hfits, h]

theorem replaceRange_run (hfits : Offset.Fits (start + new.length))
    (hstop : start + new.length ≤ s.doc.text.length) :
    replaceRange start new s = (do
      EditM.mapFailure whileReplacing (EditM.record (Recording.recordChange start new.length))
      EditM.apply (overwriteText start new) : EditM Document Unit) s := by
  unfold replaceRange EditM.require
  simp [hfits, Nat.not_lt.mpr hstop]

theorem overwriteText_eq (hfits : Offset.Fits (start + new.length))
    (hstop : start + new.length ≤ s.doc.text.length) :
    overwriteText start new s = checked (s.withOverwritten start new) := by
  unfold overwriteText Text.overwrite
  dsimp only
  rw [if_pos hfits]
  simp only [Text.checkSpan, if_pos (And.intro (Nat.le_add_right start new.length) hstop)]
  rfl

theorem record_change_eq (hon : s.doc.log.disabled = false)
    (hstop : start + new.length ≤ s.doc.text.length)
    (hshort : s.doc.text.length < 0x8000000000000000) :
    EditM.mapFailure whileReplacing (EditM.record (Recording.recordChange start new.length)) s
      = .ok () (s.recorded (s.recording.afterChange s.view start
          (s.doc.text.between start (start + new.length)))) := by
  have hread : s.view.read start (start + new.length)
      = .ok (s.doc.text.between start (start + new.length)) :=
    slice_eq (Nat.le_add_right start new.length) hstop
  have hlen := length_between (Nat.le_add_right start new.length) hstop
  have hrec := Recording.recordChange_eq (s := s.recording) hon (by omega) hread (by omega)
  unfold EditM.mapFailure
  rw [EditM.record_eq hrec]

theorem replaceRange_ok (hon : s.doc.log.disabled = false)
    (hstop : start + new.length ≤ s.doc.text.length)
    (hshort : s.doc.text.length < 0x8000000000000000) (hrange : InRange (s.replacing start new)) :
    replaceRange start new s = .ok () (s.replacing start new) := by
  have hfits : Offset.Fits (start + new.length) := by
    unfold Offset.Fits
    omega
  rw [replaceRange_run hfits hstop, EditM.bind_ok (record_change_eq hon hstop hshort)]
  exact EditM.apply_ok
    ((overwriteText_eq (s := s.recorded _) hfits hstop).trans (checked_ok hrange))

theorem replaceRange_overflow (hon : s.doc.log.disabled = false)
    (hstop : start + new.length ≤ s.doc.text.length)
    (hshort : s.doc.text.length < 0x8000000000000000) (hrange : ¬InRange (s.replacing start new)) :
    ∃ s', replaceRange start new s = .error (.fault .overflow) s' := by
  have hfits : Offset.Fits (start + new.length) := by
    unfold Offset.Fits
    omega
  rw [replaceRange_run hfits hstop, EditM.bind_ok (record_change_eq hon hstop hshort)]
  exact ⟨_, EditM.apply_error
    ((overwriteText_eq (s := s.recorded _) hfits hstop).trans (checked_overflow hrange))⟩

/-! #### Properties -/

/-- A run that lies between two positions. -/
def RunWithin (start stop : Nat) (run : Run) : Prop :=
  start ≤ run.start ∧ run.start < run.stop ∧ run.stop ≤ stop

theorem runWithin_addPosition {value old : Json} {runs : List Run} {pos : Nat}
    (hruns : ∀ run ∈ runs, RunWithin start pos run) (hpos : start ≤ pos) :
    ∀ run ∈ Run.addPosition value runs pos old, RunWithin start (pos + 1) run := by
  have hweak : ∀ run ∈ runs, RunWithin start (pos + 1) run := by
    intro run hrun
    obtain ⟨h₁, h₂, h₃⟩ := hruns run hrun
    exact ⟨h₁, h₂, by omega⟩
  have hnew : RunWithin start (pos + 1) { start := pos, stop := pos + 1, old } :=
    ⟨hpos, Nat.lt_succ_self pos, Nat.le_refl _⟩
  unfold Run.addPosition
  split
  · exact hweak
  · split
    · rename_i run earlier
      split
      · intro r hr
        rcases List.mem_cons.mp hr with rfl | hr
        · obtain ⟨h₁, h₂, h₃⟩ := hruns run List.mem_cons_self
          exact ⟨h₁, by dsimp only; omega, Nat.le_refl _⟩
        · exact hweak r (List.mem_cons_of_mem _ hr)
      · intro r hr
        rcases List.mem_cons.mp hr with rfl | hr
        · exact hnew
        · exact hweak r hr
    · intro r hr
      rw [List.mem_singleton.mp hr]
      exact hnew

/-- What holds before the first position, and goes on holding from one to the next, holds of the
runs of a range. -/
theorem changedRuns_induction {doc : Document} {name : String} {value : Json}
    {motive : Nat → List Run → Prop} (hspan : start ≤ stop) (first : motive start [])
    (next : ∀ pos runs, start ≤ pos → motive pos runs →
      motive (pos + 1) (Run.addPosition value runs pos (doc.propertyAt pos name))) :
    motive stop (doc.changedRuns start stop name value).reverse := by
  have hfold : ∀ (n pos : Nat) (runs : List Run), start ≤ pos → motive pos runs →
      motive (pos + n) ((List.range' pos n).foldl
        (fun runs pos => Run.addPosition value runs pos (doc.propertyAt pos name)) runs) := by
    intro n
    induction n with
    | zero => intro pos runs _ hruns; exact hruns
    | succ n ih =>
        intro pos runs hpos hruns
        rw [List.range'_succ, List.foldl_cons, show pos + (n + 1) = pos + 1 + n by omega]
        exact ih (pos + 1) _ (by omega) (next pos runs hpos hruns)
  have h := hfold (stop - start) start [] (Nat.le_refl start) first
  rw [show start + (stop - start) = stop by omega] at h
  unfold changedRuns
  rwa [List.reverse_reverse]

/-- Every run lies in the range that the property was put over. -/
theorem runWithin_changedRuns (doc : Document) (hspan : start ≤ stop) (name : String)
    (value : Json) : ∀ run ∈ doc.changedRuns start stop name value, RunWithin start stop run := by
  have h : ∀ run ∈ (doc.changedRuns start stop name value).reverse, RunWithin start stop run := by
    refine changedRuns_induction (motive := fun pos runs => ∀ run ∈ runs, RunWithin start pos run)
      hspan (by simp) ?_
    intro pos runs hpos hruns
    exact runWithin_addPosition hruns hpos
  intro run hrun
  exact h run (List.mem_reverse.mpr hrun)

end Document

namespace Recording

variable {v : View} {name : String}

/-- The entry for a run. -/
def runEntry (v : View) (name : String) (run : Run) : Entry :=
  .propertyChange
    { doc := v.doc, name, old := run.old, start := run.start,
      stop := run.start + (run.stop - run.start) }

/-- What is recorded of runs is an entry for each, and perhaps a first-change entry. -/
theorem mem_recordedRuns {runs : List Run} {r : Recording} {e : Entry}
    (h : e ∈ (runs.map (runEntry v name)).reverse ++ firstChanges v r) :
    (∃ run, e = runEntry v name run) ∨ e = .firstChange v.modtime := by
  rcases List.mem_append.mp h with h | h
  · obtain ⟨run, -, rfl⟩ := List.mem_map.mp (List.mem_reverse.mp h)
    exact Or.inl ⟨run, rfl⟩
  · exact Or.inr (mem_firstChanges h)

/-- The runs are recorded in order, behind at most one first-change entry. -/
theorem adds_recordedRuns (v : View) (name : String) (runs : List Run) (r : Recording)
    (hne : runs ≠ []) :
    Adds ((runs.map (runEntry v name)).reverse ++ firstChanges v r) r
      (Editing.recordedRuns v name runs r) := by
  have hrest : ∀ (rest : List Run) (r : Recording), firstChanges v r = [] →
      Adds (rest.map (runEntry v name)).reverse r (Editing.recordedRuns v name rest r) := by
    intro rest
    induction rest with
    | nil => intro r _; exact Adds.refl r
    | cons run rest ih =>
        intro r hfirst
        have hone := adds_afterPropertyChange v run.start (run.stop - run.start) name run.old r
        rw [hfirst] at hone
        have h := hone.trans (ih _ (firstChanges_afterPropertyChange v _ _ name run.old r))
        rwa [List.map_cons, List.reverse_cons]
  cases runs with
  | nil => exact absurd rfl hne
  | cons run rest =>
      have hone := adds_afterPropertyChange v run.start (run.stop - run.start) name run.old r
      have h := hone.trans (hrest rest _ (firstChanges_afterPropertyChange v _ _ name run.old r))
      rw [List.map_cons, List.reverse_cons, List.append_assoc]
      exact h

theorem markedTick_recordedRuns (runs : List Run) (r : Recording) :
    (Editing.recordedRuns v name runs r).log.markedTick = r.log.markedTick ∨
      (Editing.recordedRuns v name runs r).log.markedTick = some v.ticks.modified := by
  induction runs generalizing r with
  | nil => exact Or.inl rfl
  | cons run rest ih =>
      have hone := markedTick_afterPropertyChange v run.start (run.stop - run.start) name run.old r
      rcases ih (r.afterPropertyChange v run.start (run.stop - run.start) name run.old) with h | h
      · exact hone.imp h.trans h.trans
      · exact Or.inr h

end Recording

namespace Document

variable {s : Editing Document} {start stop : Nat} {name : String} {value : Json}

theorem record_runs_eq (name : String) (runs : List Run) (hon : s.doc.log.disabled = false)
    (hfits : ∀ run ∈ runs, Offset.Fits (run.start + (run.stop - run.start))) :
    runs.forM (recordRun name) s
      = .ok () (s.recorded (Editing.recordedRuns s.view name runs s.recording)) := by
  induction runs generalizing s with
  | nil => rfl
  | cons run rest ih =>
      have hrec := Recording.recordPropertyChange_eq (s := s.recording) run.start
        (run.stop - run.start) name run.old s.view hon
      rw [if_pos (hfits run List.mem_cons_self)] at hrec
      have hon' := (Recording.adds_afterPropertyChange s.view run.start (run.stop - run.start)
        name run.old s.recording).keeps.disabled.trans hon
      have hrest := ih (s := s.recorded (s.recording.afterPropertyChange s.view run.start
        (run.stop - run.start) name run.old)) hon'
        (fun r hr => hfits r (List.mem_cons_of_mem _ hr))
      exact (EditM.bind_ok (EditM.record_eq hrec)).trans hrest

theorem putProperty_outside (h : stop < start ∨ s.doc.text.length < stop) :
    ∃ e, putProperty start stop name value s = .error (.error e) s := by
  refine ⟨.propertyOutside start stop s.doc.text.length, ?_⟩
  unfold putProperty
  simp [h]

theorem putProperty_same (hin : ¬(stop < start ∨ s.doc.text.length < stop))
    (hruns : s.doc.changedRuns start stop name value = []) :
    putProperty start stop name value s = .ok () s := by
  unfold putProperty
  simp [hin, hruns]

theorem putProperty_run (hin : ¬(stop < start ∨ s.doc.text.length < stop))
    (hruns : s.doc.changedRuns start stop name value ≠ []) :
    putProperty start stop name value s = (do
      (s.doc.changedRuns start stop name value).forM (recordRun name)
      EditM.apply fun s =>
        checked (s.withSpan { start, stop, name, value }) : EditM Document Unit) s := by
  unfold putProperty
  simp [hin, hruns, Editing.withSpan]

theorem record_changedRuns_eq (hon : s.doc.log.disabled = false)
    (hin : ¬(stop < start ∨ s.doc.text.length < stop))
    (hshort : s.doc.text.length < 0x8000000000000000) :
    (s.doc.changedRuns start stop name value).forM (recordRun name) s
      = .ok () (s.recorded (Editing.recordedRuns s.view name
          (s.doc.changedRuns start stop name value) s.recording)) := by
  refine record_runs_eq name _ hon ?_
  intro run hrun
  obtain ⟨-, hlt, hle⟩ := runWithin_changedRuns s.doc (by omega) name value run hrun
  unfold Offset.Fits
  omega

theorem putProperty_ok (hon : s.doc.log.disabled = false)
    (hin : ¬(stop < start ∨ s.doc.text.length < stop))
    (hshort : s.doc.text.length < 0x8000000000000000)
    (hruns : s.doc.changedRuns start stop name value ≠ [])
    (hrange : InRange (s.putting { start, stop, name, value }
      (s.doc.changedRuns start stop name value))) :
    putProperty start stop name value s
      = .ok () (s.putting { start, stop, name, value }
          (s.doc.changedRuns start stop name value)) := by
  rw [putProperty_run hin hruns, EditM.bind_ok (record_changedRuns_eq hon hin hshort)]
  exact EditM.apply_ok (checked_ok hrange)

theorem putProperty_overflow (hon : s.doc.log.disabled = false)
    (hin : ¬(stop < start ∨ s.doc.text.length < stop))
    (hshort : s.doc.text.length < 0x8000000000000000)
    (hruns : s.doc.changedRuns start stop name value ≠ [])
    (hrange : ¬InRange (s.putting { start, stop, name, value }
      (s.doc.changedRuns start stop name value))) :
    ∃ s', putProperty start stop name value s = .error (.fault .overflow) s' := by
  rw [putProperty_run hin hruns, EditM.bind_ok (record_changedRuns_eq hon hin hshort)]
  exact ⟨_, EditM.apply_error (checked_overflow hrange)⟩

/-! #### Boundaries -/

theorem insertBoundary_ok (s : Editing Document) :
    EditM.record Recording.insertBoundary s = .ok () s.closing := rfl

end Document

end EditHistory
