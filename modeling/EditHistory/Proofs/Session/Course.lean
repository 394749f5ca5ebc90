/-
How a document gets from one moment to the next.

A past lists moments; a `Course` is a past in which each moment leads to the next in
the way its happening says.  The commands of a session give a course, as long as
none of them ends the session or reaches past the document's own operations into its
log.  `course_past` says so, and `past_invariant` is the induction behind it: what a
command's calls and what the rest of it keep holds all along.

What an aside leaves alone is all that a document needs to know about the rest of
the workspace: never the document itself, and mostly not the last boundary nor the
markers either.
-/
import EditHistory.Proofs.Session.Frame
import EditHistory.Proofs.Session.Past
import EditHistory.Proofs.Truncation

namespace EditHistory

/-! ### What the rest of a workspace does to a document -/

/-- The command leaves the log of its sheet to recording. -/
def SheetCommand.isOrdinary : SheetCommand → Bool
  | .insertBoundary | .makeMarker .. | .dropMarker _ | .setPoint _ => true
  | .measure _ | .compareEntry .. | .entryRefersTo .. | .read .. | .inspect | .units => true
  | _ => false

namespace Command

/--
The command makes no use of the recording interface on the document `id`, nor does
it write its log or its ticks.
-/
def isOrdinary (id : DocId) : Command → Bool
  | .sheet target c => target ≠ id || c.isOrdinary
  | _ => true

/-- The command moves the last boundary, but not by ending a unit of the document `id`. -/
def movesBoundary (id : DocId) : Command → Bool
  | .recorder (.restart _) => true
  | .sheet target .insertBoundary => target ≠ id
  | .document target c => target ≠ id && c.endsUnits
  | _ => false

/-- The command touches markers only through calls of the document `id`. -/
def isLocal (id : DocId) : Command → Bool
  | .recorder _ | .marker _ .inspect | .truncate _ => true
  | .sheet target _ | .document target _ => target = id
  | _ => false

/-- The command touches markers only through calls of the document `id`, or lets go of one. -/
def keepsPlaces (id : DocId) : Command → Bool
  | .marker _ .release => true
  | c => c.isLocal id

/-- The command truncates the log of the document `id`. -/
def truncates (id : DocId) : Command → Bool
  | .truncate target => target = id
  | _ => false

end Command

/-- What a command does to the document `id` besides its calls. -/
structure Aside (id : DocId) (c : Command) (s s' : Editing Document) : Prop where
  doc : s'.doc = s.doc
  lastBoundary : c.movesBoundary id = false → s'.recorder.lastBoundary = s.recorder.lastBoundary
  markers : c.isLocal id = true → s'.markers = s.markers
  released : ∀ marker, c = .marker marker .release →
    s'.markers = s.markers.modify marker ({ · with held := false })

/-- What a truncation of a document's log does to the document. -/
structure Truncated (s s' : Editing Document) : Prop where
  recorder : s'.recorder = s.recorder
  markers : s'.markers = s.markers
  doc : s'.doc = { s.doc with log := s'.doc.log }
  cut : s.recorder.hook.isNone → Log.Cut s.doc.log s'.doc.log

/-- The happening can lead from `s` to `s'`. -/
def Happening.Leads (id : DocId) : Happening → Editing Document → Editing Document → Prop
  | .call c, s, s' => c.Leads s s'
  | .truncation, s, s' => Truncated s s'
  | .aside c, s, s' => Aside id c s s'

/-- A past in which each moment leads to the next, and the last one to `now`. -/
inductive Course (id : DocId) (start : Editing Document) :
    List Event → Editing Document → Prop
  | start : Course id start [] start
  | next {s s' : Editing Document} {past : List Event} {what : Happening}
      (earlier : Course id start past s) (leads : what.Leads id s s') :
      Course id start ({ before := s, what } :: past) s'

/-- An event of a course leads on from where what came before it led. -/
theorem Course.event {id : DocId} {start now : Editing Document} {e : Event}
    {newer older : List Event} (h : Course id start (newer ++ e :: older) now) :
    Course id start older e.before ∧ ∃ s', e.what.Leads id e.before s' := by
  induction newer generalizing now with
  | nil =>
      cases h with
      | next earlier leads => exact ⟨earlier, now, leads⟩
  | cons e' newer ih =>
      cases h with
      | next earlier leads => exact ih earlier

/-! ### Runs without a fault -/

section Runs

variable {ε σ α : Type} {δ : Type}

/-- The state in which a run ends. -/
def finalState : EStateM.Result ε σ α → σ
  | .ok _ s => s
  | .error _ s => s

theorem Preserves.finalState {β : Type} {f : σ → β} {act : EStateM ε σ α}
    (h : Preserves f act) (s : σ) : f (finalState (act s)) = f s := by
  have hs := h s
  cases hrun : act s with
  | ok b s' =>
      rw [hrun] at hs
      exact hs
  | error e s' =>
      rw [hrun] at hs
      exact hs

/-- Whether a run ends in a fault. -/
def faults : EStateM.Result Failure σ α → Bool
  | .error (.fault _) _ => true
  | _ => false

end Runs

namespace Call

variable {c : Call} {calls : List Call} {s s₁ s' : Editing Document} {past : List Event}

/-- The calls end at `s'`, the last of them perhaps refused. -/
def Ended (calls : List Call) (s s' : Editing Document) : Prop :=
  runAll calls s = .ok () s' ∨ ∃ e, runAll calls s = .error (.error e) s'

theorem runAll_cons (c : Call) (calls : List Call) :
    runAll (c :: calls) = (do c.run; runAll calls) := by
  rw [← List.singleton_append, runAll_append, runAll_singleton]

theorem ended_nil : Ended [] s s' ↔ s' = s := by
  refine ⟨fun h => ?_, fun h => Or.inl (by rw [h]; rfl)⟩
  rcases h with h | ⟨e, h⟩
  · exact (EStateM.Result.ok.inj h).2.symm
  · cases h

/-- The first call succeeds and the others end at `s'`, or it is refused. -/
theorem ended_cons (h : Ended (c :: calls) s s') :
    (∃ s₁, c.run s = .ok () s₁ ∧ Ended calls s₁ s') ∨ ∃ e, c.run s = .error (.error e) s' := by
  unfold Ended at h
  rw [runAll_cons] at h
  cases hrun : c.run s with
  | ok u s₁ =>
      simp only [EditM.bind_ok hrun] at h
      exact Or.inl ⟨s₁, rfl, h⟩
  | error e s₁ =>
      simp only [EditM.bind_error hrun] at h
      rcases h with h | ⟨e', h⟩
      · cases h
      · cases h
        exact Or.inr ⟨e', rfl⟩

theorem follow_cons_ok (h : c.run s = .ok () s₁) :
    follow (c :: calls) s past = follow calls s₁ ({ before := s, what := .call c } :: past) := by
  rw [follow, h]

theorem follow_cons_refused {e : Failure} (h : c.run s = .error e s') :
    follow (c :: calls) s past = (s', { before := s, what := .call c } :: past) := by
  rw [follow, h]

theorem runAll_append_ok {calls' : List Call} (h : runAll (calls ++ calls') s = .ok () s') :
    ∃ s₁, runAll calls s = .ok () s₁ ∧ runAll calls' s₁ = .ok () s' := by
  rw [runAll_append] at h
  cases hrun : runAll calls s with
  | ok u s₁ =>
      rw [EditM.bind_ok hrun] at h
      exact ⟨s₁, rfl, h⟩
  | error e s₁ =>
      rw [EditM.bind_error hrun] at h
      cases h

theorem follow_append {calls' : List Call} : ∀ {calls : List Call} {s : Editing Document}
    {past : List Event}, runAll calls s = .ok () s₁ →
    follow (calls ++ calls') s past = follow calls' s₁ (follow calls s past).2 := by
  intro calls
  induction calls with
  | nil =>
      intro s past h
      obtain rfl : s₁ = s := (EStateM.Result.ok.inj h).2.symm
      rfl
  | cons c rest ih =>
      intro s past h
      rw [runAll_cons] at h
      cases hrun : c.run s with
      | ok u s₂ =>
          rw [EditM.bind_ok hrun] at h
          rw [List.cons_append, follow_cons_ok hrun, follow_cons_ok hrun]
          exact ih h
      | error e s₂ =>
          rw [EditM.bind_error hrun] at h
          cases h

/-- Calls that end, end where following them does. -/
theorem follow_of_ended : ∀ {calls : List Call} {s : Editing Document} {past : List Event},
    Ended calls s s' → (follow calls s past).1 = s' := by
  intro calls
  induction calls with
  | nil =>
      intro s past h
      exact (ended_nil.mp h).symm
  | cons c rest ih =>
      intro s past h
      rcases ended_cons h with ⟨s₁, hrun, hrest⟩ | ⟨e, hrun⟩
      · rw [follow_cons_ok hrun]
        exact ih hrest
      · rw [follow_cons_refused hrun]

/-- Following calls that end keeps what each of them keeps. -/
theorem follow_invariant (Inv : Editing Document → List Event → Prop)
    (hcall : ∀ c ∈ calls, ∀ s past s', Inv s past → c.Leads s s' →
      Inv s' ({ before := s, what := .call c } :: past)) :
    Inv s past → Ended calls s s' → Inv s' (follow calls s past).2 := by
  induction calls generalizing s past with
  | nil =>
      intro hinv h
      rw [ended_nil.mp h]
      exact hinv
  | cons c rest ih =>
      intro hinv h
      rcases ended_cons h with ⟨s₁, hrun, hrest⟩ | ⟨e, hrun⟩
      · rw [follow_cons_ok hrun]
        exact ih (fun c hc => hcall c (List.mem_cons_of_mem _ hc))
          (hcall c List.mem_cons_self s past s₁ hinv (Or.inl hrun)) hrest
      · rw [follow_cons_refused hrun]
        exact hcall c List.mem_cons_self s past s' hinv (Or.inr ⟨e, hrun⟩)

theorem mem_follow {e : Event} : ∀ {calls : List Call} {s : Editing Document} {past : List Event},
    e ∈ (follow calls s past).2 → (∃ c ∈ calls, e.what = .call c) ∨ e ∈ past := by
  intro calls
  induction calls with
  | nil =>
      intro s past h
      exact Or.inr h
  | cons c rest ih =>
      intro s past h
      have hhead : e ∈ { before := s, what := Happening.call c } :: past →
          (∃ c' ∈ c :: rest, e.what = .call c') ∨ e ∈ past := by
        intro h
        rcases List.mem_cons.mp h with rfl | h
        · exact Or.inl ⟨c, List.mem_cons_self, rfl⟩
        · exact Or.inr h
      cases hrun : c.run s with
      | ok u s₁ =>
          rw [follow_cons_ok hrun] at h
          rcases ih h with ⟨c', hc', h⟩ | h
          · exact Or.inl ⟨c', List.mem_cons_of_mem _ hc', h⟩
          · exact hhead h
      | error e' s₁ =>
          rw [follow_cons_refused hrun] at h
          exact hhead h

theorem ended_done {act : EditM Document Unit} (hact : act s = runAll calls s)
    (hfault : faults (EditM.done act s) = false) :
    Ended calls s (finalState (EditM.done act s)) := by
  unfold Ended
  rw [← hact]
  unfold EditM.done at hfault ⊢
  cases hrun : act s with
  | ok u s₁ =>
      rw [EditM.bind_ok hrun]
      exact Or.inl rfl
  | error e s₁ =>
      rw [EditM.bind_error hrun] at hfault ⊢
      cases e with
      | fault f => cases hfault
      | error e => exact Or.inr ⟨e, rfl⟩

end Call

open Call

/-! ### Commands to the document itself -/

theorem Document.typeIn_eq_runAll (text : Text) (size : Nat) :
    typeIn text size
      = runAll ((pieces (max size 1) text).flatMap fun piece => [.insert piece, .boundary]) := by
  refine forM_eq_runAll _ _ (fun piece => ?_) _
  rw [← List.singleton_append, runAll_append, runAll_singleton, runAll_singleton]
  rfl

/-- A command to a document that does not fault carries out its calls. -/
theorem DocumentCommand.ended_run (c : DocumentCommand) {s : Editing Document}
    (hfault : faults (c.run s) = false) :
    Ended (c.calls s.doc.log) s (finalState (c.run s)) := by
  cases c with
  | insert text => exact ended_done (by rw [calls, runAll_singleton]; rfl) hfault
  | deleteRange start stop => exact ended_done (by rw [calls, runAll_singleton]; rfl) hfault
  | replaceRange start text => exact ended_done (by rw [calls, runAll_singleton]; rfl) hfault
  | putProperty start stop name value =>
      exact ended_done (by rw [calls, runAll_singleton]; rfl) hfault
  | markSaved modtime => exact ended_done (by rw [calls, runAll_singleton]; rfl) hfault
  | markUnmodified => exact ended_done (by rw [calls, runAll_singleton]; rfl) hfault
  | typeIn text size => exact ended_done (by rw [Document.typeIn_eq_runAll]; rfl) hfault
  | undo count => exact ended_done (Document.undo_eq_runAll count s) hfault
  | properties start stop name => exact Or.inl rfl
  | describe => exact Or.inl rfl
  | report units =>
      refine ended_nil.mpr ?_
      simp only [run, get_bind]
      cases Report.ofLog s.doc.log units <;> rfl

/-- An ordinary command to a document as a sheet carries out its calls. -/
theorem Workspace.ended_runSheet (other : DocId → Log) {c : SheetCommand}
    (hc : c.isOrdinary = true) (s : Editing Document) :
    ∃ s', Ended c.calls s s' ∧
      finalState (runSheet other c
        { recorder := s.recorder, markers := s.markers, doc := Sheet.document s.doc })
        = { recorder := s'.recorder, markers := s'.markers, doc := Sheet.document s'.doc } := by
  cases c with
  | insertBoundary => exact ⟨s.closing, Or.inl rfl, rfl⟩
  | makeMarker pos advances => exact ⟨_, Or.inl rfl, rfl⟩
  | setPoint pos => exact ⟨_, Or.inl rfl, rfl⟩
  | dropMarker id =>
      refine ⟨_, Or.inl rfl, ?_⟩
      simp only [runSheet, Sheet.dropMarker_eq, finalState]
      show (if s.markers.owns s.doc.id id = true then _ else _) = _
      split <;> rfl
  | measure units =>
      refine ⟨s, Or.inl rfl, ?_⟩
      simp only [runSheet, get_bind]
      cases Log.sizeWithin units (Sheet.document s.doc).log <;> rfl
  | read start stop =>
      refine ⟨s, Or.inl rfl, ?_⟩
      simp only [runSheet, get_bind]
      cases (Recordable.view s.markers (Sheet.document s.doc)).read start stop <;> rfl
  | compareEntry index doc otherIndex => exact ⟨s, Or.inl rfl, rfl⟩
  | entryRefersTo index marker => exact ⟨s, Or.inl rfl, rfl⟩
  | inspect => exact ⟨s, Or.inl rfl, rfl⟩
  | units => exact ⟨s, Or.inl rfl, rfl⟩
  | _ => cases hc

/-! ### Commands to the workspace -/

namespace Workspace

variable {w start : Workspace} {id target : DocId} {c : Command} {s s' : Editing Document}
  {sheet : Sheet}

theorem sheet?_setSheet_self (sheet : Sheet) (id : DocId) (w : Workspace) :
    (w.setSheet sheet id).sheet? id = (w.sheet? id).map fun _ => sheet :=
  List.getElem?_set_self'

theorem sheet?_setSheet_ne (h : target ≠ id) : (w.setSheet sheet target).sheet? id = w.sheet? id := by
  unfold sheet? setSheet
  rw [List.getElem?_set_ne]
  intro hnumber
  exact h (congrArg DocId.mk hnumber)

theorem step_sheet_eq (h : w.sheet? id = some sheet) (c : SheetCommand) :
    w.step (.sheet id c) = w.edit id (fun s => s) sheet (runSheet w.logOf c) := by
  unfold step
  dsimp only
  rw [h]

theorem step_document_eq {doc : Document} (h : w.sheet? id = some (.document doc))
    (c : DocumentCommand) : w.step (.document id c) = w.edit id .document doc c.run := by
  unfold step
  dsimp only
  rw [h]

theorem step_draft_eq {draft : Draft} (h : w.sheet? id = some (.draft draft))
    (c : DraftCommand) : w.step (.draft id c) = w.edit id .draft draft c.run := by
  unfold step
  dsimp only
  rw [h]

/-- A draft takes no commands to documents. -/
theorem step_document_refused {draft : Draft} (h : w.sheet? id = some (.draft draft))
    (c : DocumentCommand) : w.step (.document id c) = w.refuse (.fault .misaddressed) := by
  unfold step
  dsimp only
  rw [h]

/-- A document takes no commands to drafts. -/
theorem step_draft_refused {doc : Document} (h : w.sheet? id = some (.document doc))
    (c : DraftCommand) : w.step (.draft id c) = w.refuse (.fault .misaddressed) := by
  unfold step
  dsimp only
  rw [h]

/-- There is nobody to take the command. -/
theorem step_misaddressed (h : w.sheet? id = none) {c : Command} (hc : c.target? = some id) :
    w.step c = w.refuse (.fault .misaddressed) := by
  cases c with
  | recorder rc => cases hc
  | marker m mc => cases hc
  | _ =>
      obtain rfl := Option.some.inj hc
      unfold step
      dsimp only
      rw [h]

/-- A command that does not end the session finds the sheet it is for. -/
theorem sheet_of_step {c : Command} (hc : c.target? = some id) (hends : (w.step c).ends = false) :
    ∃ sheet, w.sheet? id = some sheet := by
  cases hsheet : w.sheet? id with
  | none =>
      rw [step_misaddressed hsheet hc] at hends
      cases hends
  | some sheet => exact ⟨sheet, rfl⟩

theorem document_of_step {c : DocumentCommand} (hends : (w.step (.document id c)).ends = false) :
    ∃ doc, w.sheet? id = some (.document doc) := by
  obtain ⟨sheet, hsheet⟩ := sheet_of_step rfl hends
  cases sheet with
  | document doc => exact ⟨doc, hsheet⟩
  | draft draft =>
      rw [step_document_refused hsheet] at hends
      cases hends

theorem draft_of_step {c : DraftCommand} (hends : (w.step (.draft id c)).ends = false) :
    ∃ draft, w.sheet? id = some (.draft draft) := by
  obtain ⟨sheet, hsheet⟩ := sheet_of_step rfl hends
  cases sheet with
  | draft draft => exact ⟨draft, hsheet⟩
  | document doc =>
      rw [step_draft_refused hsheet] at hends
      cases hends

theorem moment?_eq_some : w.moment? id = some s ↔
    w.sheet? id = some (.document s.doc) ∧ w.recorder = s.recorder ∧ w.markers = s.markers := by
  unfold moment?
  split
  · rename_i doc hsheet
    rw [hsheet]
    constructor
    · intro h
      cases h
      exact ⟨rfl, rfl, rfl⟩
    · rintro ⟨hdoc, hrec, hmark⟩
      cases hdoc
      rw [hrec, hmark]
  · rename_i h
    constructor
    · intro hs
      cases hs
    · rintro ⟨hdoc, -, -⟩
      exact absurd hdoc (h s.doc)

/-- An edit of another sheet leaves the document. -/
theorem moment?_setSheet_ne (hne : target ≠ id) (hs : w.moment? id = some s) (r : Recorder)
    (m : MarkerTable) (depth : Nat) (sheet : Sheet) :
    ({ w with recorder := r, markers := m, depth }.setSheet sheet target).moment? id
      = some { recorder := r, markers := m, doc := s.doc } := by
  refine moment?_eq_some.mpr ⟨?_, rfl, rfl⟩
  rw [sheet?_setSheet_ne hne]
  exact (moment?_eq_some.mp hs).1

/-- An edit of the document itself. -/
theorem moment?_setSheet_self (hs : w.moment? id = some s) (r : Recorder) (m : MarkerTable)
    (depth : Nat) (doc : Document) :
    ({ w with recorder := r, markers := m, depth }.setSheet (.document doc) id).moment? id
      = some { recorder := r, markers := m, doc } := by
  refine moment?_eq_some.mpr ⟨?_, rfl, rfl⟩
  rw [sheet?_setSheet_self]
  exact congrArg (Option.map fun _ => Sheet.document doc) (moment?_eq_some.mp hs).1

variable {δ : Type} {put : δ → Sheet} {doc : δ} {act : EditM δ Answer}

theorem edit_after (w : Workspace) (target : DocId) (put : δ → Sheet) (doc : δ)
    (act : EditM δ Answer) :
    (w.edit target put doc act).after =
      { w with
        recorder := (finalState (act { recorder := w.recorder, markers := w.markers, doc
          })).recorder.collected
        markers := (finalState (act { recorder := w.recorder, markers := w.markers, doc
          })).markers }.setSheet
        (put (finalState (act { recorder := w.recorder, markers := w.markers, doc })).doc)
        target := by
  unfold edit
  cases act { recorder := w.recorder, markers := w.markers, doc } <;> rfl

theorem edit_ends (w : Workspace) (target : DocId) (put : δ → Sheet) (doc : δ)
    (act : EditM δ Answer) :
    (w.edit target put doc act).ends
      = faults (act { recorder := w.recorder, markers := w.markers, doc }) := by
  unfold edit
  cases act { recorder := w.recorder, markers := w.markers, doc } with
  | ok a s => rfl
  | error e s => cases e <;> rfl

theorem edit_notices (w : Workspace) (target : DocId) (put : δ → Sheet) (doc : δ)
    (act : EditM δ Answer) : (w.edit target put doc act).notices
      = (finalState (act { recorder := w.recorder, markers := w.markers, doc })).recorder.sent := by
  unfold Workspace.edit
  cases act { recorder := w.recorder, markers := w.markers, doc } <;> rfl

/-- An operation on another sheet is an aside, whatever it does. -/
theorem edit_elsewhere (hne : target ≠ id) (hs : w.moment? id = some s)
    (hlocal : c.isLocal id = false) (hmarker : ∀ marker mc, c ≠ .marker marker mc)
    (hboundary : c.movesBoundary id = false → EditM.KeepsBoundary act) :
    ∃ s', (w.edit target put doc act).after.moment? id = some s' ∧ Aside id c s s' := by
  rw [edit_after]
  refine ⟨_, moment?_setSheet_ne hne hs _ _ w.depth _, rfl, ?_, by simp [hlocal],
    fun marker hc => absurd hc (hmarker marker .release)⟩
  intro hc
  have h := hboundary hc { recorder := w.recorder, markers := w.markers, doc }
  have hrec := (moment?_eq_some.mp hs).2.1
  cases hrun : act { recorder := w.recorder, markers := w.markers, doc } with
  | ok a t =>
      rw [hrun] at h
      exact h.trans (congrArg _ hrec)
  | error e t =>
      rw [hrun] at h
      exact h.trans (congrArg _ hrec)

/-- A command to the recorder is an aside. -/
theorem step_recorder (hs : w.moment? id = some s) (rc : RecorderCommand) :
    ∃ s', (w.step (.recorder rc)).after.moment? id = some s' ∧ Aside id (.recorder rc) s s' := by
  obtain ⟨hsheet, hrec, hmark⟩ := moment?_eq_some.mp hs
  have hmoment : ∀ (r : Recorder) (depth : Nat),
      ({ w with recorder := r, depth } : Workspace).moment? id = some { s with recorder := r } :=
    fun r depth => moment?_eq_some.mpr ⟨hsheet, rfl, hmark⟩
  have hlast : w.recorder.lastBoundary = s.recorder.lastBoundary := by rw [hrec]
  cases rc with
  | restart settings =>
      exact ⟨_, hmoment _ w.depth, rfl, fun h => (by cases h), fun _ => rfl, nofun⟩
  | _ => exact ⟨_, hmoment _ _, rfl, fun _ => hlast, fun _ => rfl, nofun⟩

/-- A command to a marker is an aside. -/
theorem step_marker (hs : w.moment? id = some s) (marker : MarkerId) (mc : MarkerCommand)
    (hends : (w.step (.marker marker mc)).ends = false) :
    ∃ s', (w.step (.marker marker mc)).after.moment? id = some s' ∧
      Aside id (.marker marker mc) s s' := by
  obtain ⟨hsheet, hrec, hmark⟩ := moment?_eq_some.mp hs
  have hmoment : ∀ m : MarkerTable,
      ({ w with markers := m } : Workspace).moment? id = some { s with markers := m } :=
    fun m => moment?_eq_some.mpr ⟨hsheet, hrec, rfl⟩
  unfold step at hends ⊢
  dsimp only at hends ⊢
  cases hget : w.markers.get? marker with
  | none =>
      rw [hget] at hends
      cases hends
  | some m =>
      cases mc with
      | inspect => exact ⟨s, hs, rfl, fun _ => rfl, fun _ => rfl, nofun⟩
      | release =>
          refine ⟨_, hmoment _, rfl, fun _ => rfl, fun h => (by cases h), ?_⟩
          rintro _ ⟨⟩
          rw [hmark]
      | moveTo pos => exact ⟨_, hmoment _, rfl, fun _ => rfl, fun h => (by cases h), nofun⟩

/-- The end of an operation on the document itself: the notices are collected. -/
theorem aside_collected (id : DocId) {c : Command} (hmarker : ∀ marker mc, c ≠ .marker marker mc)
    (s : Editing Document) : Aside id c s { s with recorder := s.recorder.collected } :=
  ⟨rfl, fun _ => rfl, fun _ => rfl, fun marker hc => absurd hc (hmarker marker .release)⟩

theorem step_sheet (hs : w.moment? id = some s) {sc : SheetCommand}
    (hord : (Command.sheet target sc).isOrdinary id = true)
    (hends : (w.step (.sheet target sc)).ends = false) :
    ∃ s₁ s', Ended ((Command.sheet target sc).calls id s.doc.log) s s₁ ∧
      (w.step (.sheet target sc)).after.moment? id = some s' ∧
      Aside id (.sheet target sc) s₁ s' := by
  obtain ⟨hsheet, hrec, hmark⟩ := moment?_eq_some.mp hs
  by_cases htarget : target = id
  · subst htarget
    have hc : sc.isOrdinary = true := by simpa [Command.isOrdinary] using hord
    obtain ⟨s₁, hended, hfinal⟩ := ended_runSheet w.logOf hc s
    refine ⟨s₁, _, ?_, ?_, aside_collected _ (by simp) s₁⟩
    · rwa [Command.calls, if_pos rfl]
    · rw [step_sheet_eq hsheet, edit_after, hrec, hmark, hfinal]
      exact moment?_setSheet_self hs _ _ w.depth _
  · refine ⟨s, ?_⟩
    rw [Command.calls, if_neg htarget]
    refine (fun ⟨s', h⟩ => ⟨s', Or.inl rfl, h⟩ : (∃ s', _) → _) ?_
    unfold step at hends ⊢
    dsimp only at hends ⊢
    cases hother : w.sheet? target with
    | none =>
        rw [hother] at hends
        cases hends
    | some sheet =>
        refine edit_elsewhere htarget hs (by simp [Command.isLocal, htarget]) nofun fun hb => ?_
        refine keepsBoundary_runSheet w.logOf fun hc => ?_
        subst hc
        simp [Command.movesBoundary, htarget] at hb

theorem step_document (hs : w.moment? id = some s) {dc : DocumentCommand}
    (hends : (w.step (.document target dc)).ends = false) :
    ∃ s₁ s', Ended ((Command.document target dc).calls id s.doc.log) s s₁ ∧
      (w.step (.document target dc)).after.moment? id = some s' ∧
      Aside id (.document target dc) s₁ s' := by
  obtain ⟨hsheet, hrec, hmark⟩ := moment?_eq_some.mp hs
  by_cases htarget : target = id
  · subst htarget
    rw [step_document_eq hsheet, edit_ends, hrec, hmark] at hends
    refine ⟨_, _, ?_, ?_, aside_collected _ (by simp) (finalState (dc.run s))⟩
    · rw [Command.calls, if_pos rfl]
      exact dc.ended_run hends
    · rw [step_document_eq hsheet, edit_after, hrec, hmark]
      exact moment?_setSheet_self hs _ _ w.depth _
  · refine ⟨s, ?_⟩
    rw [Command.calls, if_neg htarget]
    refine (fun ⟨s', h⟩ => ⟨s', Or.inl rfl, h⟩ : (∃ s', _) → _) ?_
    unfold step at hends ⊢
    dsimp only at hends ⊢
    split at hends
    · refine edit_elsewhere htarget hs (by simp [Command.isLocal, htarget]) nofun fun hb => ?_
      refine DocumentCommand.keepsBoundary_run (by simpa [Command.movesBoundary, htarget] using hb)
    · cases hends

theorem step_truncate (hs : w.moment? id = some s)
    (hends : (w.step (.truncate target)).ends = false) :
    ∃ s', (w.step (.truncate target)).after.moment? id = some s' ∧
      ((Command.truncate target).rest id).Leads id s s' := by
  obtain ⟨hsheet, hrec, hmark⟩ := moment?_eq_some.mp hs
  by_cases htarget : target = id
  · subst htarget
    have hstep : w.step (.truncate target) = w.truncate target (.document s.doc) := by
      unfold step
      simp only [hsheet]
    rw [hstep, Command.rest, if_pos rfl]
    refine ⟨_, moment?_setSheet_self hs w.recorder w.markers _ _, hrec, hmark, rfl, ?_⟩
    intro hhook
    rw [hrec, Option.isNone_iff_eq_none.mp hhook]
    exact cut_truncateUnder _ _ _
  · rw [Command.rest, if_neg htarget]
    unfold step at hends ⊢
    dsimp only at hends ⊢
    cases hother : w.sheet? target with
    | none =>
        rw [hother] at hends
        cases hends
    | some sheet =>
        refine ⟨_, moment?_setSheet_ne htarget hs w.recorder w.markers _ _, rfl, ?_, fun _ => hmark,
          nofun⟩
        intro _
        rw [hrec]

theorem step_draft (hs : w.moment? id = some s) {dc : DraftCommand}
    (hends : (w.step (.draft target dc)).ends = false) :
    ∃ s', (w.step (.draft target dc)).after.moment? id = some s' ∧
      Aside id (.draft target dc) s s' := by
  have htarget : target ≠ id := by
    rintro rfl
    unfold step at hends
    simp only [(moment?_eq_some.mp hs).1] at hends
    cases hends
  unfold step at hends ⊢
  dsimp only at hends ⊢
  split at hends
  · exact edit_elsewhere htarget hs rfl nofun fun _ => dc.keepsBoundary_run
  · cases hends

/-- An ordinary command carries out its calls, and the rest of it leads on from there. -/
theorem step_moment (hs : w.moment? id = some s) (hord : c.isOrdinary id = true)
    (hends : (w.step c).ends = false) :
    ∃ s₁ s', Ended (c.calls id s.doc.log) s s₁ ∧ (w.step c).after.moment? id = some s' ∧
      (c.rest id).Leads id s₁ s' := by
  cases c with
  | recorder rc =>
      obtain ⟨s', hmoment, haside⟩ := step_recorder hs rc
      exact ⟨s, s', Or.inl rfl, hmoment, haside⟩
  | marker marker mc =>
      obtain ⟨s', hmoment, haside⟩ := step_marker hs marker mc hends
      exact ⟨s, s', Or.inl rfl, hmoment, haside⟩
  | sheet target sc => exact step_sheet hs hord hends
  | document target dc => exact step_document hs hends
  | truncate target =>
      obtain ⟨s', hmoment, hleads⟩ := step_truncate hs hends
      exact ⟨s, s', Or.inl rfl, hmoment, hleads⟩
  | draft target dc =>
      obtain ⟨s', hmoment, haside⟩ := step_draft hs hends
      exact ⟨s, s', Or.inl rfl, hmoment, haside⟩

/-! ### Sessions -/

/-- The past of a command's calls, and on top of it what the rest of the command comes to. -/
theorem past_cons {c : Command} {earlier : List Command} {s₁ : Editing Document}
    (hmoment : (start.later earlier).moment? id = some s)
    (hended : Ended (c.calls id s.doc.log) s s₁) :
    start.past id (c :: earlier) = { before := s₁, what := c.rest id } ::
      (follow (c.calls id s.doc.log) s (start.past id earlier)).2 := by
  rw [past, hmoment]
  dsimp only
  rw [follow_of_ended hended]

/-- What the calls of every command keep, and the rest of it too, holds all along. -/
theorem past_invariant (Inv : Editing Document → List Event → Prop) {commands : List Command}
    (hstart : start.moment? id = some s) (hunbroken : start.Unbroken commands)
    (hord : ∀ c ∈ commands, c.isOrdinary id = true) (hinit : Inv s [])
    (hcalls : ∀ c ∈ commands, ∀ s past s', Inv s past → Ended (c.calls id s.doc.log) s s' →
      Inv s' (follow (c.calls id s.doc.log) s past).2)
    (hrest : ∀ c ∈ commands, ∀ s past s', Inv s past → (c.rest id).Leads id s s' →
      Inv s' ({ before := s, what := c.rest id } :: past)) :
    ∃ now, (start.later commands).moment? id = some now ∧ Inv now (start.past id commands) := by
  induction commands with
  | nil => exact ⟨s, hstart, hinit⟩
  | cons c earlier ih =>
      obtain ⟨s₀, hmoment, hinv⟩ := ih hunbroken.1
        (fun c hc => hord c (List.mem_cons_of_mem _ hc))
        (fun c hc => hcalls c (List.mem_cons_of_mem _ hc))
        (fun c hc => hrest c (List.mem_cons_of_mem _ hc))
      obtain ⟨s₁, s', hended, hafter, hleads⟩ :=
        step_moment hmoment (hord c List.mem_cons_self) hunbroken.2
      refine ⟨s', hafter, ?_⟩
      rw [past_cons hmoment hended]
      exact hrest c List.mem_cons_self s₁ _ s'
        (hcalls c List.mem_cons_self s₀ _ s₁ hinv hended) hleads

/-- The past of a document in a session is a course. -/
theorem course_past {commands : List Command} (hstart : start.moment? id = some s)
    (hunbroken : start.Unbroken commands) (hord : ∀ c ∈ commands, c.isOrdinary id = true) :
    ∃ now, (start.later commands).moment? id = some now ∧
      Course id s (start.past id commands) now := by
  refine past_invariant (fun now past => Course id s past now) hstart hunbroken hord .start ?_ ?_
  · intro c _ s₀ past s' hcourse hended
    exact follow_invariant (fun now past => Course id s past now)
      (fun c _ _ _ _ h hleads => h.next hleads) hcourse hended
  · intro c _ s₀ past s' hcourse hleads
    exact hcourse.next hleads

/-- What happened in a session was a call or an aside of one of its commands. -/
theorem mem_past {e : Event} {commands : List Command} (h : e ∈ start.past id commands) :
    ∃ c ∈ commands, (∃ log, ∃ call ∈ c.calls id log, e.what = .call call) ∨ e.what = c.rest id := by
  induction commands with
  | nil => cases h
  | cons c earlier ih =>
      have hearlier : e ∈ start.past id earlier → ∃ c' ∈ c :: earlier,
          (∃ log, ∃ call ∈ c'.calls id log, e.what = .call call) ∨ e.what = c'.rest id := by
        intro he
        obtain ⟨c', hc', h'⟩ := ih he
        exact ⟨c', List.mem_cons_of_mem _ hc', h'⟩
      rw [past] at h
      split at h
      · exact hearlier h
      · rename_i s _
        rcases List.mem_cons.mp h with rfl | h
        · exact ⟨c, List.mem_cons_self, Or.inr rfl⟩
        · rcases mem_follow h with ⟨call, hcall, hwhat⟩ | h
          · exact ⟨c, List.mem_cons_self, Or.inl ⟨s.doc.log, call, hcall, hwhat⟩⟩
          · exact hearlier h

/-- Without truncations of its log nothing in the past of a document is one. -/
theorem isTruncation_of_mem_past {e : Event} {commands : List Command}
    (hcommands : ∀ c ∈ commands, c.truncates id = false) (h : e ∈ start.past id commands) :
    e.what.isTruncation = false := by
  obtain ⟨c, hc, ⟨log, call, -, hcall⟩ | hrest⟩ := mem_past h
  · rw [hcall]
    rfl
  · rw [hrest]
    have hno := hcommands c hc
    cases c with
    | truncate target =>
        have htarget : target ≠ id := by simpa [Command.truncates] using hno
        rw [Command.rest, if_neg htarget]
        rfl
    | _ => rfl

end Workspace

/--
A session of commands, newest first, as the document `id` lived through it: from the
moment `first`, with an empty log that is switched on, to the moment `now`.  No command
ended the session, none used the recording interface on the document, and its text was
always one that a signed word can count.
-/
structure Session (start : Workspace) (commands : List Command) (id : DocId)
    (first now : Editing Document) : Prop where
  begins : start.moment? id = some first
  sound : first.Sound
  empty : first.doc.log.entries = []
  unbroken : start.Unbroken commands
  ordinary : ∀ c ∈ commands, c.isOrdinary id = true
  ends : (start.later commands).moment? id = some now
  short : ∀ e ∈ start.past id commands, e.before.doc.text.Short
  short_now : now.doc.text.Short

theorem Session.course {start : Workspace} {commands : List Command} {id : DocId}
    {first now : Editing Document} (h : Session start commands id first now) :
    Course id first (start.past id commands) now := by
  obtain ⟨now', hends, hcourse⟩ := Workspace.course_past h.begins h.unbroken h.ordinary
  rwa [Option.some.inj (hends.symm.trans h.ends)] at hcourse

/-! ### A document of one's own -/

theorem Editing.sound_ofText (recorder : Recorder) (markers : MarkerTable) (id : DocId)
    (text : Text) : Sound { recorder, markers, doc := .ofText id text } where
  enabled := rfl
  point_le := Nat.zero_le _
  spans := by
    intro span h
    cases h

/-- The workspace of one document that holds the text. -/
def Workspace.ofText (text : Text) : Workspace := .opened {} [fun id => .document (.ofText id text)]

/-- A session that starts with a text and nothing else. -/
theorem Session.ofText {text : Text} (commands : List Command) {now : Editing Document}
    (hunbroken : (Workspace.ofText text).Unbroken commands)
    (hordinary : ∀ c ∈ commands, c.isOrdinary ⟨0⟩ = true)
    (hends : ((Workspace.ofText text).later commands).moment? ⟨0⟩ = some now)
    (hshort : ∀ e ∈ (Workspace.ofText text).past ⟨0⟩ commands, e.before.doc.text.Short)
    (hshort_now : now.doc.text.Short) :
    Session (.ofText text) commands ⟨0⟩
      { recorder := .ofSettings {}, markers := {}, doc := .ofText ⟨0⟩ text } now where
  begins := rfl
  sound := Editing.sound_ofText _ _ _ _
  empty := rfl
  unbroken := hunbroken
  ordinary := hordinary
  ends := hends
  short := hshort
  short_now := hshort_now

end EditHistory
