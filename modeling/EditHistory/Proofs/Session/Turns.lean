/-
What any command does to any document.

The commands of a `Course` are ordinary ones.  Here a command may also use the recording
interface, write logs and set ticks, and what it does to a document besides its calls is a
`Turn`: it leaves the text, the cursor and the properties alone in any case, and what else
it leaves alone can be read off the command.

A document needs little from the rest of the workspace for that.  In a `Sound` workspace
every sheet stands in its place, so that markers move with their own document only, and
every document has its cursor in its text, so that its calls come to their outcomes.
-/
import EditHistory.Proofs.Document.Outcomes
import EditHistory.Proofs.Ledger
import EditHistory.Proofs.Session.Apparent

namespace EditHistory

/-! ### Where the markers of a document stand -/

namespace MarkerTable

variable {id other : DocId} {table : MarkerTable} {marker : MarkerId} {m : Marker} {p : Nat}

/-- The positions of the markers of a document. -/
def positions (id : DocId) (table : MarkerTable) : List Nat :=
  (table.markers.filter (·.owner = some id)).map (·.position)

theorem mem_positions :
    p ∈ table.positions id ↔ ∃ m ∈ table.markers, m.owner = some id ∧ m.position = p := by
  simp [positions, and_assoc]

theorem position_mem (h : (marker, m) ∈ table.ofDoc id) : m.position ∈ table.positions id := by
  obtain ⟨hget, howner⟩ := mem_ofDoc.mp h
  exact mem_positions.mpr ⟨m, List.mem_of_getElem? hget, howner, rfl⟩

/-- When the markers of another document move, these do not. -/
theorem positions_move_other (h : other ≠ id) (f : Marker → Nat) :
    (table.move other f).positions id ⊆ table.positions id := by
  intro p hp
  obtain ⟨m', hm', howner, hpos⟩ := mem_positions.mp hp
  obtain ⟨m, hm, rfl⟩ := List.mem_map.mp hm'
  by_cases hother : m.owner = some other
  · rw [if_pos hother] at howner
    exact absurd (Option.some.inj (hother.symm.trans howner)) h
  · rw [if_neg hother] at howner hpos
    exact mem_positions.mpr ⟨m, hm, howner, hpos⟩

theorem mem_positions_push (h : p ∈ (table.push m).positions id) :
    p ∈ table.positions id ∨ (m.owner = some id ∧ m.position = p) := by
  obtain ⟨m', hm', howner, hpos⟩ := mem_positions.mp h
  rcases List.mem_append.mp hm' with hm' | hm'
  · exact Or.inl (mem_positions.mpr ⟨m', hm', howner, hpos⟩)
  · obtain rfl := List.mem_singleton.mp hm'
    exact Or.inr ⟨howner, hpos⟩

/-- When one marker changes, the others stand where they stood. -/
theorem mem_positions_modify {f : Marker → Marker} (h : p ∈ (table.modify marker f).positions id) :
    p ∈ table.positions id ∨
      ∃ m, table.get? marker = some m ∧ (f m).owner = some id ∧ (f m).position = p := by
  obtain ⟨m', hm', howner, hpos⟩ := mem_positions.mp h
  obtain ⟨i, hget⟩ := List.mem_iff_getElem?.mp hm'
  have hget' : (table.modify marker f).get? i = some m' := hget
  rw [get?_modify] at hget'
  by_cases hmarker : marker = i
  · rw [if_pos hmarker, ← hmarker] at hget'
    obtain ⟨m, hm, rfl⟩ := Option.map_eq_some_iff.mp hget'
    exact Or.inr ⟨m, hm, howner, hpos⟩
  · rw [if_neg hmarker] at hget'
    exact Or.inl (mem_positions.mpr ⟨m', List.mem_of_getElem? hget', howner, hpos⟩)

/-- A change of a marker that leaves it where it is, if it leaves it to the document. -/
theorem positions_modify {f : Marker → Marker}
    (hf : ∀ m, (f m).owner = some id → m.owner = some id ∧ (f m).position = m.position) :
    (table.modify marker f).positions id ⊆ table.positions id := by
  intro p hp
  rcases mem_positions_modify hp with hp | ⟨m, hm, howner, hpos⟩
  · exact hp
  · obtain ⟨hown, hsame⟩ := hf m howner
    exact mem_positions.mpr ⟨m, List.mem_of_getElem? hm, hown, hsame.symm.trans hpos⟩

theorem positions_detach : (table.detach marker).positions id ⊆ table.positions id :=
  positions_modify fun _ h => by cases h

/--
In `table'` every marker of the document stands where one stood in `table`, or below half of
all words, where an undo that restores markers has to put them.
-/
def Nearby (id : DocId) (table table' : MarkerTable) : Prop :=
  ∀ p ∈ table'.positions id, p ∈ table.positions id ∨ p < 0x8000000000000000

theorem nearby_of_subset {table' : MarkerTable} (h : table'.positions id ⊆ table.positions id) :
    Nearby id table table' :=
  fun _ hp => Or.inl (h hp)

theorem Nearby.refl (id : DocId) (table : MarkerTable) : Nearby id table table :=
  nearby_of_subset fun _ hp => hp

theorem Nearby.trans {table' table'' : MarkerTable} (h : Nearby id table table')
    (h' : Nearby id table' table'') : Nearby id table table'' :=
  fun p hp => (h' p hp).elim (h p) Or.inr

end MarkerTable

open MarkerTable (Nearby)

/-! ### Calls, seen from a document -/

namespace Editing

variable {s : Editing Document} {id : DocId} {marker : MarkerId} {delta : Int}

/-- A restored marker stands at a signed offset. -/
theorem nearby_afterRestore (hfits : ∀ m, (s.markers.get? marker).filter (·.isLive) = some m →
    Offset.FitsSigned (Offset.toSigned m.position - delta)) :
    Nearby id s.markers (s.afterRestore marker delta).markers := by
  intro p hp
  unfold afterRestore at hp
  split at hp
  · exact Or.inl hp
  · rename_i m hm
    obtain ⟨-, hupper⟩ := hfits m hm
    rcases MarkerTable.mem_positions_modify hp with hp | ⟨m', -, -, hpos⟩
    · exact Or.inl hp
    · dsimp only at hpos
      right
      omega

end Editing

namespace Call

variable {c : Call} {s s' : Editing Document} {id other : DocId}

/-- A marker is restored only to where a signed offset reaches. -/
theorem Leads.fits_restored {marker : MarkerId} {delta : Int}
    (h : (Call.restoreMarker marker delta).Leads s s') :
    ∀ m, (s.markers.get? marker).filter (·.isLive) = some m →
      Offset.FitsSigned (Offset.toSigned m.position - delta) :=
  fun _ hm => Classical.byContradiction fun hfits => h.not_fault (restoreMarker_overflow hm hfits)

/-- A call of one document leaves the markers of another where they are, or restores them. -/
theorem nearby_of_leads (hpoint : s.doc.point ≤ s.doc.text.length) (hne : s.doc.id ≠ id)
    (h : c.Leads s s') : Nearby id s.markers s'.markers := by
  have hput (start stop : Nat) (name : String) (value : Json) :
      (s.afterProperty start stop name value).markers = s.markers := by
    unfold Editing.afterProperty
    split <;> rfl
  rw [h.eq_outcome hpoint, markers_outcome]
  cases c with
  | restoreMarker marker delta => exact Editing.nearby_afterRestore h.fits_restored
  | insert added =>
      simp only [after]
      split
      · exact fun p hp => Or.inl hp
      · exact fun p hp => Or.inl (MarkerTable.positions_move_other hne _ hp)
  | deleteRange start stop =>
      simp only [after]
      split
      · exact fun p hp => Or.inl (MarkerTable.positions_move_other hne _ hp)
      · exact fun p hp => Or.inl hp
  | replaceRange start new =>
      simp only [after]
      split <;> exact fun p hp => Or.inl hp
  | putProperty start stop name value =>
      simp only [after, hput]
      exact fun p hp => Or.inl hp
  | restoreProperty change =>
      simp only [after]
      split
      · rw [hput]
        exact fun p hp => Or.inl hp
      · exact fun p hp => Or.inl hp
  | makeMarker pos advances =>
      intro p hp
      rcases MarkerTable.mem_positions_push hp with hp | ⟨howner, -⟩
      · exact Or.inl hp
      · exact absurd (Option.some.inj howner) hne
  | dropMarker marker =>
      simp only [after]
      split
      · exact fun p hp => Or.inl (MarkerTable.positions_detach hp)
      · exact fun p hp => Or.inl hp
  | setPoint pos => exact fun p hp => Or.inl hp
  | markSaved modtime => exact fun p hp => Or.inl hp
  | markUnmodified => exact fun p hp => Or.inl hp
  | boundary => exact fun p hp => Or.inl hp
  | revisit modtime => exact fun p hp => Or.inl hp

/-- A call keeps the document's name, and its cursor in its text. -/
theorem maintains_inPlace (c : Call) :
    Maintains (fun s => s.doc.id = id ∧ s.doc.point ≤ s.doc.text.length) c.run := by
  rintro s s' hends ⟨hid, hpoint⟩
  have hleads := leads_iff.mpr hends
  refine ⟨?_, hleads.point_le hpoint⟩
  rw [hleads.eq_outcome hpoint, id_outcome]
  exact (c.deed s).id.trans hid

/-- A call keeps the markers of another document nearby. -/
theorem maintains_nearby (c : Call) (hne : other ≠ id) (table : MarkerTable) :
    Maintains (fun s => (s.doc.id = other ∧ s.doc.point ≤ s.doc.text.length) ∧
      Nearby id table s.markers) c.run := by
  rintro s s' hends ⟨hplace, hnear⟩
  have hne' : s.doc.id ≠ id := by
    rw [hplace.1]
    exact hne
  exact ⟨c.maintains_inPlace s s' hends hplace,
    hnear.trans (nearby_of_leads hplace.2 hne' (leads_iff.mpr hends))⟩

end Call

theorem Call.endsAt_of_ended {calls : List Call} {s s' : Editing Document}
    (h : Call.Ended calls s s') : EndsAt (Call.runAll calls) s s' :=
  h.imp (fun h => ⟨(), h⟩) fun h => h

/-! ### What a command leaves alone -/

/-- The command writes the log of its sheet, and not by the log's own operations. -/
def SheetCommand.writesLog : SheetCommand → Bool
  | .recordInsert .. | .recordDelete .. | .recordChange .. | .recordFirstChange => true
  | .recordPropertyChange .. | .freshLog _ | .copyLog _ => true
  | _ => false

namespace Command

/-- The command writes the log of the document `id`, and not by the log's own operations. -/
def writesLog (id : DocId) : Command → Bool
  | .sheet target c => target = id && c.writesLog
  | _ => false

/-- The command sets the ticks of the document `id` by hand. -/
def setsTicks (id : DocId) : Command → Bool
  | .sheet target (.setTicks _) => target = id
  | _ => false

/-- The command moves a marker by hand. -/
def movesByHand : Command → Bool
  | .marker _ (.moveTo _) => true
  | _ => false

end Command

/-- A command to a sheet that is not ordinary makes no calls. -/
theorem SheetCommand.calls_of_not_ordinary {c : SheetCommand} (hc : c.isOrdinary = false) :
    c.calls = [] := by
  cases c <;> first | rfl | cases hc

/-- What a command of any kind does to the document `id` besides its calls. -/
structure Turn (id : DocId) (c : Command) (s s' : Editing Document) : Prop where
  doc : s'.doc = { s.doc with log := s'.doc.log, ticks := s'.doc.ticks }
  ticks : c.setsTicks id = false → s'.doc.ticks = s.doc.ticks
  log : c.writesLog id = false → Log.Upkept s.doc.log s'.doc.log
  markers : c.movesByHand = false → Nearby id s.markers s'.markers

/-- A turn that leaves the document alone. -/
theorem Turn.of_doc {id : DocId} {c : Command} {s s' : Editing Document} (hdoc : s'.doc = s.doc)
    (hmarkers : c.movesByHand = false → Nearby id s.markers s'.markers) : Turn id c s s' where
  doc := by rw [hdoc]
  ticks _ := by rw [hdoc]
  log _ := by
    rw [hdoc]
    exact .refl
  markers := hmarkers

/-! ### Sheets in their places -/

/-- The sheet has the name, and if it is a document its cursor is in its text. -/
def Sheet.InPlace (id : DocId) : Sheet → Prop
  | .document d => d.id = id ∧ d.point ≤ d.text.length
  | .draft d => d.id = id

/-- Every sheet is in its place, and no notice waits. -/
structure Workspace.Sound (w : Workspace) : Prop where
  inPlace : ∀ id sheet, w.sheet? id = some sheet → sheet.InPlace id
  sent : w.recorder.sent = []

theorem Sheet.inPlace_of_setLog {id : DocId} {log : Log} {sheet sheet' : Sheet}
    (h : Recordable.setLog log sheet' = Recordable.setLog log sheet) (hsheet : sheet.InPlace id) :
    sheet'.InPlace id := by
  cases sheet with
  | document doc =>
      cases sheet' with
      | document doc' =>
          have hdoc : ({ doc' with log } : Document) = { doc with log } := Sheet.document.inj h
          obtain ⟨hid, htext, hpoint, -⟩ := Document.mk.injEq .. ▸ hdoc
          refine ⟨hid.trans hsheet.1, ?_⟩
          rw [htext, hpoint]
          exact hsheet.2
      | draft draft => cases h
  | draft draft =>
      cases sheet' with
      | document doc => cases h
      | draft draft' =>
          have hdraft : ({ draft' with log } : Draft) = { draft with log } := Sheet.draft.inj h
          obtain ⟨hid, -⟩ := Draft.mk.injEq .. ▸ hdraft
          exact hid.trans hsheet

/-- A command to a sheet leaves it in its place, and the markers of others where they are. -/
theorem SheetCommand.inPlace_run (other : DocId → Log) (c : SheetCommand) {target : DocId}
    {s u : Editing Sheet} (hu : finalState (Workspace.runSheet other c s) = u)
    (hs : s.doc.InPlace target) :
    u.doc.InPlace target ∧
      ∀ id, target ≠ id → u.markers.positions id ⊆ s.markers.positions id := by
  have hid : s.doc.id = target := by
    cases hdoc : s.doc with
    | document doc =>
        rw [hdoc] at hs
        exact hs.1
    | draft draft =>
        rw [hdoc] at hs
        exact hs
  by_cases hrecords : c.onlyRecords = true
  · have hshown := (SheetCommand.preserves_run other hrecords).finalState s
    rw [hu] at hshown
    obtain ⟨hmarkers, hlog⟩ := Prod.mk.inj hshown
    refine ⟨Sheet.inPlace_of_setLog hlog hs, fun id _ => ?_⟩
    rw [hmarkers]
    exact fun _ h => h
  · subst hu
    cases c with
    | makeMarker pos advances =>
        refine ⟨hs, fun id hne p hp => ?_⟩
        rcases MarkerTable.mem_positions_push hp with hp | ⟨howner, -⟩
        · exact hp
        · have howner' : (s.doc.marker pos advances).owner = some s.doc.id := by
            cases s.doc <;> rfl
          rw [howner', hid] at howner
          exact absurd (Option.some.inj howner) hne
    | dropMarker marker =>
        rw [Workspace.runSheet, Sheet.dropMarker_eq]
        dsimp only [finalState]
        split
        · exact ⟨hs, fun id _ => MarkerTable.positions_detach⟩
        · exact ⟨hs, fun id _ _ h => h⟩
    | setPoint pos =>
        refine ⟨?_, fun id _ _ h => h⟩
        show (Sheet.setPoint pos s.doc).InPlace target
        cases hdoc : s.doc with
        | document doc =>
            rw [hdoc] at hs
            exact ⟨hs.1, Nat.min_le_right _ _⟩
        | draft draft =>
            rw [hdoc] at hs
            exact hs
    | setTicks ticks =>
        refine ⟨?_, fun id _ _ h => h⟩
        show (Sheet.setTicks ticks s.doc).InPlace target
        cases hdoc : s.doc <;> rwa [hdoc] at hs
    | _ => exact absurd rfl hrecords

theorem DocumentCommand.inPlace_run (c : DocumentCommand) {target : DocId}
    {s : Editing Document} (hfault : faults (c.run s) = false)
    (hs : (Sheet.document s.doc).InPlace target) :
    (Sheet.document (finalState (c.run s)).doc).InPlace target := by
  have hcalls : Maintains (fun s : Editing Document =>
      s.doc.id = target ∧ s.doc.point ≤ s.doc.text.length) (Call.runAll (c.calls s.doc.log)) :=
    Maintains.forM fun call _ => call.maintains_inPlace
  exact hcalls s _ (Call.endsAt_of_ended (c.ended_run hfault)) hs

/-- A command to another document keeps the markers nearby. -/
theorem DocumentCommand.nearby_run (c : DocumentCommand) {target id : DocId} (hne : target ≠ id)
    {s : Editing Document} (hfault : faults (c.run s) = false)
    (hs : (Sheet.document s.doc).InPlace target) :
    Nearby id s.markers (finalState (c.run s)).markers := by
  have hcalls : Maintains (fun u : Editing Document =>
      (u.doc.id = target ∧ u.doc.point ≤ u.doc.text.length) ∧ Nearby id s.markers u.markers)
      (Call.runAll (c.calls s.doc.log)) :=
    Maintains.forM fun call _ => call.maintains_nearby hne s.markers
  exact (hcalls s _ (Call.endsAt_of_ended (c.ended_run hfault)) ⟨hs, .refl _ _⟩).2

theorem EditM.maintains_record_doc {δ : Type} [Recordable δ] {P : MarkerTable → δ → Prop}
    {call : View → RecordM Unit}
    (h : ∀ table log doc, P table doc → P table (Recordable.setLog log doc)) :
    Maintains (fun s : Editing δ => P s.markers s.doc) (EditM.record call) := by
  intro s s' hends hP
  obtain ⟨r, -, rfl⟩ := EditM.endsAt_record hends
  exact h _ _ _ hP

/-- A command to a draft leaves it in its place, and all markers where they are. -/
theorem DraftCommand.inPlace_run (c : DraftCommand) {target : DocId} (table : MarkerTable) :
    Maintains (fun s : Editing Draft => s.markers = table ∧ s.doc.id = target) c.run := by
  have hrecord (call : View → RecordM Unit) :
      Maintains (fun s : Editing Draft => s.markers = table ∧ s.doc.id = target)
        (EditM.record call) :=
    EditM.maintains_record_doc (P := fun markers (doc : Draft) => markers = table ∧ doc.id = target)
      fun _ _ _ h => h
  have hedited {text : Text} {point : Nat} {s s' : Editing Draft}
      (h : Draft.edited text point s = .ok s') (hs : s.markers = table ∧ s.doc.id = target) :
      s'.markers = table ∧ s'.doc.id = target := by
    unfold Draft.edited at h
    split at h
    · cases h
      exact hs
    · cases h
  cases c with
  | typeText text =>
      refine EditM.maintains_done (Maintains.forM fun c _ => ?_)
      refine Maintains.bind (hrecord _) fun _ => EditM.maintains_apply fun s s' h hs => ?_
      split at h
      · exact hedited h hs
      · cases h
  | backspace =>
      refine EditM.maintains_done (Maintains.bind Maintains.get fun s => ?_)
      refine Maintains.bind (EditM.maintains_require _) fun _ => ?_
      dsimp only
      split
      · exact Maintains.throw _
      · exact Maintains.bind (hrecord _) fun _ => EditM.maintains_apply fun s s' h => hedited h
  | save modtime => exact EditM.maintains_done (EditM.maintains_modifyDoc fun s h => h)

/-! ### Commands to the workspace -/

namespace Workspace

variable {w start : Workspace} {id target : DocId} {c : Command} {s : Editing Document}

/-- Putting a sheet back in its place. -/
theorem Sound.setSheet {sheet : Sheet} {r : Recorder} {table : MarkerTable} {depth : Nat}
    (hw : w.Sound) (hsheet : sheet.InPlace target) (hsent : r.sent = []) :
    ({ w with recorder := r, markers := table, depth }.setSheet sheet target).Sound where
  inPlace := by
    intro id sheet' hget
    by_cases htarget : target = id
    · subst htarget
      rw [sheet?_setSheet_self] at hget
      obtain ⟨_, -, rfl⟩ := Option.map_eq_some_iff.mp hget
      exact hsheet
    · rw [sheet?_setSheet_ne htarget] at hget
      exact hw.inPlace id sheet' hget
  sent := hsent

theorem Sound.edit {δ : Type} {put : δ → Sheet} {doc : δ} {act : EditM δ Answer} (hw : w.Sound)
    (hput : (put (finalState (act { recorder := w.recorder, markers := w.markers, doc
      })).doc).InPlace target) : (w.edit target put doc act).after.Sound := by
  rw [edit_after]
  exact hw.setSheet hput rfl

/-- What is done to another sheet leaves a document alone, and its markers nearby. -/
theorem turn_elsewhere {δ : Type} (put : δ → Sheet) (doc : δ) (act : EditM δ Answer)
    (hne : target ≠ id) (hs : w.moment? id = some s)
    (hmarkers : Nearby id w.markers
      (finalState (act { recorder := w.recorder, markers := w.markers, doc })).markers) :
    ∃ s', (w.edit target put doc act).after.moment? id = some s' ∧ Turn id c s s' := by
  rw [edit_after]
  refine ⟨_, moment?_setSheet_ne hne hs _ _ w.depth _, .of_doc rfl fun _ => ?_⟩
  rwa [← (moment?_eq_some.mp hs).2.2]

/-- The workspace stays sound. -/
theorem Sound.step (hw : w.Sound) (hends : (w.step c).ends = false) : (w.step c).after.Sound := by
  cases c with
  | recorder rc => cases rc <;> exact ⟨hw.inPlace, by first | exact hw.sent | rfl⟩
  | marker marker mc =>
      unfold Workspace.step
      dsimp only
      cases w.markers.get? marker with
      | none => exact hw
      | some m => cases mc <;> exact ⟨hw.inPlace, hw.sent⟩
  | sheet target sc =>
      obtain ⟨sheet, hsheet⟩ := sheet_of_step rfl hends
      rw [step_sheet_eq hsheet]
      exact hw.edit (sc.inPlace_run w.logOf rfl (hw.inPlace target sheet hsheet)).1
  | document target dc =>
      obtain ⟨doc, hsheet⟩ := document_of_step hends
      rw [step_document_eq hsheet] at hends ⊢
      rw [edit_ends] at hends
      exact hw.edit (dc.inPlace_run hends (hw.inPlace target _ hsheet))
  | draft target dc =>
      obtain ⟨draft, hsheet⟩ := draft_of_step hends
      rw [step_draft_eq hsheet] at hends ⊢
      rw [edit_ends] at hends
      exact hw.edit (dc.inPlace_run w.markers _ _ (EndsAt.of_not_faults hends)
        ⟨rfl, hw.inPlace target _ hsheet⟩).2
  | truncate target =>
      obtain ⟨sheet, hsheet⟩ := sheet_of_step rfl hends
      rw [step_truncate_eq hsheet]
      refine hw.setSheet ?_ hw.sent
      have hlog := LawfulRecordable.setLog_setLog sheet.log
        (truncateUnder w.recorder.hook w.recorder.settings w.depth sheet.log).log sheet
      exact Sheet.inPlace_of_setLog hlog (hw.inPlace target sheet hsheet)

/-- What is done to the document as a sheet shows in its log alone. -/
theorem moment?_edit_log {act : EditM Sheet Answer} (hs : w.moment? id = some s)
    (hact : Preserves Editing.Shown act) :
    ∃ s', (w.edit id (fun s => s) (.document s.doc) act).after.moment? id = some s' ∧
      s'.markers = s.markers ∧ s'.doc = { s.doc with log := s'.doc.log } ∧
      s'.doc.log = (finalState (act
        { recorder := w.recorder, markers := w.markers, doc := .document s.doc })).doc.log := by
  obtain ⟨-, -, hmark⟩ := moment?_eq_some.mp hs
  have hshown := hact.finalState
    { recorder := w.recorder, markers := w.markers, doc := Sheet.document s.doc }
  rw [edit_after]
  generalize finalState (act
    { recorder := w.recorder, markers := w.markers, doc := Sheet.document s.doc }) = u at hshown ⊢
  obtain ⟨hmarkers, hlog⟩ := Prod.mk.inj hshown
  obtain ⟨recorder, markers, sheet⟩ := u
  cases sheet with
  | draft draft => cases hlog
  | document doc =>
      refine ⟨_, moment?_setSheet_self hs _ _ w.depth doc, hmarkers.trans hmark, ?_, rfl⟩
      have hdoc : ({ doc with log := {} } : Document) = { s.doc with log := {} } :=
        Sheet.document.inj hlog
      obtain ⟨hid, htext, hpoint, hticks, hmodtime, hspans, -⟩ := Document.mk.injEq .. ▸ hdoc
      dsimp only
      rw [← hid, ← htext, ← hpoint, ← hticks, ← hmodtime, ← hspans]

/-- A command to the document as a sheet that is not ordinary is a turn. -/
theorem turn_own {sc : SheetCommand} (hs : w.moment? id = some s) (hsc : sc.isOrdinary = false) :
    ∃ s', (w.step (.sheet id sc)).after.moment? id = some s' ∧ Turn id (.sheet id sc) s s' := by
  obtain ⟨hsheet, -, hmark⟩ := moment?_eq_some.mp hs
  rw [step_sheet_eq hsheet]
  by_cases hrecords : sc.onlyRecords = true
  · obtain ⟨s', hmoment, hmarkers, hdoc, hlog⟩ :=
      moment?_edit_log hs (SheetCommand.preserves_run w.logOf hrecords)
    have hticks : s'.doc.ticks = s.doc.ticks := by rw [hdoc]
    refine ⟨s', hmoment, ?_, fun _ => hticks, ?_, ?_⟩
    · rw [hdoc]
    · intro hwrites
      have hnot : sc.writesLog = false := by simpa [Command.writesLog] using hwrites
      rw [hlog]
      cases sc with
      | disableLog => exact .disable .refl
      | enableLog => exact .enable .refl
      | clearLog => exact .clear .refl
      | retainLog count => exact .retain count .refl
      | rearmLog => exact .rearm .refl
      | setTicks ticks => cases hrecords
      | _ => first | (cases hsc; done) | cases hnot
    · rw [hmarkers]
      exact fun _ => .refl _ _
  · cases sc with
    | setTicks ticks =>
        rw [edit_after]
        refine ⟨_, moment?_setSheet_self hs _ _ w.depth { s.doc with ticks }, rfl, ?_,
          fun _ => .refl, fun _ => ?_⟩
        · intro hsets
          simp [Command.setsTicks] at hsets
        · rw [← hmark]
          exact .refl _ _
    | _ => first | exact absurd rfl hrecords | cases hsc

/-- A command of any kind carries out its calls, and the rest of it is a turn. -/
theorem step_turn (hw : w.Sound) (hs : w.moment? id = some s) (hends : (w.step c).ends = false) :
    ∃ s₁ s', Call.Ended (c.calls id s.doc.log) s s₁ ∧ (w.step c).after.moment? id = some s' ∧
      Turn id c s₁ s' := by
  obtain ⟨hsheet, hrec, hmark⟩ := moment?_eq_some.mp hs
  have hnear : Nearby id s.markers w.markers := by
    rw [hmark]
    exact .refl _ _
  cases c with
  | recorder rc =>
      obtain ⟨s', hmoment, haside⟩ := step_recorder hs rc
      refine ⟨s, s', Or.inl rfl, hmoment, .of_doc haside.doc fun _ => ?_⟩
      rw [haside.markers rfl]
      exact .refl _ _
  | marker marker mc =>
      unfold step at hends ⊢
      dsimp only at hends ⊢
      cases hget : w.markers.get? marker with
      | none =>
          rw [hget] at hends
          cases hends
      | some m =>
          have hmoment (table : MarkerTable) : ({ w with markers := table } : Workspace).moment? id
              = some { s with markers := table } := moment?_eq_some.mpr ⟨hsheet, hrec, rfl⟩
          cases mc with
          | inspect => exact ⟨s, s, Or.inl rfl, hs, .of_doc rfl fun _ => .refl _ _⟩
          | release =>
              refine ⟨s, _, Or.inl rfl, hmoment _, .of_doc rfl fun _ => ?_⟩
              exact hnear.trans (MarkerTable.nearby_of_subset (MarkerTable.positions_modify
                (f := fun m => { m with held := false }) fun _ h => ⟨h, rfl⟩))
          | moveTo pos => exact ⟨s, _, Or.inl rfl, hmoment _, .of_doc rfl fun hc => nomatch hc⟩
  | sheet target sc =>
      by_cases htarget : target = id
      · subst htarget
        cases hsc : sc.isOrdinary with
        | true =>
            obtain ⟨s₁, s', hended, hmoment, haside⟩ :=
              step_sheet hs (by simp [Command.isOrdinary, hsc]) hends
            refine ⟨s₁, s', hended, hmoment, .of_doc haside.doc fun _ => ?_⟩
            rw [haside.markers (by simp [Command.isLocal])]
            exact .refl _ _
        | false =>
            obtain ⟨s', hmoment, hturn⟩ := turn_own hs hsc
            refine ⟨s, s', ?_, hmoment, hturn⟩
            rw [Command.calls, if_pos rfl, SheetCommand.calls_of_not_ordinary hsc]
            exact Or.inl rfl
      · obtain ⟨sheet, hother⟩ := sheet_of_step rfl hends
        rw [Command.calls, if_neg htarget, step_sheet_eq hother]
        obtain ⟨s', hmoment, hturn⟩ := turn_elsewhere (c := .sheet target sc)
          (fun sheet => sheet) sheet (runSheet w.logOf sc) htarget hs
          (MarkerTable.nearby_of_subset
            ((sc.inPlace_run w.logOf rfl (hw.inPlace target sheet hother)).2 id htarget))
        exact ⟨s, s', Or.inl rfl, hmoment, hturn⟩
  | document target dc =>
      by_cases htarget : target = id
      · subst htarget
        obtain ⟨s₁, s', hended, hmoment, haside⟩ := step_document hs hends
        refine ⟨s₁, s', hended, hmoment, .of_doc haside.doc fun _ => ?_⟩
        rw [haside.markers (by simp [Command.isLocal])]
        exact .refl _ _
      · obtain ⟨doc, hother⟩ := document_of_step hends
        rw [step_document_eq hother] at hends ⊢
        rw [edit_ends] at hends
        rw [Command.calls, if_neg htarget]
        obtain ⟨s', hmoment, hturn⟩ := turn_elsewhere (c := .document target dc)
          Sheet.document doc dc.run htarget hs
          (dc.nearby_run htarget hends (hw.inPlace target _ hother))
        exact ⟨s, s', Or.inl rfl, hmoment, hturn⟩
  | draft target dc =>
      obtain ⟨draft, hother⟩ := draft_of_step hends
      have htarget : target ≠ id := by
        rintro rfl
        cases hother.symm.trans hsheet
      rw [step_draft_eq hother] at hends ⊢
      rw [edit_ends] at hends
      obtain ⟨hmarkers, -⟩ := dc.inPlace_run w.markers _ _ (EndsAt.of_not_faults hends)
        ⟨rfl, hw.inPlace target _ hother⟩
      obtain ⟨s', hmoment, hturn⟩ := turn_elsewhere (c := .draft target dc)
        Sheet.draft draft dc.run htarget hs (by
          rw [hmarkers]
          exact .refl _ _)
      exact ⟨s, s', Or.inl rfl, hmoment, hturn⟩
  | truncate target =>
      obtain ⟨sheet, hother⟩ := sheet_of_step rfl hends
      rw [step_truncate_eq hother]
      by_cases htarget : target = id
      · subst htarget
        obtain rfl : sheet = .document s.doc := Option.some.inj (hother.symm.trans hsheet)
        exact ⟨s, _, Or.inl rfl, moment?_setSheet_self hs w.recorder w.markers _ _, rfl,
          fun _ => rfl, fun _ => upkept_truncateUnder _ _ _ _, fun _ => hnear⟩
      · exact ⟨s, _, Or.inl rfl, moment?_setSheet_ne htarget hs w.recorder w.markers _ _,
          .of_doc rfl fun _ => hnear⟩

/-! ### Sessions of any commands -/

theorem Sound.later {commands : List Command} (hstart : start.Sound)
    (hunbroken : start.Unbroken commands) : (start.later commands).Sound := by
  induction commands with
  | nil => exact hstart
  | cons c earlier ih => exact (ih hunbroken.1).step hunbroken.2

/-- A workspace that was just opened is sound, if each sheet was made for its place. -/
theorem sound_opened {settings : Settings} {sheets : List (DocId → Sheet)}
    (h : ∀ make ∈ sheets, ∀ id, (make id).InPlace id) : (opened settings sheets).Sound where
  inPlace := by
    intro id sheet hget
    simp only [sheet?, opened, List.getElem?_map, List.getElem?_zipIdx, Option.map_map] at hget
    obtain ⟨make, hmake, rfl⟩ := Option.map_eq_some_iff.mp hget
    simpa using h make (List.mem_of_getElem? hmake) id
  sent := rfl

theorem sound_ofText (text : Text) : (ofText text).Sound :=
  sound_opened fun make hmake id => by
    rw [List.mem_singleton.mp hmake]
    exact ⟨rfl, Nat.zero_le _⟩

/-- What every call keeps, and every turn too, holds all along. -/
theorem past_turns (Inv : Editing Document → List Event → Prop) {commands : List Command}
    (hsound : start.Sound) (hstart : start.moment? id = some s)
    (hunbroken : start.Unbroken commands) (hinit : Inv s [])
    (hcall : ∀ call s past s', Inv s past → Call.Leads call s s' →
      Inv s' ({ before := s, what := .call call } :: past))
    (hturn : ∀ c ∈ commands, ∀ s past s', Inv s past → Turn id c s s' →
      Inv s' ({ before := s, what := c.rest id } :: past)) :
    ∃ now, (start.later commands).moment? id = some now ∧ Inv now (start.past id commands) := by
  induction commands with
  | nil => exact ⟨s, hstart, hinit⟩
  | cons c earlier ih =>
      obtain ⟨s₀, hmoment, hinv⟩ := ih hunbroken.1
        (fun c hc => hturn c (List.mem_cons_of_mem _ hc))
      obtain ⟨s₁, s', hended, hafter, hleads⟩ :=
        step_turn (hsound.later hunbroken.1) hmoment hunbroken.2
      refine ⟨s', hafter, ?_⟩
      rw [past_cons hmoment hended]
      exact hturn c List.mem_cons_self s₁ _ s'
        (Call.follow_invariant Inv (fun call _ => hcall call) hinv hended) hleads

end Workspace

end EditHistory
