/-
Documents that share a recorder do not leak into each other's history.

Of the commands of a session those to one document are carried out again, alone, under a
fresh recorder with the same settings and the same listener.  Each command of the session
that is addressed to the document goes in parallel with its repetition, and each other one
leaves alone what the two runs have in common.  So in the end the document's log is the
same, but for point moves, and the first changes of the document were announced alike.

A marker that is repeated gets the number that it has among the repeated ones; `kept` tells
which those are.
-/
import EditHistory.Proofs.Sharing.Edits

namespace EditHistory

/-! ### Running a document alone -/

/-- The command, with markers under other numbers. -/
def SheetCommand.renumbered (number : MarkerId → MarkerId) : SheetCommand → SheetCommand
  | .dropMarker marker => .dropMarker (number marker)
  | .entryRefersTo index marker => .entryRefersTo index (number marker)
  | c => c

namespace Command

/-- The command works on the document it is addressed to, and takes nothing back. -/
def isSelfContained : Command → Bool
  | .sheet _ c => c.isSelfContained
  | .document _ c => c.isSelfContained
  | .draft .. => true
  | _ => false

/-- The command, with markers under other numbers. -/
def renumbered (number : MarkerId → MarkerId) : Command → Command
  | .sheet id c => .sheet id (c.renumbered number)
  | c => c

end Command

namespace Workspace

/-- The workspace under a recorder that remembers nothing, but is set up as its own is. -/
def alone (w : Workspace) : Workspace :=
  { w with recorder := { w.recorder with lastBoundary := none, pending := none, sent := [] } }

/--
For each marker there is after the commands, whether a run of the document `id` alone has
it too: whether it was there from the start or was made for the document.
-/
def kept (id : DocId) (start : Workspace) : List Command → List Bool
  | [] => List.replicate start.markers.nextId true
  | c :: earlier =>
    start.kept id earlier ++
      List.replicate ((start.later (c :: earlier)).markers.nextId
        - (start.later earlier).markers.nextId) (decide (c.target? = some id))

/-- The notices sent in the course of the commands, oldest first. -/
def notices (start : Workspace) : List Command → List DocId
  | [] => []
  | c :: earlier => start.notices earlier ++ ((start.later earlier).step c).notices

/-- Sheets stand in their places, their logs speak of markers that there are, and no notice
waits. -/
structure Settled (w : Workspace) : Prop where
  placed : ∀ id sheet, w.sheet? id = some sheet → sheet.id = id
  mentions : ∀ id sheet, w.sheet? id = some sheet → ∀ marker delta,
    .markerShift marker delta ∈ sheet.log.entries → marker < w.markers.nextId
  sent : w.recorder.sent = []

end Workspace

/-- The commands to the document `id`, with its markers under other numbers. -/
def Command.own (id : DocId) (number : MarkerId → MarkerId) (commands : List Command) :
    List Command :=
  (commands.filter (·.target? = some id)).map (·.renumbered number)

/-! ### Two workspaces -/

/-- The document is put into a sheet as it is. -/
structure Sheet.Holds {δ : Type} [Recordable δ] (put : δ → Sheet) : Prop where
  setLog : ∀ log doc, put (Recordable.setLog log doc) = Recordable.setLog log (put doc)
  id : ∀ table doc, (put doc).id = (Recordable.view table doc).doc
  log : ∀ doc, (put doc).log = Recordable.log doc

theorem Sheet.holds_self : Holds fun sheet : Sheet => sheet where
  setLog _ _ := rfl
  id _ sheet := by cases sheet <;> rfl
  log _ := rfl

theorem Sheet.holds_document : Holds Sheet.document where
  setLog _ _ := rfl
  id _ _ := rfl
  log _ := rfl

theorem Sheet.holds_draft : Holds Sheet.draft where
  setLog _ _ := rfl
  id _ _ := rfl
  log _ := rfl

/-- The terms on which another document runs beside itself. -/
def Terms.elsewhere (other : DocId) (terms : Terms) : Terms :=
  { terms with id := other, number := fun marker => marker }

/-- One table, of which a run of the document `id` alone shares its part. -/
def Foreign (id : DocId) (made : List Bool) (shared table table' : MarkerTable) : Prop :=
  table' = table ∧ table.Shares id made shared

namespace Workspace

/--
What a run of all documents and one of `terms.id` alone have in common; `made` tells which
markers both have.
-/
structure Accords (terms : Terms) (made : List Bool) (w w' : Workspace) : Prop where
  sheet : ∃ sheet log, w.sheet? terms.id = some sheet ∧
    w'.sheet? terms.id = some (Recordable.setLog log sheet) ∧
    Log.Parallel terms.number sheet.log log
  placed : ∀ id sheet, w.sheet? id = some sheet → sheet.id = id
  markers : w.markers.Shares terms.id made w'.markers
  left : w.recorder.KeepsTo terms
  right : w'.recorder.KeepsTo terms
  sent : w.recorder.sent = []
  sent' : w'.recorder.sent = []

variable {terms : Terms} {made kept : List Bool} {w w' : Workspace} {c : Command}

theorem keepsTo_collected {recorder : Recorder} {terms terms' : Terms} (h : recorder.KeepsTo terms)
    (hsettings : terms'.settings = terms.settings)
    (hlistening : terms'.listening = terms.listening) :
    recorder.collected.KeepsTo terms' :=
  ⟨h.settings.trans hsettings.symm, h.listening.trans hlistening.symm, nofun⟩

/-- A sheet that is put back has its name still. -/
theorem placed_setSheet {sheet : Sheet} {id : DocId} {r : Recorder} {table : MarkerTable}
    (hplaced : ∀ id sheet, w.sheet? id = some sheet → sheet.id = id) (hsheet : sheet.id = id) :
    ∀ other sheet',
      ({ w with recorder := r, markers := table }.setSheet sheet id).sheet? other = some sheet' →
        sheet'.id = other := by
  intro other sheet' hget
  by_cases hother : id = other
  · subst hother
    rw [sheet?_setSheet_self] at hget
    obtain ⟨_, -, hget⟩ := Option.map_eq_some_iff.mp hget
    rwa [← hget]
  · rw [sheet?_setSheet_ne hother] at hget
    exact hplaced other sheet' hget

/-- The document goes on in both. -/
theorem Accords.edit {δ : Type} [Recordable δ] [LawfulRecordable δ] {made' : List Bool}
    {put : δ → Sheet} {doc doc' : δ} {act act' : EditM δ Answer} (h : Accords terms made w w')
    (hput : Sheet.Holds put)
    (hfinal : Editing.Parallel (MarkerTable.Shares terms.id made') terms
      (finalState (act { recorder := w.recorder, markers := w.markers, doc }))
      (finalState (act' { recorder := w'.recorder, markers := w'.markers, doc := doc' }))) :
    Accords terms made' (w.edit terms.id put doc act).after (w'.edit terms.id put doc' act').after ∧
      (w.edit terms.id put doc act).notices = (w'.edit terms.id put doc' act').notices ∧
      ∀ d ∈ (w.edit terms.id put doc act).notices, d = terms.id := by
  rw [edit_after, edit_after, edit_notices, edit_notices]
  generalize finalState (act { recorder := w.recorder, markers := w.markers, doc }) = u at hfinal ⊢
  generalize finalState (act' { recorder := w'.recorder, markers := w'.markers, doc := doc' })
    = u' at hfinal ⊢
  obtain ⟨table, r, hid, hmarkers, hrec⟩ := hfinal
  obtain ⟨sheet, log, hsheet, hsheet', -⟩ := h.sheet
  refine ⟨?_, hrec.sent, hrec.left.sent⟩
  refine {
    sheet := ?_
    placed := ?_
    markers := hmarkers
    left := ?_
    right := ?_
    sent := rfl
    sent' := rfl }
  · refine ⟨put u.doc, r.log, ?_, ?_, ?_⟩
    · rw [sheet?_setSheet_self]
      exact congrArg (Option.map fun _ => put u.doc) hsheet
    · rw [sheet?_setSheet_self, ← hput.setLog]
      exact congrArg (Option.map fun _ => put (Recordable.setLog r.log u.doc)) hsheet'
    · rw [hput.log]
      exact hrec.log
  · exact placed_setSheet h.placed ((hput.id u.markers u.doc).trans hid)
  · exact keepsTo_collected hrec.left rfl rfl
  · exact keepsTo_collected hrec.right rfl rfl

/-- The document stands in both, as one moment. -/
theorem Accords.parallel {δ : Type} [Recordable δ] [LawfulRecordable δ] {put : δ → Sheet} {doc : δ}
    (h : Accords terms made w w') (hput : Sheet.Holds put)
    (hdoc : w.sheet? terms.id = some (put doc)) :
    ∃ log, w'.sheet? terms.id = some (put (Recordable.setLog log doc)) ∧
      Editing.Parallel (MarkerTable.Shares terms.id made) terms
        { recorder := w.recorder, markers := w.markers, doc }
        { recorder := w'.recorder, markers := w'.markers, doc := Recordable.setLog log doc } := by
  obtain ⟨sheet, log, hsheet, hsheet', hlog⟩ := h.sheet
  obtain rfl : sheet = put doc := Option.some.inj (hsheet.symm.trans hdoc)
  rw [hput.log] at hlog
  have hid : (Recordable.view w.markers doc).doc = terms.id :=
    (hput.id w.markers doc).symm.trans (h.placed terms.id _ hdoc)
  refine ⟨log, by rw [hsheet', hput.setLog], ?_⟩
  exact .intro w'.markers { recorder := w'.recorder, log } hid h.markers
    ⟨hlog, h.left, h.right, h.sent.trans h.sent'.symm⟩

theorem admits_shares (hkept : made <+: kept) (hnumber : terms.number = numberAmong kept) :
    terms.Admits (MarkerTable.Shares terms.id made) where
  ofDoc h := by
    rw [hnumber]
    exact h.ofDoc hkept
  move h f := h.move f

/-- Making a marker goes alike, and both runs have the marker. -/
theorem parallel_makeMarker {s t : Editing Sheet}
    (h : Editing.Parallel (MarkerTable.Shares terms.id made) terms s t) (pos : Nat)
    (advances : Bool) :
    Editing.Parallel (MarkerTable.Shares terms.id (made ++ [true])) terms
      (finalState (Sheet.makeMarker pos advances s))
      (finalState (Sheet.makeMarker pos advances t)) := by
  obtain ⟨table, r, hid, hmarkers, hrec⟩ := h
  have hmarker : (Recordable.setLog r.log s.doc).marker pos advances
      = s.doc.marker pos advances := by
    cases s.doc <;> rfl
  have hview : (Recordable.view (s.markers.push (s.doc.marker pos advances)) s.doc).doc
      = terms.id := by
    rw [← hid, LawfulRecordable.view_table s.markers]
  have hmade : Editing.Parallel (MarkerTable.Shares terms.id (made ++ [true])) terms
      { s with markers := s.markers.push (s.doc.marker pos advances) }
      { recorder := r.recorder, markers := table.push (s.doc.marker pos advances),
        doc := Recordable.setLog r.log s.doc } :=
    .intro _ r hview (hmarkers.push _) hrec
  show Editing.Parallel _ terms _
    { recorder := r.recorder
      markers := table.push ((Recordable.setLog r.log s.doc).marker pos advances)
      doc := Recordable.setLog r.log s.doc }
  rw [hmarker]
  exact hmade

theorem parallel_dropMarker {s t : Editing Sheet} (hkept : made <+: kept)
    (hnumber : terms.number = numberAmong kept)
    (h : Editing.Parallel (MarkerTable.Shares terms.id made) terms s t) (marker : MarkerId) :
    Editing.Parallel (MarkerTable.Shares terms.id made) terms
      (finalState (Sheet.dropMarker marker s))
      (finalState (Sheet.dropMarker (terms.number marker) t)) := by
  have hst := h
  obtain ⟨table, r, hid, hmarkers, hrec⟩ := h
  have hdoc : s.doc.id = terms.id := (Sheet.holds_self.id s.markers s.doc).trans hid
  have hdoc' : (Recordable.setLog r.log s.doc).id = terms.id := by
    rw [← hdoc]
    cases s.doc <;> rfl
  rw [Sheet.dropMarker_eq, Sheet.dropMarker_eq, hnumber]
  dsimp only [finalState]
  rw [hdoc, hdoc', ← hmarkers.owns hkept]
  by_cases howns : s.markers.owns terms.id marker = true
  · rw [if_pos howns, if_pos howns]
    refine .intro _ r ?_ (hmarkers.detach hkept howns) hrec
    rw [← hid, LawfulRecordable.view_table s.markers]
  · rw [if_neg howns, if_neg howns]
    exact hst

/-- What a command does to the sheet, its repetition does in parallel. -/
theorem parallel_repeated {s t : Editing Sheet} (hkept : made <+: kept)
    (hnumber : terms.number = numberAmong kept) {c : SheetCommand} (hc : c.isSelfContained = true)
    (other other' : DocId → Log)
    (h : Editing.Parallel (MarkerTable.Shares terms.id made) terms s t) :
    ∃ more, (∀ b ∈ more, b = true) ∧
      Editing.Parallel (MarkerTable.Shares terms.id (made ++ more)) terms
        (finalState (runSheet other c s))
        (finalState (runSheet other' (c.renumbered terms.number) t)) := by
  by_cases hmakes : ∃ pos advances, c = .makeMarker pos advances
  · obtain ⟨pos, advances, rfl⟩ := hmakes
    exact ⟨[true], by simp, parallel_makeMarker h pos advances⟩
  · refine ⟨[], nofun, ?_⟩
    rw [List.append_nil]
    have hM := admits_shares hkept hnumber
    cases c with
    | makeMarker pos advances => exact absurd ⟨pos, advances, rfl⟩ hmakes
    | dropMarker marker => exact parallel_dropMarker hkept hnumber h marker
    | entryRefersTo index marker =>
        exact finalState_of_looks (SheetCommand.preserves_of_onlyLooks other rfl)
          (SheetCommand.preserves_of_onlyLooks other' rfl) h
    | retainLog count => cases hc
    | copyLog source => cases hc
    | _ => exact SheetCommand.parallel_run hM hc rfl other other' h

/-- A command to the document goes in parallel with its repetition. -/
theorem Accords.step_own (h : Accords terms made w w') (hc : c.isSelfContained = true)
    (htarget : c.target? = some terms.id) (hkept : made <+: kept)
    (hnumber : terms.number = numberAmong kept) :
    ∃ more, (∀ b ∈ more, b = true) ∧
      Accords terms (made ++ more) (w.step c).after (w'.step (c.renumbered terms.number)).after ∧
      (w.step c).notices = (w'.step (c.renumbered terms.number)).notices ∧
      ∀ d ∈ (w.step c).notices, d = terms.id := by
  have hM := admits_shares hkept hnumber
  -- A command to the wrong kind of sheet is refused in both.
  have hrefused : Accords terms (made ++ []) w w' ∧ ([] : List DocId) = [] ∧
      ∀ d ∈ ([] : List DocId), d = terms.id := ⟨by rwa [List.append_nil], rfl, nofun⟩
  obtain ⟨sheet, -, hsheet, -, -⟩ := h.sheet
  cases c with
  | sheet target sc =>
      obtain rfl : target = terms.id := Option.some.inj htarget
      obtain ⟨log, hsheet', hparallel⟩ := h.parallel Sheet.holds_self hsheet
      obtain ⟨more, hmore, hfinal⟩ :=
        parallel_repeated hkept hnumber hc w.logOf w'.logOf hparallel
      refine ⟨more, hmore, ?_⟩
      rw [step_sheet_eq hsheet, Command.renumbered, step_sheet_eq hsheet']
      exact h.edit Sheet.holds_self hfinal
  | document target dc =>
      obtain rfl : target = terms.id := Option.some.inj htarget
      refine ⟨[], nofun, ?_⟩
      have hsame : (Command.document terms.id dc).renumbered terms.number
          = .document terms.id dc := rfl
      rw [hsame]
      cases sheet with
      | document doc =>
          obtain ⟨log, hsheet', hparallel⟩ := h.parallel Sheet.holds_document hsheet
          rw [List.append_nil, step_document_eq hsheet, step_document_eq hsheet']
          exact h.edit Sheet.holds_document (DocumentCommand.parallel_run hM hc hparallel)
      | draft draft =>
          obtain ⟨log, hsheet', -⟩ := h.parallel Sheet.holds_draft hsheet
          rw [step_document_refused hsheet, step_document_refused hsheet']
          exact hrefused
  | draft target dc =>
      obtain rfl : target = terms.id := Option.some.inj htarget
      refine ⟨[], nofun, ?_⟩
      have hsame : (Command.draft terms.id dc).renumbered terms.number = .draft terms.id dc := rfl
      rw [hsame]
      cases sheet with
      | document doc =>
          obtain ⟨log, hsheet', -⟩ := h.parallel Sheet.holds_document hsheet
          rw [step_draft_refused hsheet, step_draft_refused hsheet']
          exact hrefused
      | draft draft =>
          obtain ⟨log, hsheet', hparallel⟩ := h.parallel Sheet.holds_draft hsheet
          rw [List.append_nil, step_draft_eq hsheet, step_draft_eq hsheet']
          exact h.edit Sheet.holds_draft (DraftCommand.parallel_run hM dc hparallel)
  | _ => cases hc

/-! ### Commands to other documents -/

theorem admits_foreign {shared : MarkerTable} {other : DocId} (hne : other ≠ terms.id) :
    (terms.elsewhere other).Admits (Foreign terms.id made shared) where
  ofDoc := by
    rintro table _ ⟨rfl, -⟩
    exact (List.map_id' _).symm
  move := by
    rintro table _ ⟨rfl, hshares⟩ f
    exact ⟨rfl, hshares.move_other hne f⟩

/-- Another document runs beside itself. -/
theorem Accords.foreign {δ : Type} [Recordable δ] [LawfulRecordable δ] {put : δ → Sheet} {doc : δ}
    {other : DocId} (h : Accords terms made w w') (hput : Sheet.Holds put)
    (hdoc : w.sheet? other = some (put doc)) :
    Editing.Parallel (Foreign terms.id made w'.markers) (terms.elsewhere other)
      { recorder := w.recorder, markers := w.markers, doc }
      { recorder := w.recorder, markers := w.markers, doc } := by
  refine .refl ((hput.id w.markers doc).symm.trans (h.placed other _ hdoc)) ⟨rfl, h.markers⟩ ?_
    fun _ => rfl
  refine ⟨h.left.settings, h.left.listening, ?_⟩
  rw [h.sent]
  exact nofun

/-- What another document does leaves alone what the two runs have in common. -/
theorem Accords.elsewhere {δ : Type} [Recordable δ] {made' : List Bool} {put : δ → Sheet} {doc : δ}
    {act : EditM δ Answer} {other : DocId} (h : Accords terms made w w') (hput : Sheet.Holds put)
    (hne : other ≠ terms.id)
    (hfinal : Editing.Parallel (Foreign terms.id made' w'.markers) (terms.elsewhere other)
      (finalState (act { recorder := w.recorder, markers := w.markers, doc }))
      (finalState (act { recorder := w.recorder, markers := w.markers, doc }))) :
    Accords terms made' (w.edit other put doc act).after w' ∧
      ∀ d ∈ (w.edit other put doc act).notices, d ≠ terms.id := by
  rw [edit_after, edit_notices]
  generalize finalState (act { recorder := w.recorder, markers := w.markers, doc }) = u at hfinal ⊢
  obtain ⟨sheet, log, hsheet, hsheet', hlog⟩ := h.sheet
  refine ⟨?_, fun d hd => hfinal.recorder.sent d hd ▸ hne⟩
  refine {
    sheet := ?_
    placed := ?_
    markers := hfinal.markers.2
    left := keepsTo_collected hfinal.recorder rfl rfl
    right := h.right
    sent := rfl
    sent' := h.sent' }
  · refine ⟨sheet, log, ?_, hsheet', hlog⟩
    rw [sheet?_setSheet_ne hne]
    exact hsheet
  · exact placed_setSheet h.placed ((hput.id u.markers u.doc).trans hfinal.id)

/-- A command to another sheet makes markers of that document, or none. -/
theorem foreign_run {s : Editing Sheet} {shared : MarkerTable} {other : DocId}
    (hne : other ≠ terms.id) {c : SheetCommand} (hc : c.isSelfContained = true)
    (logs : DocId → Log)
    (h : Editing.Parallel (Foreign terms.id made shared) (terms.elsewhere other) s s) :
    ∃ more, (∀ b ∈ more, b = false) ∧
      Editing.Parallel (Foreign terms.id (made ++ more) shared) (terms.elsewhere other)
        (finalState (runSheet logs c s)) (finalState (runSheet logs c s)) := by
  have hdoc : s.doc.id = other := (Sheet.holds_self.id s.markers s.doc).trans h.id
  -- The document is the same among other markers.
  have hself {made' : List Bool} {table : MarkerTable}
      (hshares : table.Shares terms.id made' shared) :
      Editing.Parallel (Foreign terms.id made' shared) (terms.elsewhere other)
        { s with markers := table } { s with markers := table } := by
    refine .refl ?_ ⟨rfl, hshares⟩ h.recorder fun _ => rfl
    exact (congrArg View.doc (LawfulRecordable.view_table s.markers table s.doc)).trans h.id
  by_cases hmakes : ∃ pos advances, c = .makeMarker pos advances
  · obtain ⟨pos, advances, rfl⟩ := hmakes
    refine ⟨[false], by simp, hself (h.markers.2.push_other ?_)⟩
    have howner : (s.doc.marker pos advances).owner = some s.doc.id := by
      cases s.doc <;> rfl
    rw [howner, hdoc]
    exact fun heq => hne (Option.some.inj heq)
  · refine ⟨[], nofun, ?_⟩
    rw [List.append_nil]
    cases c with
    | makeMarker pos advances => exact absurd ⟨pos, advances, rfl⟩ hmakes
    | dropMarker marker =>
        rw [runSheet, Sheet.dropMarker_eq, hdoc]
        dsimp only [finalState]
        by_cases howns : s.markers.owns other marker = true
        · rw [if_pos howns]
          exact hself (h.markers.2.detach_other hne howns)
        · rw [if_neg howns]
          exact h
    | retainLog count => cases hc
    | copyLog source => cases hc
    | _ => exact SheetCommand.parallel_run (admits_foreign hne) hc rfl logs logs h

/-- A command to another document leaves alone what the two runs have in common. -/
theorem Accords.step_other (h : Accords terms made w w') (hc : c.isSelfContained = true)
    {other : DocId} (htarget : c.target? = some other) (hne : other ≠ terms.id) :
    ∃ more, (∀ b ∈ more, b = false) ∧ Accords terms (made ++ more) (w.step c).after w' ∧
      ∀ d ∈ (w.step c).notices, d ≠ terms.id := by
  have hrefused : Accords terms (made ++ []) w w' ∧ ∀ d ∈ ([] : List DocId), d ≠ terms.id :=
    ⟨by rwa [List.append_nil], nofun⟩
  cases hsheet : w.sheet? other with
  | none =>
      rw [step_misaddressed hsheet htarget]
      exact ⟨[], nofun, hrefused⟩
  | some sheet =>
      cases c with
      | sheet target sc =>
          obtain rfl : target = other := Option.some.inj htarget
          obtain ⟨more, hmore, hfinal⟩ :=
            foreign_run hne hc w.logOf (h.foreign Sheet.holds_self hsheet)
          refine ⟨more, hmore, ?_⟩
          rw [step_sheet_eq hsheet]
          exact h.elsewhere Sheet.holds_self hne hfinal
      | document target dc =>
          obtain rfl : target = other := Option.some.inj htarget
          refine ⟨[], nofun, ?_⟩
          cases sheet with
          | document doc =>
              rw [List.append_nil, step_document_eq hsheet]
              exact h.elsewhere Sheet.holds_document hne (DocumentCommand.parallel_run
                (admits_foreign hne) hc (h.foreign Sheet.holds_document hsheet))
          | draft draft =>
              rw [step_document_refused hsheet]
              exact hrefused
      | draft target dc =>
          obtain rfl : target = other := Option.some.inj htarget
          refine ⟨[], nofun, ?_⟩
          cases sheet with
          | document doc =>
              rw [step_draft_refused hsheet]
              exact hrefused
          | draft draft =>
              rw [List.append_nil, step_draft_eq hsheet]
              exact h.elsewhere Sheet.holds_draft hne (DraftCommand.parallel_run
                (admits_foreign hne) dc (h.foreign Sheet.holds_draft hsheet))
      | _ => cases hc

/-! ### Sessions -/

/-- A settled workspace accords with itself under a recorder that remembers nothing. -/
theorem Settled.accords {start : Workspace} {id : DocId} {later : List Bool} (h : start.Settled)
    (hsheet : (start.sheet? id).isSome) :
    Accords
      { id, settings := start.recorder.settings, listening := start.recorder.listening,
        number := numberAmong (List.replicate start.markers.nextId true ++ later) }
      (List.replicate start.markers.nextId true) start start.alone := by
  obtain ⟨sheet, hsheet⟩ := Option.isSome_iff_exists.mp hsheet
  refine {
    sheet := ⟨sheet, sheet.log, hsheet, ?_, ?_⟩
    placed := h.placed
    markers := .refl id start.markers
    left := ⟨rfl, rfl, by rw [h.sent]; exact nofun⟩
    right := ⟨rfl, rfl, nofun⟩
    sent := h.sent
    sent' := rfl }
  · exact hsheet.trans (congrArg some (LawfulRecordable.setLog_log sheet).symm)
  · refine Log.parallel_self fun e he => e.renumbered_self ?_
    rintro marker delta rfl
    exact numberAmong_of_lt later (h.mentions id sheet hsheet marker delta he)

/-- The two runs accord all along, and the notices about the document are the same. -/
theorem accords_later {start : Workspace} {id : DocId} {commands : List Command} {whole : List Bool}
    (h : start.Settled) (hsheet : (start.sheet? id).isSome)
    (hcommands : ∀ c ∈ commands, c.isSelfContained = true)
    (hkept : start.kept id commands <+: whole) :
    Accords
      { id, settings := start.recorder.settings, listening := start.recorder.listening,
        number := numberAmong whole }
      (start.kept id commands) (start.later commands)
      (start.alone.later (Command.own id (numberAmong whole) commands)) ∧
    (start.notices commands).filter (· = id)
      = start.alone.notices (Command.own id (numberAmong whole) commands) := by
  induction commands with
  | nil =>
      obtain ⟨later, rfl⟩ := hkept
      exact ⟨h.accords hsheet, rfl⟩
  | cons c earlier ih =>
      have hearlier : start.kept id earlier <+: whole := (List.prefix_append _ _).trans hkept
      have hc := hcommands c List.mem_cons_self
      obtain ⟨haccords, hnotices⟩ :=
        ih (fun c hc => hcommands c (List.mem_cons_of_mem _ hc)) hearlier
      -- However many markers the command makes, `kept` says so.
      have hmade {more : List Bool} {w' : Workspace} {terms : Terms} {b : Bool}
          (hmore : ∀ b' ∈ more, b' = b) (hb : b = decide (c.target? = some id))
          (hstep : Accords terms (start.kept id earlier ++ more) (start.later (c :: earlier)) w') :
          start.kept id earlier ++ more = start.kept id (c :: earlier) := by
        have hbefore := haccords.markers.nextId
        have hafter := hstep.markers.nextId
        rw [List.length_append, hbefore] at hafter
        have hlength : more.length = (start.later (c :: earlier)).markers.nextId
            - (start.later earlier).markers.nextId := Nat.eq_sub_of_add_eq' hafter
        rw [Workspace.kept, ← hb]
        exact congrArg (start.kept id earlier ++ ·) (List.eq_replicate_iff.mpr ⟨hlength, hmore⟩)
      by_cases htarget : c.target? = some id
      · obtain ⟨more, hmore, hstep, hsent, hall⟩ := haccords.step_own hc htarget hearlier rfl
        have hown : Command.own id (numberAmong whole) (c :: earlier)
            = c.renumbered (numberAmong whole) :: Command.own id (numberAmong whole) earlier := by
          unfold Command.own
          rw [List.filter_cons_of_pos (by simpa using htarget), List.map_cons]
        rw [← hmade hmore (by simp [htarget]) hstep, hown, notices, notices, List.filter_append,
          hnotices, hsent]
        refine ⟨hstep, congrArg _ (List.filter_eq_self.mpr ?_)⟩
        intro d hd
        rw [← hsent] at hd
        exact decide_eq_true (hall d hd)
      · obtain ⟨other, hother⟩ : ∃ other, c.target? = some other := by
          cases c <;> first | exact ⟨_, rfl⟩ | cases hc
        have hne : other ≠ id := by
          rintro rfl
          exact htarget hother
        obtain ⟨more, hmore, hstep, hall⟩ := haccords.step_other hc hother hne
        have hown : Command.own id (numberAmong whole) (c :: earlier)
            = Command.own id (numberAmong whole) earlier := by
          unfold Command.own
          rw [List.filter_cons_of_neg (by simpa using htarget)]
        rw [← hmade hmore (by simp [htarget]) hstep, hown, notices, List.filter_append, hnotices,
          List.filter_eq_nil_iff.mpr (by simpa using hall), List.append_nil]
        exact ⟨hstep, rfl⟩

/--
**Documents that share a recorder do not leak into each other's history.**  Let commands to any
documents be carried out in any order: recording calls, edits, boundaries, whatever keeps to
its own document and takes nothing back.  Then carry out those to one document alone, under a
fresh recorder with the same settings and listener, from the same workspace.  Both times the
document ends with the same log but for point moves, with the mark whether its first change
was announced, and the same notices were sent about it, in order.  Its markers are numbered as
they are made, so the second run has them under other numbers.
-/
theorem documents_do_not_leak {start : Workspace} {id : DocId} {commands : List Command}
    (h : start.Settled) (hsheet : (start.sheet? id).isSome)
    (hcommands : ∀ c ∈ commands, c.isSelfContained = true) :
    let number := numberAmong (start.kept id commands)
    let own := Command.own id number commands
    ((start.later commands).logOf id).withoutMoves.renumbered number
        = ((start.alone.later own).logOf id).withoutMoves ∧
      ((start.later commands).logOf id).announced = ((start.alone.later own).logOf id).announced ∧
      (start.notices commands).filter (· = id) = start.alone.notices own ∧
      ∀ marker other, (start.kept id commands)[marker]? = some true →
        number marker = number other → marker = other := by
  intro number own
  obtain ⟨haccords, hnotices⟩ :=
    accords_later h hsheet hcommands (List.prefix_refl (start.kept id commands))
  obtain ⟨sheet, log, hleft, hright, hlog⟩ := haccords.sheet
  have hlogs : (start.later commands).logOf id = sheet.log ∧
      (start.alone.later own).logOf id = log := by
    unfold logOf
    rw [hleft, hright]
    exact ⟨rfl, LawfulRecordable.log_setLog log sheet⟩
  rw [hlogs.1, hlogs.2]
  exact ⟨hlog.same, hlog.announced, hnotices, fun _ _ => numberAmong_inj⟩

/-- A workspace that was just opened, with nothing in its logs, is settled. -/
theorem settled_opened {settings : Settings} {sheets : List (DocId → Sheet)}
    (h : ∀ make ∈ sheets, ∀ id, (make id).id = id ∧ (make id).log.entries = []) :
    (opened settings sheets).Settled := by
  have hmade {id : DocId} {sheet : Sheet} (hget : (opened settings sheets).sheet? id = some sheet) :
      sheet.id = id ∧ sheet.log.entries = [] := by
    have hmake : ∃ make, sheets[id.number]? = some make ∧ make id = sheet := by
      simpa [sheet?, opened, List.getElem?_zipIdx] using hget
    obtain ⟨make, hmake, rfl⟩ := hmake
    exact h make (List.mem_of_getElem? hmake) id
  refine ⟨fun id sheet hget => (hmade hget).1, ?_, rfl⟩
  intro id sheet hget marker delta hmem
  rw [(hmade hget).2] at hmem
  cases hmem

end Workspace

/-- Two texts under a recorder that is listened to. -/
def Workspace.ofTwoTexts (text text' : Text) : Workspace :=
  { opened {} [fun id => .document (.ofText id text), fun id => .document (.ofText id text')] with
    recorder := { listening := true } }

/-- Edits of two documents with markers; each ends a unit before the first goes on. -/
def intermingled : List Command :=
  [.document ⟨0⟩ (.deleteRange 2 4), .sheet ⟨1⟩ .insertBoundary, .document ⟨1⟩ (.insert ['y']),
    .sheet ⟨0⟩ .insertBoundary, .document ⟨0⟩ (.insert ['z']), .sheet ⟨0⟩ (.makeMarker 2 false),
    .sheet ⟨1⟩ (.makeMarker 0 true)]

/-- Alone, the last deletion is preceded by a point move, and its marker is the first. -/
theorem documents_do_not_leak_deletion :
    let start := Workspace.ofTwoTexts ['a', 'b', 'c'] ['x']
    let number := numberAmong (start.kept ⟨0⟩ intermingled)
    let own := Command.own ⟨0⟩ number intermingled
    start.Settled ∧ (∀ c ∈ intermingled, c.isSelfContained = true) ∧
      ((start.later intermingled).logOf ⟨0⟩).withoutMoves.renumbered number
        = ((start.alone.later own).logOf ⟨0⟩).withoutMoves ∧
      ((start.later intermingled).logOf ⟨0⟩).entries.take 2
        = [.deletion ['b', 'c'] 2, .markerShift 1 (-1)] ∧
      ((start.alone.later own).logOf ⟨0⟩).entries.take 3
        = [.deletion ['b', 'c'] 2, .markerShift 0 (-1), .pointMove 1] ∧
      start.alone.notices own = [⟨0⟩] := by
  intro start number own
  have hopened : (Workspace.opened {} [fun id => .document (.ofText id ['a', 'b', 'c']),
      fun id => .document (.ofText id ['x'])]).Settled := by
    refine Workspace.settled_opened ?_
    intro make hmake id
    rcases List.mem_cons.mp hmake with rfl | hmake
    · exact ⟨rfl, rfl⟩
    · rw [List.mem_singleton.mp hmake]
      exact ⟨rfl, rfl⟩
  have hsettled : start.Settled := ⟨hopened.placed, hopened.mentions, rfl⟩
  have hcommands : ∀ c ∈ intermingled, c.isSelfContained = true := by decide +kernel
  have hsheet : (start.sheet? ⟨0⟩).isSome := rfl
  obtain ⟨hlog, -, -, -⟩ := Workspace.documents_do_not_leak hsettled hsheet hcommands
  exact ⟨hsettled, hcommands, hlog, by decide +kernel, by decide +kernel, by decide +kernel⟩

end EditHistory
