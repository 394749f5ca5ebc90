/-
What lies below a boundary is never looked at.

Recording looks at the newest entry of a log and at no other.  A boundary there and no
entry at all come to the same, so older entries that start with a boundary can be put
below a log, or taken away from there, and nothing that is recorded on top is any
different.  `atop` puts entries below, and `AtopAlike` relates two moments that are one
moment on top of two such lots of entries.  Every call of a document keeps to it, and so
does an undo, as long as it does not reach down to what is below.
-/
import EditHistory.Proofs.Document.Alike
import EditHistory.Proofs.Undo.Text

namespace EditHistory

/-! ### Entries below a log -/

/-- The log with older entries below its own. -/
def Log.atop (below : List Entry) (log : Log) : Log :=
  { log with entries := log.entries ++ below }

namespace Recording

/-- The recording with older entries below those of its log. -/
def atop (below : List Entry) (s : Recording) : Recording := { s with log := s.log.atop below }

variable {below below' : List Entry} {v : View}

@[simp] theorem recorder_atop (s : Recording) : (s.atop below).recorder = s.recorder := rfl

@[simp] theorem entries_atop (s : Recording) :
    (s.atop below).log.entries = s.log.entries ++ below := rfl

theorem atBoundary_atop (h : Log.opens below = true) (s : Recording) :
    (s.atop below).log.atBoundary = s.log.atBoundary := by
  rw [Log.atBoundary_eq_opens, Log.atBoundary_eq_opens]
  show Log.opens (s.log.entries ++ below) = Log.opens s.log.entries
  cases s.log.entries with
  | nil => exact h
  | cons e older => rfl

theorem beginChange_atop (v : View) (s : Recording) :
    (s.atop below).beginChange v = (s.beginChange v).atop below := by
  unfold beginChange
  show (if s.log.announced = true then _ else _) = _
  split <;> rfl

theorem noteFirstChange_atop (v : View) (s : Recording) :
    (s.atop below).noteFirstChange v = (s.noteFirstChange v).atop below := by
  have hsame : Unnoted v (s.atop below) ↔ Unnoted v s := unnoted_congr rfl
  by_cases h : Unnoted v s
  · rw [noteFirstChange_of_unnoted h, noteFirstChange_of_unnoted (hsame.mpr h)]
    rfl
  · rw [noteFirstChange_of_noted h, noteFirstChange_of_noted fun hn => h (hsame.mp hn)]

theorem notePoint_atop (h : Log.opens below = true) (v : View) (pos : Nat) (s : Recording) :
    (s.atop below).notePoint v pos = (s.notePoint v pos).atop below := by
  unfold notePoint
  simp only [beginChange_atop, noteFirstChange_atop, atBoundary_atop h]
  by_cases hin : s.recorder.settings.inhibitPoint = true
  · rw [if_pos hin]
    exact if_pos hin
  · rw [if_neg hin]
    refine (if_neg hin).trans ?_
    rw [recorder_atop]
    cases (s.beginChange v).log.atBoundary with
    | false => rfl
    | true =>
        cases ((s.beginChange v).noteFirstChange v).recorder.positionIn v.doc with
        | none => rfl
        | some position =>
            by_cases hpos : position = pos
            · simp only [if_pos hpos]
            · simp only [if_neg hpos]
              rfl

theorem extendInsertion_atop (h : Log.opens below = true) (start stop : Nat) (s : Recording) :
    (s.atop below).extendInsertion start stop = (s.extendInsertion start stop).atop below := by
  unfold extendInsertion
  rw [entries_atop]
  cases hentries : s.log.entries with
  | nil =>
      -- A boundary below is no insertion either.
      cases below with
      | nil => rfl
      | cons e below =>
          have he : e = .boundary := by simpa [Log.opens] using h
          subst he
          rfl
  | cons e older =>
      cases e with
      | insertion first last =>
          dsimp only [List.cons_append]
          split <;> rfl
      | _ => rfl

theorem foldl_push_atop {α : Type} (f : α → Entry) (l : List α) (s : Recording) :
    l.foldl (fun s a => s.push (f a)) (s.atop below)
      = (l.foldl (fun s a => s.push (f a)) s).atop below := by
  induction l generalizing s with
  | nil => rfl
  | cons a rest ih => exact ih (s.push (f a))

theorem endUnit_atop (h : Log.opens below = true) (v : View) (s : Recording) :
    (s.atop below).endUnit v = (s.endUnit v).atop below := by
  unfold endUnit
  simp only [atBoundary_atop h]
  show (if s.log.disabled = true then _ else _) = _
  split
  · rfl
  · cases s.log.atBoundary <;> rfl

/-- The two are one recording, on top of `below` and on top of `below'`. -/
inductive AtopAlike (below below' : List Entry) : Recording → Recording → Prop
  | intro (s : Recording) : AtopAlike below below' (s.atop below) (s.atop below')

theorem disabled_of_atopAlike (s t : Recording) (h : AtopAlike below below' s t) :
    s.log.disabled = t.log.disabled := by
  cases h
  rfl

section Calls

variable (h : Log.opens below = true) (h' : Log.opens below' = true)

include h h'

theorem respects_modify {f : Recording → Recording}
    (hf : ∀ below, Log.opens below = true → ∀ s, f (s.atop below) = (f s).atop below) :
    Respects (AtopAlike below below') (modify f : RecordM Unit) := by
  refine .modify ?_
  rintro _ _ ⟨s⟩
  rw [hf below h, hf below' h']
  exact .intro (f s)

theorem respects_recordInsert (start length : Nat) (v : View) :
    Respects (AtopAlike below below') (recordInsert start length v) := by
  refine runsAlike_whenEnabled disabled_of_atopAlike (.bind (respects_require _) ?_)
  intro _
  refine respects_modify h h' ?_
  intro below h s
  rw [notePoint_atop h, extendInsertion_atop h]

theorem respects_recordDelete (start : Nat) (text : Text) (withMarkers : Bool) (v : View) :
    Respects (AtopAlike below below') (recordDelete start text withMarkers v) := by
  refine runsAlike_whenEnabled disabled_of_atopAlike (.bind (respects_require _) ?_)
  intro _
  refine .bind (respects_require _) ?_
  intro _
  refine .bind (respects_require _) ?_
  intro _
  refine respects_modify h h' ?_
  intro below h s
  dsimp only
  rw [notePoint_atop h]
  have hbegun (s : Recording) : (if withMarkers then (s.atop below).beginChange v else s.atop below)
      = (if withMarkers then s.beginChange v else s).atop below := by
    split
    · exact beginChange_atop v s
    · rfl
  rw [hbegun, foldl_push_atop fun m : MarkerId × Int => .markerShift m.1 m.2]
  rfl

theorem respects_recordChange (start length : Nat) (v : View) :
    Respects (AtopAlike below below') (recordChange start length v) := by
  refine runsAlike_whenEnabled disabled_of_atopAlike (.bind (respects_require _) ?_)
  intro _
  split
  · exact .throw _
  · refine .bind (respects_recordDelete h h' _ _ _ _) ?_
    intro _
    exact respects_recordInsert h h' _ _ _

theorem respects_recordPropertyChange (start length : Nat) (name : String) (old : Json)
    (v : View) :
    Respects (AtopAlike below below') (recordPropertyChange start length name old v) := by
  refine runsAlike_whenEnabled disabled_of_atopAlike (.bind (respects_require _) ?_)
  intro _
  refine respects_modify h h' ?_
  intro below _ s
  rw [beginChange_atop, noteFirstChange_atop]
  rfl

theorem respects_insertBoundary (v : View) :
    Respects (AtopAlike below below') (insertBoundary v) :=
  respects_modify h h' fun _ h s => endUnit_atop h v s

end Calls

end Recording

/-! ### Entries below the log of a document -/

namespace Editing

/-- The moment with older entries below those of the document's log. -/
def atop (below : List Entry) (s : Editing Document) : Editing Document :=
  { s with doc := { s.doc with log := s.doc.log.atop below } }

/-- The two are one moment, on top of `below` and on top of `below'`. -/
inductive AtopAlike (below below' : List Entry) : Editing Document → Editing Document → Prop
  | intro (s : Editing Document) : AtopAlike below below' (s.atop below) (s.atop below')

end Editing

section Operations

open Editing (AtopAlike)

variable {below below' : List Entry}

namespace EditM

theorem respects_record {call : View → RecordM Unit}
    (hcall : ∀ v, Respects (Recording.AtopAlike below below') (call v)) :
    Respects (AtopAlike below below') (record call) := by
  rintro _ _ ⟨s⟩
  refine alike_record (hcall s.view _ _ (.intro s.recording)) ?_
  rintro _ _ ⟨r⟩
  exact .intro (s.recorded r)

/-- A change that does not look at the recording does not see what lies below either. -/
theorem respects_apply {change : Editing Document → Except Failure (Editing Document)}
    (hchange : ∀ s r, change (s.recorded r) = (change s).map (·.recorded r)) :
    Respects (AtopAlike below below') (apply change) := by
  rintro _ _ ⟨s⟩
  have hatop (below : List Entry) :
      change (s.atop below) = (change s).map (·.recorded (s.recording.atop below)) :=
    hchange s (s.recording.atop below)
  refine alike_apply (.intro s) ?_
  rw [hatop, hatop]
  cases change s with
  | ok u => exact Or.inl ⟨_, _, rfl, rfl, .intro (u.recorded s.recording)⟩
  | error e => exact Or.inr ⟨e, rfl, rfl⟩

theorem respects_modify {f : Editing Document → Editing Document}
    (hf : ∀ below s, f (s.atop below) = (f s).atop below) :
    Respects (AtopAlike below below') (modify f : EditM Document Unit) := by
  refine .modify ?_
  rintro _ _ ⟨s⟩
  rw [hf, hf]
  exact .intro (f s)

end EditM

theorem Document.restoreMarker_recorded (id : MarkerId) (delta : Int) (s : Editing Document)
    (r : Recording) :
    restoreMarker id delta (s.recorded r) = (restoreMarker id delta s).map (·.recorded r) := by
  have hmarkers : (s.recorded r).markers = s.markers := rfl
  unfold restoreMarker
  rw [hmarkers]
  cases (s.markers.get? id).filter (·.isLive) with
  | none => rfl
  | some m =>
      dsimp only
      split <;> rfl

/-- Nothing that an operation of a document does depends on what lies below. -/
theorem Document.respected_atopAlike (h : Log.opens below = true)
    (h' : Log.opens below' = true) : Respected (AtopAlike below below') where
  text := by
    rintro _ _ ⟨s⟩
    rfl
  point := by
    rintro _ _ ⟨s⟩
    rfl
  spans := by
    rintro _ _ ⟨s⟩
    rfl
  recordInsert _ _ := EditM.respects_record (Recording.respects_recordInsert h h' _ _)
  recordDelete _ _ _ := EditM.respects_record (Recording.respects_recordDelete h h' _ _ _)
  recordChange _ _ := EditM.respects_record (Recording.respects_recordChange h h' _ _)
  recordRun _ _ := EditM.respects_record (Recording.respects_recordPropertyChange h h' _ _ _ _)
  insertBoundary := EditM.respects_record (Recording.respects_insertBoundary h h')
  insertText start added := EditM.respects_apply (insertText_recorded start added)
  removeText start stop := EditM.respects_apply (removeText_recorded start stop)
  overwriteText start new := EditM.respects_apply (overwriteText_recorded start new)
  withSpan span := EditM.respects_apply (withSpan_recorded span)

/-- Every call runs alike, whatever lies below. -/
theorem Call.respects (h : Log.opens below = true) (h' : Log.opens below' = true) (c : Call) :
    Respects (AtopAlike below below') c.run := by
  have hsteps := Document.respected_atopAlike h h'
  cases c with
  | insert text => exact hsteps.insert text
  | deleteRange start stop => exact hsteps.deleteRange start stop
  | replaceRange start text => exact hsteps.replaceRange start text
  | putProperty start stop name value => exact hsteps.putProperty start stop name value
  | boundary => exact hsteps.insertBoundary
  | restoreMarker id delta =>
      exact EditM.respects_apply (Document.restoreMarker_recorded id delta)
  | restoreProperty change =>
      refine .get_bind ?_
      rintro _ _ ⟨s⟩
      exact .ite (hsteps.putProperty _ _ _ _) (.throw _)
  | setPoint pos => exact EditM.respects_modify fun _ _ => rfl
  | markSaved modtime => exact EditM.respects_modify fun _ _ => rfl
  | markUnmodified => exact EditM.respects_modify fun _ _ => rfl
  | makeMarker pos advances => exact EditM.respects_modify fun _ _ => rfl
  | dropMarker id =>
      refine EditM.respects_modify ?_
      intro below s
      show (if s.markers.owns s.doc.id id = true then _ else _) = _
      by_cases howns : s.markers.owns s.doc.id id = true
      · rw [if_pos howns, if_pos howns]
        rfl
      · rw [if_neg howns, if_neg howns]
  | revisit modtime =>
      refine EditM.respects_modify ?_
      intro below s
      show Editing.mk _ _ (if modtime = s.doc.modtime then _ else _) = _
      by_cases hsame : modtime = s.doc.modtime
      · simp only [if_pos hsame]
        rfl
      · simp only [if_neg hsame]

theorem Call.respects_runAll (h : Log.opens below = true) (h' : Log.opens below' = true)
    (calls : List Call) : Respects (AtopAlike below below') (runAll calls) :=
  .forM calls fun c _ => c.respects h h'

end Operations

/-! ### Undo, down to what is below -/

namespace Editing

variable {below below' top : List Entry} {s t : Editing Document}

/-- The moment without the entries of the document's log. -/
def bare (s : Editing Document) : Editing Document :=
  { s with doc := { s.doc with log := s.doc.log.clear } }

theorem atop_bare (s : Editing Document) : s.bare.atop s.doc.log.entries = s := rfl

/-- Two moments that differ in the entries of their logs only are one moment on top of both. -/
theorem atopAlike_of_bare (h : t.bare = s.bare) :
    AtopAlike s.doc.log.entries t.doc.log.entries s t := by
  have hs : AtopAlike s.doc.log.entries t.doc.log.entries (s.bare.atop s.doc.log.entries)
      (s.bare.atop t.doc.log.entries) := .intro s.bare
  rwa [atop_bare, ← h, atop_bare] at hs

/-- What is on top of both lots of entries can be counted to the moment itself. -/
theorem AtopAlike.of_append (h : AtopAlike (top ++ below) (top ++ below') s t) :
    AtopAlike below below' s t := by
  obtain ⟨u⟩ := h
  have hassoc (below : List Entry) : u.atop (top ++ below) = (u.atop top).atop below := by
    unfold atop Log.atop
    simp only [List.append_assoc]
  rw [hassoc, hassoc]
  exact .intro (u.atop top)

theorem opens_closing (hon : s.doc.log.disabled = false) :
    Log.opens s.closing.doc.log.entries = true := by
  rw [entries_closing hon]
  unfold Recording.closing
  cases hboundary : s.recording.log.atBoundary with
  | true => exact hboundary
  | false => rfl

/-- Closing asks no more of the log than whether a unit is open. -/
theorem bare_closing (h : t.bare = s.bare)
    (hboundary : t.doc.log.atBoundary = s.doc.log.atBoundary) :
    t.closing.bare = s.closing.bare := by
  obtain ⟨u, below, below', rfl, rfl⟩ : ∃ u below below', s = atop below u ∧ t = atop below' u :=
    ⟨s.bare, s.doc.log.entries, t.doc.log.entries, rfl, by rw [← h]; rfl⟩
  have hsame : (u.atop below').recording.log.atBoundary = (u.atop below).recording.log.atBoundary :=
    hboundary
  unfold closing recorded Recording.endUnit
  simp only [hsame]
  show bare { u with
      recorder := Recording.recorder (if u.doc.log.disabled = true then _ else _)
      doc := { u.doc with log := Recording.log (if u.doc.log.disabled = true then _ else _) } }
    = bare { u with
      recorder := Recording.recorder (if u.doc.log.disabled = true then _ else _)
      doc := { u.doc with log := Recording.log (if u.doc.log.disabled = true then _ else _) } }
  cases u.doc.log.disabled with
  | true => rfl
  | false => cases (u.atop below).recording.log.atBoundary <;> rfl

end Editing

theorem Call.runAll_boundary (calls : List Call) (s : Editing Document) :
    runAll (.boundary :: calls) s = runAll calls s.closing := by
  rw [runAll_cons]
  exact EditM.bind_ok rfl

open Editing in
/--
An undo that takes back the same units goes alike on logs that differ below them, as long
as both have a unit open, or neither has.
-/
theorem Document.undo_alike {s t : Editing Document} {count : Nat}
    (hon : s.doc.log.disabled = false) (h : t.bare = s.bare)
    (hboundary : t.doc.log.atBoundary = s.doc.log.atBoundary)
    (hunits : t.doc.log.units.take count = s.doc.log.units.take count) :
    Alike (AtopAlike s.doc.log.entries t.doc.log.entries) (undo count s) (undo count t) := by
  have hon' : t.doc.log.disabled = false := by
    have hlog := congrArg (fun u : Editing Document => u.doc.log.disabled) h
    exact hlog.trans hon
  have hclosing : Recording.closing t.recording = Recording.closing s.recording := by
    unfold Recording.closing
    rw [log_recording, log_recording, hboundary]
  rw [undo_eq_runAll, undo_eq_runAll, undoCalls, undoCalls, hunits, Call.runAll_boundary,
    Call.runAll_boundary]
  have halike := Call.respects_runAll (opens_closing hon) (opens_closing hon')
    ((s.doc.log.units.take count).flatMap unitCalls) _ _
    (atopAlike_of_bare (bare_closing h hboundary))
  rw [entries_closing hon, entries_closing hon', hclosing] at halike
  exact halike.mono fun _ _ => AtopAlike.of_append

/-- An undo of no more than there is goes alike on top of a boundary. -/
theorem Document.undo_atop {below : List Entry} {s : Editing Document} {count : Nat}
    (hon : s.doc.log.disabled = false) (hbelow : Log.opens below = true)
    (hcount : count ≤ s.doc.log.unitCount) :
    Alike (Editing.AtopAlike s.doc.log.entries (s.atop below).doc.log.entries)
      (undo count s) (undo count (s.atop below)) := by
  refine undo_alike hon rfl (Recording.atBoundary_atop hbelow s.recording) ?_
  have hunits : (s.atop below).doc.log.units = s.doc.log.units ++ Log.groups [] below :=
    Log.groups_append_of_opens hbelow
  rw [hunits, List.take_append_of_le_length]
  rwa [Log.length_units]

/-- Where there is room for all entries of a log there is room for the newest. -/
theorem HasRoom.of_atop {below : List Entry} {s : Editing Document}
    (h : HasRoom (s.atop below).doc.log.entries (s.atop below)) : HasRoom s.doc.log.entries s := by
  have hentries : (s.atop below).doc.log.entries = s.doc.log.entries ++ below := rfl
  have hroom : HasRoom s.doc.log.entries (s.atop below) := by
    unfold HasRoom at h ⊢
    rw [hentries, List.length_append, Entry.totalReach_append, List.flatMap_append] at h
    exact h.mono (Nat.le_add_right _ _) (Nat.le_add_right _ _) (List.subset_append_left _ _)
  exact ⟨hroom.ticks, hroom.markers⟩

/-- Which undo leads where does not depend on what lies below, if there is room for that too. -/
theorem Document.UndoLeads.alike {s t : Editing Document} {count : Nat}
    {post : Editing Document → Prop} {below below' : List Entry} (h : UndoLeads count s post)
    (halike : Alike (Editing.AtopAlike below below') (undo count s) (undo count t))
    (hroom : HasRoom t.doc.log.entries t → HasRoom s.doc.log.entries s)
    (hpost : ∀ u u', Editing.AtopAlike below below' u u' → post u → post u') :
    UndoLeads count t post := by
  rcases h with ⟨u, hu, hpost'⟩ | ⟨hno, u, hu⟩
  · rw [hu] at halike
    generalize hrun : undo count t = r at halike
    cases halike with
    | ok _ hatop => exact Or.inl ⟨_, hrun, hpost _ _ hatop hpost'⟩
  · rw [hu] at halike
    generalize hrun : undo count t = r at halike
    cases halike with
    | error _ _ => exact Or.inr ⟨fun hr => hno (hroom hr), _, hrun⟩

/-! ### Undo after a truncation -/

namespace Workspace

/-- What the command to truncate does to a document. -/
theorem moment?_truncate {w : Workspace} {id : DocId} {s : Editing Document}
    (hs : w.moment? id = some s) : (w.step (.truncate id)).after.moment? id = some { s with
      doc := { s.doc with
        log := (truncateUnder s.recorder.hook s.recorder.settings w.depth s.doc.log).log } } := by
  obtain ⟨hsheet, hrec, hmark⟩ := moment?_eq_some.mp hs
  unfold step
  dsimp only
  rw [hsheet]
  dsimp only
  unfold truncate
  rw [← hrec, ← hmark]
  exact moment?_setSheet_self hs w.recorder w.markers _ _

end Workspace

open Editing in
/--
**Truncation is invisible to undoing what is kept.**  Truncate the log of a document, without
a hook, and undo no more units than are left.  Then the undo goes as it would have gone without
the truncation: it succeeds or fails in the same way, and leaves the same text, cursor, markers,
properties, ticks and recorder, and the same entries on top of the log.
-/
theorem truncation_invisible_to_undo {w : Workspace} {id : DocId} {s : Editing Document}
    (hs : w.moment? id = some s) (hon : s.doc.log.disabled = false)
    (hhook : s.recorder.hook = none) :
    ∃ t, (w.step (.truncate id)).after.moment? id = some t ∧
      ∀ count ≤ t.doc.log.unitCount,
        Alike (AtopAlike s.doc.log.entries t.doc.log.entries)
          (Document.undo count s) (Document.undo count t) := by
  refine ⟨_, Workspace.moment?_truncate hs, ?_⟩
  obtain ⟨keep, hlog, hclosed⟩ :=
    exists_retain_truncateUnder s.recorder.settings w.depth s.doc.log
  rw [hhook, hlog]
  intro count hcount
  have hunits : s.doc.log.units = (s.doc.log.retain keep).units
      ++ Log.groups [] (s.doc.log.entries.drop keep) := by
    have h := Log.groups_append_of_closed hclosed
    rwa [List.take_append_drop] at h
  refine Document.undo_alike hon rfl (Log.atBoundary_retain hclosed) ?_
  rw [hunits, List.take_append_of_le_length]
  rwa [Log.length_units]

/-- Of two units the older is dropped; the newer, a deletion, is undone as if it were not. -/
theorem truncation_invisible_to_undo_two_units :
    let w := (Workspace.ofText ['a', 'b', 'c']).later
      [.recorder (.setSettings { softLimit := 0, strongLimit := 0 }),
        .document ⟨0⟩ (.deleteRange 0 2), .sheet ⟨0⟩ .insertBoundary,
        .document ⟨0⟩ (.insert ['x'])]
    ∃ s t, w.moment? ⟨0⟩ = some s ∧ (w.step (.truncate ⟨0⟩)).after.moment? ⟨0⟩ = some t ∧
      s.doc.log.unitCount = 2 ∧ t.doc.log.unitCount = 1 ∧
      Alike (Editing.AtopAlike s.doc.log.entries t.doc.log.entries)
        (Document.undo 1 s) (Document.undo 1 t) ∧
      Document.UndoSucceeds 1 t fun u => u.doc.text = ['x', 'a', 'b', 'c'] := by
  intro w
  obtain ⟨s, hs⟩ : ∃ s, w.moment? ⟨0⟩ = some s := ⟨_, rfl⟩
  have hfacts : (w.moment? ⟨0⟩).all fun s => s.doc.log.disabled = false ∧
      s.recorder.hook.isNone ∧ s.doc.log.unitCount = 2 := by decide +kernel
  have hcut : ((w.step (.truncate ⟨0⟩)).after.moment? ⟨0⟩).all fun t =>
      t.doc.log.unitCount = 1 ∧
        Document.UndoSucceeds 1 t fun u => u.doc.text = ['x', 'a', 'b', 'c'] := by decide +kernel
  simp only [hs, Option.all_some, decide_eq_true_eq] at hfacts
  obtain ⟨hon, hhook, htwo⟩ := hfacts
  obtain ⟨t, ht, halike⟩ := truncation_invisible_to_undo hs hon (Option.isNone_iff_eq_none.mp hhook)
  simp only [ht, Option.all_some, decide_eq_true_eq] at hcut
  exact ⟨s, t, hs, ht, htwo, hcut.1, halike 1 (Nat.le_of_eq hcut.1.symm), hcut.2⟩

end EditHistory
