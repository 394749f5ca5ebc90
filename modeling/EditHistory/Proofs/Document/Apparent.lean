/-
Recording never influences an edit.

What shows of a document is everything but its log: the text, the cursor, the ticks, the
modification time, the properties, and the markers of the run.  Two moments that look the
same are one moment under two recordings, and an operation takes them to two moments that
look the same, with the same result.  So it does not matter what the log holds, whether it
is switched on, nor what the recorder remembers.

Every operation records before it edits, and a recording that failed would prevent the
edit.  In a text that a signed word can count, with the cursor in it, recording fails in
one case only: the end of an insertion is no machine word.  Then the edit fails too, if a
log that is switched off lets it come to that, and in the same way.
-/
import EditHistory.Proofs.Document.Alike
import EditHistory.Proofs.Document.Deeds

namespace EditHistory

variable {s t : Editing Document}

namespace Editing

/-- All that shows of a document and its markers. -/
def apparent (s : Editing Document) : MarkerTable × Document := (s.markers, { s.doc with log := {} })

/-- The two are one moment but for the recorder and the log, and the cursor is in the text. -/
inductive LooksLike : Editing Document → Editing Document → Prop
  | intro (s : Editing Document) (r r' : Recording) (hpoint : s.doc.point ≤ s.doc.text.length) :
    LooksLike (s.recorded r) (s.recorded r')

/-- What looks the same is the same but for the recording. -/
theorem looksLike_iff :
    LooksLike s t ↔ s.apparent = t.apparent ∧ s.doc.point ≤ s.doc.text.length := by
  constructor
  · rintro ⟨s, r, r', hpoint⟩
    exact ⟨rfl, hpoint⟩
  · rintro ⟨h, hpoint⟩
    obtain ⟨hmarkers, hdoc⟩ := Prod.mk.inj h
    have ht : t = s.recorded t.recording := by
      obtain ⟨recorder, markers, doc⟩ := t
      obtain ⟨id, text, point, ticks, modtime, spans, log⟩ := doc
      simp only [Document.mk.injEq] at hdoc
      obtain ⟨rfl, rfl, rfl, rfl, rfl, rfl, -⟩ := hdoc
      subst hmarkers
      rfl
    rw [ht]
    exact .intro s s.recording t.recording hpoint

theorem LooksLike.of_apparent {s' t' : Editing Document} (h : LooksLike s t)
    (hs : s'.apparent = s.apparent) (ht : t'.apparent = t.apparent) : LooksLike s' t' := by
  obtain ⟨hsame, hpoint⟩ := looksLike_iff.mp h
  have htext : s'.doc.text = s.doc.text := congrArg (·.2.text) hs
  have hcursor : s'.doc.point = s.doc.point := congrArg (·.2.point) hs
  refine looksLike_iff.mpr ⟨hs.trans (hsame.trans ht.symm), ?_⟩
  rw [htext, hcursor]
  exact hpoint

end Editing

open Editing (LooksLike)

/-! ### Recording calls that do not fail -/

namespace Recording

variable {v : View}

/-- The call is accepted whatever was recorded before. -/
def Accepted (call : RecordM Unit) : Prop := ∀ r, ∃ r', call r = .ok () r'

/-- Into a log that is switched off everything can be recorded. -/
theorem accepted_whenEnabled {call : RecordM Unit}
    (h : ∀ r, r.log.disabled = false → ∃ r', whenEnabled call r = .ok () r') :
    Accepted (whenEnabled call) := by
  intro r
  by_cases hon : r.log.disabled = false
  · exact h r hon
  · exact ⟨r, whenEnabled_off (by simpa using hon)⟩

theorem accepted_recordInsert {start length : Nat} (h : Offset.Fits (start + length)) :
    Accepted (recordInsert start length v) := by
  refine accepted_whenEnabled ?_
  intro r hon
  exact ⟨_, (recordInsert_eq start length v hon).trans (if_pos h)⟩

theorem accepted_recordDelete {start : Nat} {text : Text} (withMarkers : Bool)
    (h : start + text.length < 0x8000000000000000) :
    Accepted (recordDelete start text withMarkers v) := by
  refine accepted_whenEnabled ?_
  intro r hon
  exact ⟨_, recordDelete_eq start text withMarkers v hon h⟩

theorem accepted_recordChange {start length : Nat} {old : Text}
    (hstop : start + length < 0x8000000000000000)
    (hread : v.read start (start + length) = .ok old) (hlength : old.length = length) :
    Accepted (recordChange start length v) := by
  refine accepted_whenEnabled ?_
  intro r hon
  exact ⟨_, recordChange_eq hon hstop hread hlength⟩

theorem accepted_recordPropertyChange {start length : Nat} {name : String} {old : Json}
    (h : Offset.Fits (start + length)) :
    Accepted (recordPropertyChange start length name old v) := by
  refine accepted_whenEnabled ?_
  intro r hon
  exact ⟨_, (recordPropertyChange_eq start length name old v hon).trans (if_pos h)⟩

end Recording

/-! ### Edits under two recordings -/

namespace EditM

variable {act : EditM Document Unit} {change : Editing Document → Except Failure (Editing Document)}

/-- The recording succeeds at this moment, whatever was recorded before. -/
def Records (act : EditM Document Unit) (s : Editing Document) : Prop :=
  ∀ r, ∃ r', act (s.recorded r) = .ok () (s.recorded r')

theorem records_record {call : View → RecordM Unit} (h : Recording.Accepted (call s.view)) :
    Records (record call) s := by
  intro r
  obtain ⟨r', hr'⟩ := h r
  exact ⟨r', record_eq (s := s.recorded r) hr'⟩

theorem Records.mapFailure (f : Failure → Failure) (h : Records act s) :
    Records (mapFailure f act) s := by
  intro r
  obtain ⟨r', hr'⟩ := h r
  refine ⟨r', ?_⟩
  unfold EditM.mapFailure
  rw [hr']

theorem Records.forM {α : Type} {f : α → EditM Document Unit} {l : List α}
    (h : ∀ a ∈ l, Records (f a) s) : Records (l.forM f) s := by
  induction l with
  | nil => exact fun r => ⟨r, rfl⟩
  | cons a rest ih =>
      intro r
      obtain ⟨r₁, h₁⟩ := h a List.mem_cons_self r
      obtain ⟨r₂, h₂⟩ := ih (fun a ha => h a (List.mem_cons_of_mem _ ha)) r₁
      exact ⟨r₂, (bind_ok h₁).trans h₂⟩

/-- A change that does not look at the recording, after a recording that succeeds. -/
theorem Records.apply (hact : Records act s) (hpoint : s.doc.point ≤ s.doc.text.length)
    (hchange : ∀ r, change (s.recorded r) = (change s).map (·.recorded r))
    (hcursor : ∀ u, change s = .ok u → u.doc.point ≤ u.doc.text.length) (r r' : Recording) :
    Alike LooksLike ((do act; apply change : EditM Document Unit) (s.recorded r))
      ((do act; apply change : EditM Document Unit) (s.recorded r')) := by
  obtain ⟨q, hq⟩ := hact r
  obtain ⟨q', hq'⟩ := hact r'
  rw [bind_ok hq, bind_ok hq']
  unfold EditM.apply
  rw [hchange, hchange]
  cases hrun : change s with
  | ok u => exact .ok _ (.intro u q q' (hcursor u hrun))
  | error e => exact .error e (.intro s q q' hpoint)

end EditM

namespace Document

theorem alike_insert (added : Text) (h : LooksLike s t) :
    Alike LooksLike (insert added s) (insert added t) := by
  obtain ⟨s, r, r', hpoint⟩ := h
  by_cases hne : added = []
  · subst hne
    exact .ok () (.intro s r r' hpoint)
  by_cases hfits : Offset.Fits (s.doc.point + added.length)
  · rw [insert_run hne, insert_run hne]
    refine (EditM.records_record (Recording.accepted_recordInsert hfits)).apply hpoint
      (insertText_recorded s.doc.point added s) ?_ r r'
    intro u hu
    rw [insertText_eq hpoint] at hu
    rw [eq_of_checked hu]
    exact Editing.point_le_withInsertion hpoint
  · -- The cursor has no place to go, so if recording lets it come to that, the edit fails.
    have hfails : ∀ r, ∃ q, insert added (s.recorded r) = .error (.fault .overflow) (s.recorded q) := by
      intro r
      rw [insert_run hne]
      by_cases hon : r.log.disabled = false
      · exact ⟨r, EditM.bind_error (EditM.record_fault (s := s.recorded r)
          ((Recording.recordInsert_eq _ _ _ hon).trans (if_neg hfits)))⟩
      · have hrecord : EditM.record (Recording.recordInsert s.doc.point added.length)
            (s.recorded r) = .ok () (s.recorded r) :=
          EditM.record_eq (s := s.recorded r) (Recording.whenEnabled_off (by simpa using hon))
        refine ⟨r, (EditM.bind_ok hrecord).trans (EditM.apply_error ?_)⟩
        exact (insertText_eq (s := s.recorded r) hpoint).trans
          (checked_overflow fun hrange => hfits hrange.1)
    obtain ⟨q, hq⟩ := hfails r
    obtain ⟨q', hq'⟩ := hfails r'
    rw [hq, hq']
    exact .error _ (.intro s q q' hpoint)

theorem alike_deleteRange (start stop : Nat) (h : LooksLike s t) (hshort : s.doc.text.Short) :
    Alike LooksLike (deleteRange start stop s) (deleteRange start stop t) := by
  obtain ⟨s, r, r', hpoint⟩ := h
  have hlength : s.doc.text.length < 0x8000000000000000 := hshort
  by_cases hin : start ≤ stop ∧ stop ≤ s.doc.text.length
  · obtain ⟨hspan, hstop⟩ := hin
    by_cases hlt : start < stop
    · have hbetween := length_between hspan hstop
      have haccepted : Recording.Accepted (Recording.recordDelete start
          (s.doc.text.between start stop) true s.view) :=
        Recording.accepted_recordDelete true (by omega)
      rw [deleteRange_run (s := s.recorded r) hlt hstop,
        deleteRange_run (s := s.recorded r') hlt hstop]
      refine (EditM.records_record haccepted).apply hpoint (removeText_recorded start stop s) ?_ r r'
      intro u hu
      rw [removeText_eq hspan hstop] at hu
      rw [eq_of_checked hu]
      exact Editing.point_le_withoutSpan hspan hstop hpoint
    · obtain rfl : start = stop := by omega
      rw [deleteRange_empty (s := s.recorded r) hstop, deleteRange_empty (s := s.recorded r') hstop]
      exact .ok () (.intro s r r' hpoint)
  · have hrefused : ∀ r, deleteRange start stop (s.recorded r) = .error (.error
        (.deleting start stop (.spanOutside start stop s.doc.text.length))) (s.recorded r) := by
      intro r
      have hslice : s.doc.text.slice start stop
          = .error (.spanOutside start stop s.doc.text.length) := by
        simp only [Text.slice, Text.checkSpan, if_neg hin]
        rfl
      have htext : (s.recorded r).doc.text = s.doc.text := rfl
      simp only [deleteRange, get_bind, htext, hslice]
      rfl
    rw [hrefused, hrefused]
    exact .error _ (.intro s r r' hpoint)

theorem alike_replaceRange (start : Nat) (new : Text) (h : LooksLike s t)
    (hshort : s.doc.text.Short) :
    Alike LooksLike (replaceRange start new s) (replaceRange start new t) := by
  obtain ⟨s, r, r', hpoint⟩ := h
  have hlength : s.doc.text.length < 0x8000000000000000 := hshort
  by_cases hfits : Offset.Fits (start + new.length)
  · by_cases hstop : start + new.length ≤ s.doc.text.length
    · have hread : s.view.read start (start + new.length)
          = .ok (s.doc.text.between start (start + new.length)) :=
        slice_eq (Nat.le_add_right start new.length) hstop
      have hbetween := length_between (Nat.le_add_right start new.length) hstop
      have haccepted := Recording.accepted_recordChange (v := s.view) (by omega) hread (by omega)
      rw [replaceRange_run (s := s.recorded r) hfits hstop,
        replaceRange_run (s := s.recorded r') hfits hstop]
      refine ((EditM.records_record haccepted).mapFailure whileReplacing).apply hpoint
        (overwriteText_recorded start new s) ?_ r r'
      intro u hu
      rw [overwriteText_eq hfits hstop] at hu
      rw [eq_of_checked hu, Editing.length_withOverwritten hstop]
      exact hpoint
    · have hrefused : ∀ r, replaceRange start new (s.recorded r) = .error (.error
          (.replacementOutside start (start + new.length) s.doc.text.length)) (s.recorded r) := by
        intro r
        unfold replaceRange EditM.require
        simp [hfits, Nat.not_le.mp hstop]
      rw [hrefused, hrefused]
      exact .error _ (.intro s r r' hpoint)
  · rw [replaceRange_unfit hfits, replaceRange_unfit hfits]
    exact .error _ (.intro s r r' hpoint)

theorem alike_putProperty (start stop : Nat) (name : String) (value : Json) (h : LooksLike s t)
    (hshort : s.doc.text.Short) :
    Alike LooksLike (putProperty start stop name value s) (putProperty start stop name value t) := by
  obtain ⟨s, r, r', hpoint⟩ := h
  have hlength : s.doc.text.length < 0x8000000000000000 := hshort
  by_cases hin : stop < start ∨ s.doc.text.length < stop
  · have hrefused : ∀ r, putProperty start stop name value (s.recorded r) = .error (.error
        (.propertyOutside start stop s.doc.text.length)) (s.recorded r) := by
      intro r
      unfold putProperty
      simp [hin]
    rw [hrefused, hrefused]
    exact .error _ (.intro s r r' hpoint)
  by_cases hruns : s.doc.changedRuns start stop name value = []
  · rw [putProperty_same (s := s.recorded r) hin hruns,
      putProperty_same (s := s.recorded r') hin hruns]
    exact .ok () (.intro s r r' hpoint)
  · have hrecords : EditM.Records
        ((s.doc.changedRuns start stop name value).forM (recordRun name)) s := by
      refine EditM.Records.forM ?_
      intro run hrun
      obtain ⟨-, hlt, hle⟩ := runWithin_changedRuns s.doc (by omega) name value run hrun
      refine EditM.records_record (Recording.accepted_recordPropertyChange ?_)
      unfold Offset.Fits
      omega
    rw [putProperty_run (s := s.recorded r) hin hruns,
      putProperty_run (s := s.recorded r') hin hruns]
    refine hrecords.apply hpoint (withSpan_recorded { start, stop, name, value } s) ?_ r r'
    intro u hu
    rw [eq_of_checked hu]
    exact hpoint

end Document

end EditHistory
