/-
What a call leaves behind.

`Call.after` is the moment a call leads to.  It is total: a call that is refused, or
has nothing to do, leads back to where it started, and one that overflows leads
nowhere, which is what `Leads` excludes.  `after_of_leads` says so of every call.

`Sound` is the invariant of a document under its own calls: the log is on, the
cursor is in the text, and every property span covers something of it.
-/
import EditHistory.Proofs.Document.Calls

namespace EditHistory

/-- A text that a signed word can count. -/
def Text.Short (text : Text) : Prop := text.length < 0x8000000000000000

instance (text : Text) : Decidable text.Short := inferInstanceAs (Decidable (_ < _))

namespace Offset

theorem afterInsert_le {start length len pos : Nat} {advances : Bool} (h : pos ≤ len) :
    afterInsert start length advances pos ≤ len + length := by
  unfold afterInsert
  split <;> omega

theorem afterDelete_le {start stop len pos : Nat} (hspan : start ≤ stop) (hstop : stop ≤ len)
    (h : pos ≤ len) : afterDelete start stop pos ≤ len - (stop - start) := by
  unfold afterDelete
  split
  · omega
  · split <;> omega

end Offset

namespace Editing

/-- What holds of a document under its own calls while its log is on. -/
structure Sound (s : Editing Document) : Prop where
  enabled : s.doc.log.disabled = false
  point_le : s.doc.point ≤ s.doc.text.length
  spans : ∀ span ∈ s.doc.spans, span.start < span.stop ∧ span.stop ≤ s.doc.text.length

/-- After a property was put; nothing happens if the range is refused or nothing changes. -/
def afterProperty (start stop : Nat) (name : String) (value : Json) (s : Editing Document) :
    Editing Document :=
  if start ≤ stop ∧ stop ≤ s.doc.text.length ∧ s.doc.changedRuns start stop name value ≠ [] then
    s.putting { start, stop, name, value } (s.doc.changedRuns start stop name value)
  else s

/-- After the displacement of a marker was taken back. -/
def afterRestore (id : MarkerId) (delta : Int) (s : Editing Document) : Editing Document :=
  match (s.markers.get? id).filter (·.isLive) with
  | none => s
  | some m =>
    { s with
      markers := s.markers.modify id
        ({ · with position := (Offset.toSigned m.position - delta).toNat }) }

end Editing

namespace Call

variable {c : Call} {s s' t : Editing Document}

/-- The call changes text, as far as it does anything. -/
def isEdit : Call → Bool
  | .insert _ | .deleteRange .. | .replaceRange .. => true
  | _ => false

/-- The moment after a call. -/
def after : Call → Editing Document → Editing Document
  | .setPoint pos, s => { s with doc := s.doc.setPoint pos }
  | .insert added, s => if added = [] then s else s.inserting added
  | .deleteRange start stop, s =>
    if start < stop ∧ stop ≤ s.doc.text.length then s.deleting start stop else s
  | .replaceRange start new, s =>
    if start + new.length ≤ s.doc.text.length then s.replacing start new else s
  | .putProperty start stop name value, s => s.afterProperty start stop name value
  | .markSaved modtime, s => { s with doc := s.doc.markSaved modtime }
  | .markUnmodified, s => { s with doc := s.doc.markUnmodified }
  | .makeMarker pos advances, s => { s with markers := s.markers.push (s.doc.marker pos advances) }
  | .dropMarker id, s =>
    if s.markers.owns s.doc.id id then { s with markers := s.markers.detach id } else s
  | .boundary, s => s.closing
  | .restoreMarker id delta, s => s.afterRestore id delta
  | .restoreProperty change, s =>
    if change.doc = s.doc.id then
      s.afterProperty change.start change.stop change.name change.old
    else s
  | .revisit modtime, s =>
    { s with doc := if modtime = s.doc.modtime then s.doc.markUnmodified else s.doc }

/-- The call ends at `s'`, whether it succeeds or is refused. -/
def Leads (c : Call) (s s' : Editing Document) : Prop :=
  c.run s = .ok () s' ∨ ∃ e, c.run s = .error (.error e) s'

theorem Leads.eq_of_ok (h : c.Leads s s') (hrun : c.run s = .ok () t) : s' = t := by
  rcases h with h | ⟨e, h⟩
  · rw [h] at hrun
    exact (EStateM.Result.ok.inj hrun).2
  · rw [h] at hrun
    cases hrun

theorem Leads.eq_of_refused (h : c.Leads s s') {e : EditError}
    (hrun : c.run s = .error (.error e) t) : s' = t := by
  rcases h with h | ⟨e', h⟩
  · rw [h] at hrun
    cases hrun
  · rw [h] at hrun
    exact (EStateM.Result.error.inj hrun).2

theorem Leads.not_fault (h : c.Leads s s') {f : Fault} : c.run s ≠ .error (.fault f) t := by
  intro hrun
  rcases h with h | ⟨e, h⟩
  · rw [h] at hrun
    cases hrun
  · rw [h] at hrun
    cases hrun

/-! ### A call that ends, ends at `after` -/

theorem after_insert (hs : s.Sound) {added : Text} (h : (Call.insert added).Leads s s') :
    s' = if added = [] then s else s.inserting added := by
  by_cases hne : added = []
  · subst hne
    rw [if_pos rfl]
    exact h.eq_of_ok (Document.insert_nil s)
  · rw [if_neg hne]
    by_cases hrange : Document.InRange (s.inserting added)
    · exact h.eq_of_ok (Document.insert_ok hs.enabled hne hs.point_le hrange)
    · obtain ⟨t, ht⟩ := Document.insert_overflow hs.enabled hne hs.point_le hrange
      exact absurd ht h.not_fault

theorem after_deleteRange (hs : s.Sound) (hshort : s.doc.text.Short) {start stop : Nat}
    (h : (Call.deleteRange start stop).Leads s s') :
    s' = if start < stop ∧ stop ≤ s.doc.text.length then s.deleting start stop else s := by
  by_cases hspan : start < stop ∧ stop ≤ s.doc.text.length
  · rw [if_pos hspan]
    by_cases hrange : Document.InRange (s.deleting start stop)
    · exact h.eq_of_ok (Document.deleteRange_ok hs.enabled hspan.1 hspan.2 hshort hrange)
    · obtain ⟨t, ht⟩ := Document.deleteRange_overflow hs.enabled hspan.1 hspan.2 hshort hrange
      exact absurd ht h.not_fault
  · rw [if_neg hspan]
    by_cases hempty : start = stop ∧ stop ≤ s.doc.text.length
    · obtain ⟨rfl, hstop⟩ := hempty
      exact h.eq_of_ok (Document.deleteRange_empty hstop)
    · obtain ⟨e, he⟩ : ∃ e, Document.deleteRange start stop s = .error (.error e) s :=
        Document.deleteRange_outside (by omega)
      exact h.eq_of_refused he

theorem after_replaceRange (hs : s.Sound) (hshort : s.doc.text.Short) {start : Nat} {new : Text}
    (h : (Call.replaceRange start new).Leads s s') :
    s' = if start + new.length ≤ s.doc.text.length then s.replacing start new else s := by
  by_cases hstop : start + new.length ≤ s.doc.text.length
  · rw [if_pos hstop]
    by_cases hrange : Document.InRange (s.replacing start new)
    · exact h.eq_of_ok (Document.replaceRange_ok hs.enabled hstop hshort hrange)
    · obtain ⟨t, ht⟩ := Document.replaceRange_overflow hs.enabled hstop hshort hrange
      exact absurd ht h.not_fault
  · rw [if_neg hstop]
    by_cases hfits : Offset.Fits (start + new.length)
    · obtain ⟨e, he⟩ := Document.replaceRange_outside hfits (Nat.not_le.mp hstop)
      exact h.eq_of_refused he
    · exact absurd (Document.replaceRange_unfit hfits) h.not_fault

theorem after_putProperty (hs : s.Sound) (hshort : s.doc.text.Short) {start stop : Nat}
    {name : String} {value : Json} (h : (Call.putProperty start stop name value).Leads s s') :
    s' = s.afterProperty start stop name value := by
  unfold Editing.afterProperty
  by_cases hin : stop < start ∨ s.doc.text.length < stop
  · rw [if_neg (by omega)]
    obtain ⟨e, he⟩ : ∃ e, Document.putProperty start stop name value s = .error (.error e) s :=
      Document.putProperty_outside hin
    exact h.eq_of_refused he
  · by_cases hruns : s.doc.changedRuns start stop name value = []
    · rw [if_neg (by simp [hruns])]
      exact h.eq_of_ok (Document.putProperty_same hin hruns)
    · rw [if_pos ⟨by omega, by omega, hruns⟩]
      by_cases hrange : Document.InRange
          (s.putting { start, stop, name, value } (s.doc.changedRuns start stop name value))
      · exact h.eq_of_ok (Document.putProperty_ok hs.enabled hin hshort hruns hrange)
      · obtain ⟨t, ht⟩ := Document.putProperty_overflow hs.enabled hin hshort hruns hrange
        exact absurd ht h.not_fault

theorem restoreMarker_ok {id : MarkerId} {delta : Int}
    (h : ∀ m, (s.markers.get? id).filter (·.isLive) = some m →
      Offset.FitsSigned (Offset.toSigned m.position - delta)) :
    (Call.restoreMarker id delta).run s = .ok () (s.afterRestore id delta) := by
  refine EditM.apply_ok ?_
  unfold Document.restoreMarker Editing.afterRestore
  cases hm : (s.markers.get? id).filter (·.isLive) with
  | none => rfl
  | some m => exact if_pos (h m hm)

theorem restoreMarker_overflow {id : MarkerId} {delta : Int} {m : Marker}
    (hm : (s.markers.get? id).filter (·.isLive) = some m)
    (h : ¬Offset.FitsSigned (Offset.toSigned m.position - delta)) :
    (Call.restoreMarker id delta).run s = .error (.fault .overflow) s := by
  refine EditM.apply_error ?_
  unfold Document.restoreMarker
  rw [hm]
  exact if_neg h

theorem after_restoreMarker {id : MarkerId} {delta : Int}
    (h : (Call.restoreMarker id delta).Leads s s') : s' = s.afterRestore id delta := by
  by_cases hfits : ∀ m, (s.markers.get? id).filter (·.isLive) = some m →
      Offset.FitsSigned (Offset.toSigned m.position - delta)
  · exact h.eq_of_ok (restoreMarker_ok hfits)
  · simp only [Classical.not_forall] at hfits
    obtain ⟨m, hm, hfits⟩ := hfits
    exact absurd (restoreMarker_overflow hm hfits) h.not_fault

theorem restoreProperty_own {change : PropertyChange} (h : change.doc = s.doc.id) :
    (Call.restoreProperty change).run s
      = (Call.putProperty change.start change.stop change.name change.old).run s := by
  unfold run
  simp [h]

theorem restoreProperty_foreign {change : PropertyChange} (h : change.doc ≠ s.doc.id) :
    (Call.restoreProperty change).run s
      = .error (.error (.foreignProperty change.doc s.doc.id)) s := by
  unfold run
  simp [h]

/-- A call that ends without a fault ends at `after`. -/
theorem after_of_leads (hs : s.Sound) (hshort : s.doc.text.Short) (h : c.Leads s s') :
    s' = c.after s := by
  cases c with
  | insert added => exact after_insert hs h
  | deleteRange start stop => exact after_deleteRange hs hshort h
  | replaceRange start new => exact after_replaceRange hs hshort h
  | putProperty start stop name value => exact after_putProperty hs hshort h
  | restoreMarker id delta => exact after_restoreMarker h
  | restoreProperty change =>
      simp only [after]
      by_cases hown : change.doc = s.doc.id
      · rw [if_pos hown]
        refine after_putProperty hs hshort ?_
        unfold Leads at h ⊢
        rwa [restoreProperty_own hown] at h
      · rw [if_neg hown]
        exact h.eq_of_refused (restoreProperty_foreign hown)
  | setPoint pos => exact h.eq_of_ok rfl
  | markSaved modtime => exact h.eq_of_ok rfl
  | markUnmodified => exact h.eq_of_ok rfl
  | makeMarker pos advances => exact h.eq_of_ok rfl
  | dropMarker id => exact h.eq_of_ok rfl
  | boundary => exact h.eq_of_ok rfl
  | revisit modtime => exact h.eq_of_ok rfl

end Call

/-! ### The kinds of calls -/

namespace Editing

variable {s s' : Editing Document}

/-- `s'` differs from `s` in the cursor, the ticks, the modification time and the markers only. -/
structure Quiet (s s' : Editing Document) : Prop where
  recorder : s'.recorder = s.recorder
  log : s'.doc.log = s.doc.log
  id : s'.doc.id = s.doc.id
  text : s'.doc.text = s.doc.text
  spans : s'.doc.spans = s.doc.spans
  point_le : s.doc.point ≤ s.doc.text.length → s'.doc.point ≤ s.doc.text.length

theorem Quiet.refl (s : Editing Document) : Quiet s s := ⟨rfl, rfl, rfl, rfl, rfl, fun h => h⟩

/-- What a call can do to a document, its text and its log. -/
inductive Deed (s : Editing Document) : Call → Editing Document → Prop
  | quiet {c : Call} {s' : Editing Document} (hc : c ≠ .boundary) (h : Quiet s s') : Deed s c s'
  | insertion {added : Text} (hne : added ≠ []) : Deed s (.insert added) (s.inserting added)
  | deletion {start stop : Nat} (hspan : start < stop) (hstop : stop ≤ s.doc.text.length) :
      Deed s (.deleteRange start stop) (s.deleting start stop)
  | replacement {start : Nat} {new : Text} (hstop : start + new.length ≤ s.doc.text.length) :
      Deed s (.replaceRange start new) (s.replacing start new)
  | property {c : Call} {span : Span} {runs : List Run} (hc : c.isEdit = false)
      (hstop : span.stop ≤ s.doc.text.length) (hne : runs ≠ [])
      (hruns : ∀ run ∈ runs, Document.RunWithin span.start span.stop run) :
      Deed s c (s.putting span runs)
  | boundary : Deed s .boundary s.closing

theorem deed_afterProperty {c : Call} (hc : c.isEdit = false) (hboundary : c ≠ .boundary)
    (start stop : Nat) (name : String) (value : Json) (s : Editing Document) :
    Deed s c (s.afterProperty start stop name value) := by
  unfold afterProperty
  split
  · rename_i h
    exact Deed.property hc h.2.1 h.2.2 (Document.runWithin_changedRuns s.doc h.1 name value)
  · exact Deed.quiet hboundary (Quiet.refl s)

theorem quiet_afterRestore (id : MarkerId) (delta : Int) (s : Editing Document) :
    Quiet s (s.afterRestore id delta) := by
  unfold afterRestore
  split <;> exact ⟨rfl, rfl, rfl, rfl, rfl, fun h => h⟩

end Editing

open Editing in
/-- Every call is of one of the kinds. -/
theorem Call.deed (c : Call) (s : Editing Document) : Deed s c (c.after s) := by
  cases c with
  | insert added =>
      simp only [after]
      split
      · exact Deed.quiet (by simp) (Quiet.refl s)
      · rename_i hne
        exact Deed.insertion hne
  | deleteRange start stop =>
      simp only [after]
      split
      · rename_i h
        exact Deed.deletion h.1 h.2
      · exact Deed.quiet (by simp) (Quiet.refl s)
  | replaceRange start new =>
      simp only [after]
      split
      · rename_i h
        exact Deed.replacement h
      · exact Deed.quiet (by simp) (Quiet.refl s)
  | putProperty start stop name value => exact deed_afterProperty rfl (by simp) _ _ _ _ s
  | restoreProperty change =>
      simp only [after]
      split
      · exact deed_afterProperty rfl (by simp) _ _ _ _ s
      · exact Deed.quiet (by simp) (Quiet.refl s)
  | boundary => exact Deed.boundary
  | setPoint pos =>
      exact Deed.quiet (by simp) ⟨rfl, rfl, rfl, rfl, rfl, fun _ => Nat.min_le_right _ _⟩
  | markSaved modtime => exact Deed.quiet (by simp) ⟨rfl, rfl, rfl, rfl, rfl, fun h => h⟩
  | markUnmodified => exact Deed.quiet (by simp) ⟨rfl, rfl, rfl, rfl, rfl, fun h => h⟩
  | makeMarker pos advances => exact Deed.quiet (by simp) ⟨rfl, rfl, rfl, rfl, rfl, fun h => h⟩
  | dropMarker id =>
      simp only [after]
      split
      · exact Deed.quiet (by simp) ⟨rfl, rfl, rfl, rfl, rfl, fun h => h⟩
      · exact Deed.quiet (by simp) (Quiet.refl s)
  | restoreMarker id delta => exact Deed.quiet (by simp) (quiet_afterRestore id delta s)
  | revisit modtime =>
      simp only [after]
      split <;> exact Deed.quiet (by simp) ⟨rfl, rfl, rfl, rfl, rfl, fun h => h⟩

/-! ### What the edits leave alone -/

namespace Editing

variable {c : Call} {s s' : Editing Document} {start stop : Nat} {added new : Text}

theorem keeps_inserting (added : Text) (s : Editing Document) :
    Recording.Keeps s.recording (s.inserting added).recording := by
  rcases Recording.adds_or_lengthens_afterInsert s.view s.doc.point added.length s.recording with
    h | ⟨_, _, -, -, h⟩
  · exact h.keeps
  · exact h

theorem keeps_deleting (start stop : Nat) (s : Editing Document) :
    Recording.Keeps s.recording (s.deleting start stop).recording :=
  (Recording.adds_afterDelete s.view start (s.doc.text.between start stop) true s.recording).keeps

theorem keeps_replacing (start : Nat) (new : Text) (s : Editing Document) :
    Recording.Keeps s.recording (s.replacing start new).recording :=
  (Recording.adds_afterChange s.view start (s.doc.text.between start (start + new.length))
    s.recording).keeps

theorem keeps_putting (span : Span) {runs : List Run} (hne : runs ≠ []) (s : Editing Document) :
    Recording.Keeps s.recording (s.putting span runs).recording :=
  (Recording.adds_recordedRuns s.view span.name runs s.recording hne).keeps

theorem entries_closing (hon : s.doc.log.disabled = false) :
    s.closing.doc.log.entries = Recording.closing s.recording ++ s.doc.log.entries :=
  Recording.entries_endUnit s.view hon

/-- Closing makes no unit. -/
theorem units_closing (hon : s.doc.log.disabled = false) :
    s.closing.doc.log.units = s.doc.log.units := by
  unfold Log.units
  rw [entries_closing hon]
  unfold Recording.closing
  split <;> rfl

/-- The log of a document stays switched on. -/
theorem Deed.disabled (h : Deed s c s') : s'.doc.log.disabled = s.doc.log.disabled := by
  cases h with
  | quiet _ h => rw [h.log]
  | insertion _ => exact (keeps_inserting _ s).disabled
  | deletion _ _ => exact (keeps_deleting _ _ s).disabled
  | replacement _ => exact (keeps_replacing _ _ s).disabled
  | property _ _ hne _ => exact (keeps_putting _ hne s).disabled
  | boundary => exact Recording.disabled_endUnit s.view s.recording

theorem Deed.id (h : Deed s c s') : s'.doc.id = s.doc.id := by
  cases h with
  | quiet _ h => exact h.id
  | _ => rfl

/-- Text put in behind the cursor's place leaves the cursor in the text. -/
theorem point_le_withInsertion (h : s.doc.point ≤ s.doc.text.length) :
    (s.withInsertion s.doc.point added).doc.point
      ≤ (s.withInsertion s.doc.point added).doc.text.length := by
  show s.doc.point + added.length ≤ (s.doc.text.spliced s.doc.point added).length
  rw [Text.length_spliced h]
  exact Nat.add_le_add_right h _

theorem point_le_withoutSpan (hspan : start ≤ stop) (hstop : stop ≤ s.doc.text.length)
    (h : s.doc.point ≤ s.doc.text.length) :
    (s.withoutSpan start stop).doc.point ≤ (s.withoutSpan start stop).doc.text.length := by
  show Offset.afterDelete start stop s.doc.point ≤ (s.doc.text.without start stop).length
  rw [Text.length_without hspan hstop]
  exact Offset.afterDelete_le hspan hstop h

theorem length_withOverwritten (hstop : start + new.length ≤ s.doc.text.length) :
    (s.withOverwritten start new).doc.text.length = s.doc.text.length := by
  show ((s.doc.text.without start (start + new.length)).spliced start new).length = _
  have hwithout := Text.length_without (Nat.le_add_right start new.length) hstop
  rw [Text.length_spliced (by omega), hwithout]
  omega

theorem length_replacing (hstop : start + new.length ≤ s.doc.text.length) :
    (s.replacing start new).doc.text.length = s.doc.text.length :=
  length_withOverwritten (s := s.recorded _) hstop

/-- A call leaves the cursor in the text. -/
theorem Deed.point_le (h : Deed s c s') (hpoint : s.doc.point ≤ s.doc.text.length) :
    s'.doc.point ≤ s'.doc.text.length := by
  cases h with
  | quiet _ h =>
      rw [h.text]
      exact h.point_le hpoint
  | insertion _ => exact point_le_withInsertion (s := s.recorded _) hpoint
  | deletion hspan hstop =>
      exact point_le_withoutSpan (s := s.recorded _) (Nat.le_of_lt hspan) hstop hpoint
  | replacement hstop =>
      rw [length_replacing hstop]
      exact hpoint
  | property _ _ _ _ => exact hpoint
  | boundary => exact hpoint

/-- A call leaves every property span over something of the text. -/
theorem Deed.spans (h : Deed s c s') (hpoint : s.doc.point ≤ s.doc.text.length)
    (hspans : ∀ span ∈ s.doc.spans, span.start < span.stop ∧ span.stop ≤ s.doc.text.length) :
    ∀ span ∈ s'.doc.spans, span.start < span.stop ∧ span.stop ≤ s'.doc.text.length := by
  cases h with
  | quiet _ h =>
      rw [h.text, h.spans]
      exact hspans
  | @insertion added _ =>
      intro span hspan
      obtain ⟨old, hold, rfl⟩ := List.mem_map.mp hspan
      obtain ⟨hlt, hle⟩ := hspans old hold
      show Offset.afterInsert s.doc.point added.length true old.start
          < Offset.afterInsert s.doc.point added.length false old.stop ∧
        Offset.afterInsert s.doc.point added.length false old.stop
          ≤ (s.doc.text.spliced s.doc.point added).length
      rw [Text.length_spliced hpoint]
      refine ⟨?_, Offset.afterInsert_le hle⟩
      unfold Offset.afterInsert
      split <;> split <;> simp_all <;> omega
  | @deletion start stop hspan hstop =>
      intro span hmem
      obtain ⟨hmem, hlt⟩ := List.mem_filter.mp hmem
      obtain ⟨old, hold, rfl⟩ := List.mem_map.mp hmem
      obtain ⟨-, hle⟩ := hspans old hold
      refine ⟨by simpa using hlt, ?_⟩
      show Offset.afterDelete start stop old.stop ≤ (s.doc.text.without start stop).length
      rw [Text.length_without (Nat.le_of_lt hspan) hstop]
      exact Offset.afterDelete_le (Nat.le_of_lt hspan) hstop hle
  | replacement hstop =>
      rw [length_replacing hstop]
      exact hspans
  | @property _ span runs _ hstop hne hruns =>
      intro span' hspan'
      rcases List.mem_cons.mp hspan' with rfl | hold
      · obtain ⟨run, hrun⟩ := List.exists_mem_of_ne_nil runs hne
        obtain ⟨h₁, h₂, h₃⟩ := hruns run hrun
        exact ⟨by omega, hstop⟩
      · exact hspans span' hold
  | boundary => exact hspans

/-- What is sound stays sound. -/
theorem Sound.deed (hs : s.Sound) (h : Deed s c s') : s'.Sound where
  enabled := h.disabled.trans hs.enabled
  point_le := h.point_le hs.point_le
  spans := h.spans hs.point_le hs.spans

end Editing

end EditHistory
