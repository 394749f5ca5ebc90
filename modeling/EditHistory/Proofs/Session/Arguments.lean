/-
Which arguments a document and a text answer to.

An edit is given offsets that may be any word, and a text.  What it is asked to do out of
range it refuses, and everything else it does; a sum that no word can hold would be a
fault.  Bounds are checked before anything is added up, with one exception: the end of a
replacement is computed before it is compared with the end of the text, so a replacement
far enough out of range is a fault and not refused.

The sums that are left are of places in the text, and of markers.  A marker need not stand
in the text: an undo may put it back from where other undos have taken it, and so beyond
the end.  But it puts it at a signed offset, and from there on edits push the marker no
further than they lengthen the text.  Half of all words and the text is the bound,
`Roomy`, and an edit of a text that is short enough stays below the largest word.
-/
import EditHistory.Proofs.Session.Shifts

namespace EditHistory

variable {id : DocId} {s s' : Editing Document} {c : Call}

/-! ### Places in a text -/

/--
The cursor and the properties are in the text of the document `id`, and its markers are not
further beyond its end than half of all words.
-/
structure Editing.Roomy (id : DocId) (s : Editing Document) : Prop where
  named : s.doc.id = id
  point_le : s.doc.point ≤ s.doc.text.length
  spans : ∀ span ∈ s.doc.spans, span.start < span.stop ∧ span.stop ≤ s.doc.text.length
  markers : ∀ p ∈ s.markers.positions id, p < 0x8000000000000000 + s.doc.text.length

theorem Editing.roomy_ofText (recorder : Recorder) (id : DocId) (text : Text) :
    Roomy id { recorder, markers := {}, doc := .ofText id text } :=
  ⟨rfl, Nat.zero_le _, nofun, nofun⟩

/-- A call keeps the bound, if a marker that it restores goes to a signed offset. -/
theorem Call.markers_after (h : s.Roomy id)
    (hfits : ∀ marker delta, c = .restoreMarker marker delta →
      ∀ m, (s.markers.get? marker).filter (·.isLive) = some m →
        Offset.FitsSigned (Offset.toSigned m.position - delta)) :
    ∀ p ∈ (c.after s).markers.positions id,
      p < 0x8000000000000000 + (c.after s).doc.text.length := by
  obtain rfl := h.named
  intro p hp
  cases hc : c.movesByHand with
  | true =>
      cases c with
      | restoreMarker marker delta =>
          have htext : ((Call.restoreMarker marker delta).after s).doc.text = s.doc.text :=
            (Editing.quiet_afterRestore marker delta s).text
          rw [htext]
          rcases Editing.nearby_afterRestore (hfits marker delta rfl) p hp with hp | hp
          · exact h.markers p hp
          · omega
      | _ => cases hc
  | false =>
      obtain ⟨f, hf⟩ := c.shifted_after hc h.point_le
      have hle : ∀ p ∈ s.markers.positions s.doc.id,
          p ≤ s.doc.text.length + 0x7fffffffffffffff := by
        intro p hp
        have hlt := h.markers p hp
        omega
      have hle' := hf.positions_le _ hle p hp
      omega

namespace Editing.Roomy

theorem after (h : s.Roomy id)
    (hfits : ∀ marker delta, c = .restoreMarker marker delta →
      ∀ m, (s.markers.get? marker).filter (·.isLive) = some m →
        Offset.FitsSigned (Offset.toSigned m.position - delta)) : (c.after s).Roomy id where
  named := (c.deed s).id.trans h.named
  point_le := (c.deed s).point_le h.point_le
  spans := (c.deed s).spans h.point_le h.spans
  markers := Call.markers_after h hfits

theorem call (h : s.Roomy id) (hleads : c.Leads s s') : s'.Roomy id := by
  have hafter : (c.after s).Roomy id := h.after fun marker delta hc => by
    subst hc
    exact hleads.fits_restored
  rw [hleads.eq_outcome h.point_le]
  exact ⟨by simpa using hafter.named, by simpa using hafter.point_le, by simpa using hafter.spans,
    by simpa using hafter.markers⟩

theorem turn {command : Command} (h : s.Roomy id) (hturn : Turn id command s s')
    (hmarkers : command.movesByHand = false) : s'.Roomy id := by
  have htext : s'.doc.text = s.doc.text := by rw [hturn.doc]
  refine ⟨by rw [hturn.doc]; exact h.named, by rw [hturn.doc]; exact h.point_le,
    by rw [hturn.doc]; exact h.spans, fun p hp => ?_⟩
  rw [htext]
  rcases hturn.markers hmarkers p hp with hp | hp
  · exact h.markers p hp
  · omega

/-- In a short text all places, and those of the markers, are words. -/
theorem inRange (h : s.Roomy id) (hshort : s.doc.text.Short)
    (htick : Offset.Fits s.doc.ticks.modified) : Document.InRange s := by
  unfold Text.Short at hshort
  have hpoint := h.point_le
  refine ⟨?_, htick, fun m hm => ?_, fun span hspan => ?_⟩
  · unfold Offset.Fits
    omega
  · have hlt := h.markers _ (h.named ▸ MarkerTable.position_mem hm)
    unfold Offset.Fits
    omega
  · obtain ⟨hlt, hle⟩ := h.spans span hspan
    unfold Offset.Fits
    omega

end Editing.Roomy

/-! ### Edits that succeed -/

theorem EditM.Records.succeeds {act : EditM Document Unit}
    {change : Editing Document → Except Failure (Editing Document)} (hact : EditM.Records act s)
    (edit : Editing Document → Editing Document)
    (hchange : ∀ r, change (s.recorded r) = Document.checked (edit (s.recorded r)))
    (hrange : ∀ r, Document.InRange (edit (s.recorded r))) :
    ∃ s', (do act; EditM.apply change : EditM Document Unit) s = .ok () s' := by
  obtain ⟨r, hr⟩ := hact s.recording
  have hrun : act s = .ok () (s.recorded r) := hr
  exact ⟨_, (bind_ok hrun).trans
    (apply_ok ((hchange r).trans (Document.checked_ok (hrange r))))⟩

namespace Call

/-- What a call is given besides the document: offsets that are words, and short texts. -/
def TakesWords : Call → Prop
  | .setPoint pos | .makeMarker pos _ => Offset.Fits pos
  | .insert added => added.length < 0x4000000000000000
  | .deleteRange start stop | .putProperty start stop .. => Offset.Fits start ∧ Offset.Fits stop
  | .replaceRange start new => Offset.Fits start ∧ new.length < 0x4000000000000000
  | _ => False

/-- The stretch that the call asks for, if it asks for one. -/
def stretch? : Call → Option (Nat × Nat)
  | .deleteRange start stop | .putProperty start stop .. => some (start, stop)
  | .replaceRange start new => some (start, start + new.length)
  | _ => none

/-- The call asks for no stretch that is not in the text. -/
def Within (text : Text) (c : Call) : Prop :=
  ∀ start stop, c.stretch? = some (start, stop) → start ≤ stop ∧ stop ≤ text.length

/-- The call asks for a stretch whose end is no word. -/
def Overflows : Call → Prop
  | .replaceRange start new => ¬Offset.Fits (start + new.length)
  | _ => False

instance (c : Call) : Decidable c.Overflows :=
  match c with
  | .replaceRange start new => inferInstanceAs (Decidable (¬Offset.Fits (start + new.length)))
  | .setPoint _ | .insert _ | .deleteRange .. | .putProperty .. | .markSaved _ | .markUnmodified
  | .makeMarker .. | .dropMarker _ | .boundary | .restoreMarker .. | .restoreProperty _
  | .revisit _ => inferInstanceAs (Decidable False)

variable {start stop : Nat} {name : String} {value : Json} {added new : Text}

section Succeeds

variable (h : s.Roomy id) (htext : s.doc.text.length < 0x4000000000000000)
  (htick : s.doc.ticks.modified < 0xffffffffffffffff)

include h htext htick

theorem insert_succeeds (hadded : added.length < 0x4000000000000000) :
    ∃ s', Document.insert added s = .ok () s' := by
  by_cases hne : added = []
  · rw [hne]
    exact ⟨s, Document.insert_nil s⟩
  · have hpoint := h.point_le
    have hlength : (s.inserting added).doc.text.length = s.doc.text.length + added.length :=
      Text.length_spliced hpoint
    have hafter : (s.inserting added).Roomy id := by
      have hroomy := h.after (c := .insert added) fun _ _ => nofun
      rwa [after, if_neg hne] at hroomy
    have hrange : Document.InRange (s.inserting added) :=
      hafter.inRange (by unfold Text.Short; omega) (Nat.succ_lt_succ htick)
    have hfits : Offset.Fits (s.doc.point + added.length) := hrange.1
    rw [Document.insert_run hne]
    exact (EditM.records_record (Recording.accepted_recordInsert hfits)).succeeds
      (·.withInsertion s.doc.point added)
      (fun r => Document.insertText_eq (s := s.recorded r) hpoint) fun _ => hrange

theorem deleteRange_succeeds (hspan : start ≤ stop) (hstop : stop ≤ s.doc.text.length) :
    ∃ s', Document.deleteRange start stop s = .ok () s' := by
  by_cases hlt : start < stop
  · have hlength : (s.deleting start stop).doc.text.length = s.doc.text.length - (stop - start) :=
      Text.length_without hspan hstop
    have hafter : (s.deleting start stop).Roomy id := by
      have hroomy := h.after (c := .deleteRange start stop) fun _ _ => nofun
      rwa [after, if_pos ⟨hlt, hstop⟩] at hroomy
    have hrange : Document.InRange (s.deleting start stop) :=
      hafter.inRange (by unfold Text.Short; omega) (Nat.succ_lt_succ htick)
    have hbetween := Document.length_between hspan hstop
    have haccepted : Recording.Accepted (Recording.recordDelete start
        (s.doc.text.between start stop) true s.view) :=
      Recording.accepted_recordDelete true (by omega)
    rw [Document.deleteRange_run hlt hstop]
    exact (EditM.records_record haccepted).succeeds
      (·.withoutSpan start stop)
      (fun r => Document.removeText_eq (s := s.recorded r) hspan hstop) fun _ => hrange
  · obtain rfl : start = stop := by omega
    exact ⟨s, Document.deleteRange_empty hstop⟩

theorem replaceRange_succeeds (hstop : start + new.length ≤ s.doc.text.length) :
    ∃ s', Document.replaceRange start new s = .ok () s' := by
  have hfits : Offset.Fits (start + new.length) := by
    unfold Offset.Fits
    omega
  have hlength := Editing.length_replacing hstop
  have hafter : (s.replacing start new).Roomy id := by
    have hroomy := h.after (c := .replaceRange start new) fun _ _ => nofun
    rwa [after, if_pos hstop] at hroomy
  have hrange : Document.InRange (s.replacing start new) :=
    hafter.inRange (by unfold Text.Short; omega) (Nat.succ_lt_succ htick)
  have hread : s.view.read start (start + new.length)
      = .ok (s.doc.text.between start (start + new.length)) :=
    Document.slice_eq (Nat.le_add_right start new.length) hstop
  have hbetween := Document.length_between (Nat.le_add_right start new.length) hstop
  have haccepted := Recording.accepted_recordChange (v := s.view) (by omega) hread (by omega)
  rw [Document.replaceRange_run hfits hstop]
  exact ((EditM.records_record haccepted).mapFailure Document.whileReplacing).succeeds
    (·.withOverwritten start new)
    (fun r => Document.overwriteText_eq (s := s.recorded r) hfits hstop) fun _ => hrange

theorem putProperty_succeeds (hspan : start ≤ stop) (hstop : stop ≤ s.doc.text.length) :
    ∃ s', Document.putProperty start stop name value s = .ok () s' := by
  have hin : ¬(stop < start ∨ s.doc.text.length < stop) := by omega
  by_cases hruns : s.doc.changedRuns start stop name value = []
  · exact ⟨s, Document.putProperty_same hin hruns⟩
  · have hafter : (s.putting { start, stop, name, value }
        (s.doc.changedRuns start stop name value)).Roomy id := by
      have hroomy := h.after (c := .putProperty start stop name value) fun _ _ => nofun
      rwa [after, Editing.afterProperty, if_pos ⟨hspan, hstop, hruns⟩] at hroomy
    have hshort : s.doc.text.Short := by
      unfold Text.Short
      omega
    have hrange : Document.InRange (s.putting { start, stop, name, value }
        (s.doc.changedRuns start stop name value)) :=
      hafter.inRange hshort (Nat.succ_lt_succ htick)
    have hrecords : EditM.Records
        ((s.doc.changedRuns start stop name value).forM (Document.recordRun name)) s := by
      refine EditM.Records.forM fun run hrun => ?_
      obtain ⟨-, hlt, hle⟩ := Document.runWithin_changedRuns s.doc hspan name value run hrun
      refine EditM.records_record (Recording.accepted_recordPropertyChange ?_)
      unfold Offset.Fits
      omega
    rw [Document.putProperty_run hin hruns]
    exact hrecords.succeeds (·.withSpan { start, stop, name, value }) (fun _ => rfl)
      fun _ => hrange

/-- A call is answered: what asks for too much is refused, and everything else succeeds. -/
theorem answered (hargs : c.TakesWords) :
    (¬c.Overflows → c.Within s.doc.text → ∃ s', c.run s = .ok () s') ∧
    (¬c.Overflows → ¬c.Within s.doc.text → ∃ e, c.run s = .error (.error e) s) ∧
    (c.Overflows → c.run s = .error (.fault .overflow) s) := by
  have hwithin {text : Text} {c : Call} (hc : c.stretch? = none) : c.Within text := by
    intro start stop hstretch
    cases hc.symm.trans hstretch
  have hoff {text : Text} {c : Call} {a b : Nat} (hc : c.stretch? = some (a, b))
      (h : ¬c.Within text) : ¬(a ≤ b ∧ b ≤ text.length) := by
    intro hin
    refine h fun start stop hstretch => ?_
    cases hc.symm.trans hstretch
    exact hin
  cases c with
  | setPoint pos => exact ⟨fun _ _ => ⟨_, rfl⟩, fun _ hno => absurd (hwithin rfl) hno, nofun⟩
  | makeMarker pos advances =>
      exact ⟨fun _ _ => ⟨_, rfl⟩, fun _ hno => absurd (hwithin rfl) hno, nofun⟩
  | insert added =>
      exact ⟨fun _ _ => insert_succeeds h htext htick hargs,
        fun _ hno => absurd (hwithin rfl) hno, nofun⟩
  | deleteRange start stop =>
      refine ⟨fun _ hin => ?_, fun _ hno => Document.deleteRange_outside (hoff rfl hno), nofun⟩
      obtain ⟨hspan, hstop⟩ := hin start stop rfl
      exact deleteRange_succeeds h htext htick hspan hstop
  | putProperty start stop name value =>
      refine ⟨fun _ hin => ?_, fun _ hno => Document.putProperty_outside ?_, nofun⟩
      · obtain ⟨hspan, hstop⟩ := hin start stop rfl
        exact putProperty_succeeds h htext htick hspan hstop
      · have := hoff rfl hno
        omega
  | replaceRange start new =>
      refine ⟨fun _ hin => ?_, fun hfits hno => ?_, Document.replaceRange_unfit⟩
      · exact replaceRange_succeeds h htext htick (hin start _ rfl).2
      · have := hoff rfl hno
        exact Document.replaceRange_outside (Classical.not_not.mp hfits) (by omega)
  | _ => exact hargs.elim

end Succeeds

end Call

/-! ### Texts -/

namespace Text

variable {text added : Text} {start stop : Nat}

theorem checkSpan_outside (h : ¬(start ≤ stop ∧ stop ≤ text.length)) :
    text.checkSpan start stop = .error (.spanOutside start stop text.length) := if_neg h

theorem remove_eq (hspan : start ≤ stop) (hstop : stop ≤ text.length) :
    text.remove start stop = .ok (text.without start stop) := by
  unfold remove checkSpan
  rw [if_pos ⟨hspan, hstop⟩]
  rfl

theorem remove_outside (h : ¬(start ≤ stop ∧ stop ≤ text.length)) :
    text.remove start stop = .error (.spanOutside start stop text.length) := by
  unfold remove
  rw [checkSpan_outside h]
  rfl

theorem slice_outside (h : ¬(start ≤ stop ∧ stop ≤ text.length)) :
    text.slice start stop = .error (.spanOutside start stop text.length) := by
  unfold slice
  rw [checkSpan_outside h]
  rfl

theorem overwrite_eq (hfits : Offset.Fits (start + added.length))
    (hstop : start + added.length ≤ text.length) : text.overwrite start added
      = .ok ((text.without start (start + added.length)).spliced start added) := by
  unfold overwrite checkSpan
  dsimp only
  rw [if_pos hfits, if_pos ⟨Nat.le_add_right start added.length, hstop⟩]

theorem overwrite_outside (hfits : Offset.Fits (start + added.length))
    (h : ¬start + added.length ≤ text.length) : text.overwrite start added
      = .error (.error (.text (.spanOutside start (start + added.length) text.length))) := by
  unfold overwrite
  dsimp only
  rw [if_pos hfits, checkSpan_outside fun hin => h hin.2]

theorem overwrite_overflow (h : ¬Offset.Fits (start + added.length)) :
    text.overwrite start added = .error (.fault .overflow) := if_neg h

end Text

/-! ### Sessions -/

namespace Workspace

variable {start : Workspace} {first : Editing Document} {commands : List Command}

/-- As long as nobody moves markers by hand, there is room for the sums of an edit. -/
theorem roomy_later (hsound : start.Sound) (hfirst : start.moment? id = some first)
    (hroomy : first.Roomy id) (hunbroken : start.Unbroken commands)
    (hcommands : ∀ c ∈ commands, c.movesByHand = false)
    (hs : (start.later commands).moment? id = some s) : s.Roomy id := by
  obtain ⟨now, hnow, hroomy⟩ := past_turns (fun now _ => now.Roomy id) hsound hfirst hunbroken
    hroomy (fun _ _ _ _ h hleads => h.call hleads)
    fun c hc _ _ _ h hturn => h.turn hturn (hcommands c hc)
  rwa [Option.some.inj (hs.symm.trans hnow)]

/--
Any arguments are answered.  After any commands that move no marker by hand, if the text of a
document is short enough and its tick is not the last, the calls that edit it or set its
cursor or a marker succeed for all offsets and texts, or are refused if they ask for a stretch
that is not in the text; and so are those of any text.  The one exception is a replacement
whose end no word can hold.
-/
theorem arguments_answered (hsound : start.Sound) (hfirst : start.moment? id = some first)
    (hroomy : first.Roomy id) (hunbroken : start.Unbroken commands)
    (hcommands : ∀ c ∈ commands, c.movesByHand = false)
    (hs : (start.later commands).moment? id = some s)
    (htext : s.doc.text.length < 0x4000000000000000)
    (htick : s.doc.ticks.modified < 0xffffffffffffffff) :
    (∀ c : Call, c.TakesWords →
      (¬c.Overflows → c.Within s.doc.text → ∃ s', c.run s = .ok () s') ∧
      (¬c.Overflows → ¬c.Within s.doc.text → ∃ e, c.run s = .error (.error e) s) ∧
      (c.Overflows → c.run s = .error (.fault .overflow) s)) ∧
    ∀ (text added : Text) (start stop : Nat),
      (start ≤ text.length → ∃ t, text.insert start added = .ok t) ∧
      (¬start ≤ text.length → ∃ e, text.insert start added = .error e) ∧
      (start ≤ stop ∧ stop ≤ text.length →
        (∃ t, text.remove start stop = .ok t) ∧ ∃ t, text.slice start stop = .ok t) ∧
      (¬(start ≤ stop ∧ stop ≤ text.length) →
        (∃ e, text.remove start stop = .error e) ∧ ∃ e, text.slice start stop = .error e) ∧
      (Offset.Fits (start + added.length) →
        (start + added.length ≤ text.length → ∃ t, text.overwrite start added = .ok t) ∧
        (¬start + added.length ≤ text.length →
          ∃ e, text.overwrite start added = .error (.error e))) ∧
      (¬Offset.Fits (start + added.length) →
        text.overwrite start added = .error (.fault .overflow)) := by
  have hnow := roomy_later hsound hfirst hroomy hunbroken hcommands hs
  refine ⟨fun _ hargs => Call.answered hnow htext htick hargs, fun text added start stop => ?_⟩
  refine ⟨fun h => ⟨_, if_pos h⟩, fun h => ⟨_, if_neg h⟩, fun h => ?_, fun h => ?_,
    fun hfits => ⟨fun h => ?_, fun h => ?_⟩, fun h => ?_⟩
  · exact ⟨⟨_, Text.remove_eq h.1 h.2⟩, _, Document.slice_eq h.1 h.2⟩
  · exact ⟨⟨_, Text.remove_outside h⟩, _, Text.slice_outside h⟩
  · exact ⟨_, Text.overwrite_eq hfits h⟩
  · exact ⟨_, Text.overwrite_outside hfits h⟩
  · exact Text.overwrite_overflow h

/-- After a marker was made and text deleted, an insertion succeeds. -/
theorem arguments_answered_insertion :
    ∃ s, ((ofText ['a', 'b', 'c']).later [.document ⟨0⟩ (.deleteRange 0 2),
        .sheet ⟨0⟩ (.makeMarker 1 true)]).moment? ⟨0⟩ = some s ∧
      ∃ s', (Call.insert ['x']).run s = .ok () s' :=
  have hfirst : (ofText ['a', 'b', 'c']).moment? ⟨0⟩
      = some ⟨.ofSettings {}, {}, .ofText ⟨0⟩ ['a', 'b', 'c']⟩ := rfl
  have hunbroken : (ofText ['a', 'b', 'c']).Unbroken [.document ⟨0⟩ (.deleteRange 0 2),
      .sheet ⟨0⟩ (.makeMarker 1 true)] := by decide +kernel
  ⟨_, rfl, ((arguments_answered (sound_ofText _) hfirst (Editing.roomy_ofText _ _ _)
    hunbroken (by decide) rfl (by decide) (by decide)).1 (.insert ['x'])
    (show 1 < 0x4000000000000000 by decide)).1 nofun nofun⟩

/-- A replacement at the last word is a fault, and is not refused. -/
theorem replacement_overflows :
    ∃ s, (ofText ['a', 'b', 'c']).moment? ⟨0⟩ = some s ∧
      (Call.replaceRange 0xffffffffffffffff ['x']).TakesWords ∧
      (Call.replaceRange 0xffffffffffffffff ['x']).run s = .error (.fault .overflow) s ∧
      s.doc.text.overwrite 0xffffffffffffffff ['x'] = .error (.fault .overflow) :=
  ⟨_, rfl, ⟨by decide, by decide⟩, rfl, rfl⟩

end Workspace

end EditHistory
