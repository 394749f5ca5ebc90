/-
Undoing a replacement: which markers it moves.

A replacement is made in place and moves nothing, but what it leaves in the log is a
deletion and an insertion, and the deletion is recorded without the displacements of
the markers.  Taking both back is a real deletion and a real insertion.  So a marker in
the replaced text, or at either end of it, ends up at an end: at the back if it advances,
at the front if it does not.  Every other marker is where it was.

The replacement is looked at on an empty log, where its unit is all there is; what lies
below the boundary makes no difference.
-/
import EditHistory.Proofs.Undo.Redo

namespace EditHistory

open Editing

/-- Where text taken out from `start` up to `stop` and put in again leaves the marker. -/
def Marker.settled (start stop : Nat) (m : Marker) : Nat :=
  if start ≤ m.position ∧ m.position ≤ stop then if m.advances then stop else start
  else m.position

variable {id : DocId} {s s₁ t : Editing Document} {start : Nat} {new : Text} {marker : MarkerId}
  {m : Marker}

namespace Marker

/-- A marker stays where it is if it is outside, or at the end that it goes to. -/
theorem settled_eq_position_iff {start stop : Nat} (m : Marker) :
    m.settled start stop = m.position ↔ m.position < start ∨ stop < m.position ∨
      m.position = if m.advances then stop else start := by
  unfold settled
  by_cases hin : start ≤ m.position ∧ m.position ≤ stop
  · rw [if_pos hin]
    constructor
    · intro h
      exact Or.inr (Or.inr h.symm)
    · intro h
      exact (h.resolve_left (by omega)).resolve_left (by omega) |>.symm
  · rw [if_neg hin]
    simp only [true_iff]
    omega

theorem afterInsert_afterDelete_settled {start stop : Nat} (hspan : start ≤ stop) (m : Marker) :
    Offset.afterInsert start (stop - start) m.advances (Offset.afterDelete start stop m.position)
      = m.settled start stop := by
  unfold settled
  by_cases hin : start ≤ m.position ∧ m.position ≤ stop
  · rw [if_pos hin]
    exact Offset.afterInsert_afterDelete_inside hspan hin.1 hin.2
  · rw [if_neg hin]
    exact Offset.afterInsert_afterDelete_outside hspan (by omega)

end Marker

/-! ### The unit of a replacement -/

theorem entries_replacing (hstop : start + new.length ≤ s.doc.text.length) :
    (s.replacing start new).doc.log.entries
      = .insertion start (start + new.length) ::
        .deletion (s.doc.text.between start (start + new.length))
          (Recording.signedOffset s.view start (start + new.length)) ::
        Recording.preamble s.view (Recording.undonePoint s.view start (start + new.length))
          s.recording ++ s.doc.log.entries := by
  have hlength : (s.doc.text.between start (start + new.length)).length = new.length := by
    rw [Document.length_between (Nat.le_add_right _ _) hstop, Nat.add_sub_cancel_left]
  have hadds := (Recording.adds_afterChange s.view start
    (s.doc.text.between start (start + new.length)) s.recording).entries
  rw [hlength] at hadds
  exact hadds

/-- Taking back the unit of a replacement settles a marker. -/
theorem foldl_markerUndone_replacing (hs : s.doc.text.Short)
    (hempty : s.doc.log.entries = []) (hstop : start + new.length ≤ s.doc.text.length)
    (m : Marker) :
    (s.replacing start new).doc.log.entries.foldl
        (fun p e => e.markerUndone marker m.advances p) m.position
      = m.settled start (start + new.length) := by
  have hstart : start < 0x8000000000000000 := by
    unfold Text.Short at hs
    omega
  have hspan : start ≤ start + new.length := Nat.le_add_right _ _
  have hpreamble := foldl_still (f := Entry.markerUndone marker m.advances)
    fun e (he : e ∈ Recording.preamble s.view
      (Recording.undonePoint s.view start (start + new.length)) s.recording) p =>
        markerUndone_preamble he p
  rw [entries_replacing hstop, hempty, List.append_nil, List.foldl_cons, List.foldl_cons,
    hpreamble]
  simp only [Entry.markerUndone, Recording.natAbs_signedOffset _ _ hstart,
    Document.length_between hspan hstop]
  exact m.afterInsert_afterDelete_settled hspan

/-- A replacement on an empty log is its only unit, and taking that back settles the markers. -/
theorem undoLeads_replacing (hs : s.Sound) (hshort : s.doc.text.Short)
    (hempty : s.doc.log.entries = []) (hstop : start + new.length ≤ s.doc.text.length) :
    (s.replacing start new).doc.log.unitCount = 1 ∧
      Document.UndoLeads 1 (s.replacing start new) fun t => t.doc.text = s.doc.text ∧
        ∀ marker m, s.markers.get? marker = some m → m.owner = some s.doc.id →
          StandsAt s.doc.id marker m.advances (m.settled start (start + new.length)) t := by
  have hbegun : Ready s.doc.id s.doc.text s := ⟨hs, rfl, rfl, hshort⟩
  have hdeed : Deed s (.replaceRange start new) (s.replacing start new) := .replacement hstop
  have hretraces := (Retraces.start hbegun hempty).deed hbegun hdeed (by simp)
  have hshort' : (s.replacing start new).doc.text.Short := by
    unfold Text.Short
    rw [length_replacing hstop]
    exact hshort
  have hready := hbegun.deed hdeed rfl hshort'
  have hne : (s.replacing start new).doc.log.entries ≠ [] := by
    rw [entries_replacing hstop]
    simp
  have hunits : (s.replacing start new).doc.log.units
      = [(s.replacing start new).doc.log.entries] := by
    rw [← units_closing hready.sound.enabled]
    exact hretraces.units_closing hne hready.sound.enabled
  obtain ⟨os, hchain⟩ := hretraces.chain
  refine ⟨by rw [← Log.length_units, hunits, List.length_singleton], ?_⟩
  refine hchain.undoLeads hready ?_
  rw [Document.undone_one hunits]
  have hunit : Chain (TextStep s.doc.id) ((s.replacing start new).doc.log.entries ++ []) os
      (s.replacing start new).doc.text s.doc.text := by
    rw [List.append_nil]
    exact hchain
  refine ⟨?_, ?_⟩
  · rw [← hchain.foldl_textUndone]
    exact (hunit.ready_foldl_undone hready.closing).text
  · intro marker m hget howner
    have hstands : StandsAt s.doc.id marker m.advances m.position
        (s.replacing start new).closing := ⟨m, hget, howner, rfl, rfl⟩
    rw [← foldl_markerUndone_replacing hshort hempty hstop m]
    exact (hunit.standsAt_foldl_undone hready.closing hstands).of_markers rfl

/-- A replacement that is not refused ends at `replacing`. -/
theorem eq_replacing_of_ok (hs : s.Sound) (hshort : s.doc.text.Short)
    (hrun : Document.replaceRange start new s = .ok () t) :
    start + new.length ≤ s.doc.text.length ∧ t = s.replacing start new := by
  have hleads : (Call.replaceRange start new).Leads s t := Or.inl hrun
  have hafter := Call.after_replaceRange hs hshort hleads
  by_cases hstop : start + new.length ≤ s.doc.text.length
  · rw [if_pos hstop] at hafter
    exact ⟨hstop, hafter⟩
  · by_cases hfits : Offset.Fits (start + new.length)
    · obtain ⟨e, he⟩ := Document.replaceRange_outside hfits (Nat.not_le.mp hstop)
      rw [he] at hrun
      cases hrun
    · rw [Document.replaceRange_unfit hfits] at hrun
      cases hrun

/--
**Undoing a replacement settles the markers of its text.**  Right after a replacement that
began a unit, an undo leads back to the text as it was.  It leaves every marker of the
document that is outside the replaced text where it was; a marker inside or at an end goes
to the end of it at which text put in there would leave the marker.
-/
theorem undo_replacement_settles_markers (hs : s.Sound) (hshort : s.doc.text.Short)
    (hboundary : s.doc.log.atBoundary = true)
    (hrun : Document.replaceRange start new s = .ok () s₁) :
    s₁.markers = s.markers ∧
      Document.UndoLeads 1 s₁ fun t => t.doc.text = s.doc.text ∧
        ∀ marker m, s.markers.get? marker = some m → m.owner = some s.doc.id →
          StandsAt s.doc.id marker m.advances (m.settled start (start + new.length)) t := by
  obtain ⟨-, hs₁⟩ := eq_replacing_of_ok hs hshort hrun
  refine ⟨by rw [hs₁]; rfl, ?_⟩
  -- On an empty log the replacement goes the same way.
  have hnothing : Log.opens [] = true := rfl
  have halike := (Document.respected_atopAlike hnothing hboundary).replaceRange start new s.bare s
    (.intro s.bare)
  have hbare : s.bare.Sound := ⟨hs.enabled, hs.point_le, hs.spans⟩
  rw [hrun] at halike
  generalize hreplaced : Document.replaceRange start new s.bare = r at halike
  cases halike with
  | ok _ hatop =>
      obtain ⟨u⟩ := hatop
      obtain ⟨hstop, hu⟩ := eq_replacing_of_ok hbare hshort hreplaced
      have hbelow : u = u.atop [] := by
        unfold atop Log.atop
        simp only [List.append_nil]
      rw [← hbelow] at hu
      subst hu
      obtain ⟨hone, hleads⟩ := undoLeads_replacing hbare hshort rfl hstop
      have hon : (s.bare.replacing start new).doc.log.disabled = false :=
        (keeps_replacing start new s.bare).disabled.trans hs.enabled
      refine hleads.alike (Document.undo_atop hon hboundary (by omega)) HasRoom.of_atop ?_
      rintro _ _ ⟨u⟩ ⟨htext, hmarkers⟩
      refine ⟨htext, ?_⟩
      intro marker m hget howner
      exact (hmarkers marker m hget howner).of_markers rfl

/-- A text of four characters with one marker. -/
def Editing.marked (position : Nat) (advances : Bool) : Editing Document where
  recorder := .ofSettings {}
  markers := { markers := [{ position, advances, owner := some ⟨0⟩ }] }
  doc := .ofText ⟨0⟩ ['a', 'b', 'c', 'd']

/-- A marker that advances, in the middle of what is replaced, ends up behind it. -/
theorem undo_replacement_settles_marker_behind :
    ∃ s₁, Document.replaceRange 1 ['x', 'y'] (.marked 2 true) = .ok () s₁ ∧
      Document.UndoSucceeds 1 s₁ fun t => t.doc.text = ['a', 'b', 'c', 'd'] ∧
        StandsAt ⟨0⟩ 0 true 3 t := by
  have hrun : Document.replaceRange 1 ['x', 'y'] (.marked 2 true) = .ok () _ :=
    Document.replaceRange_ok rfl (by decide) (by decide) (by decide +kernel)
  have hroom : HasRoom ((Editing.marked 2 true).replacing 1 ['x', 'y']).doc.log.entries
      ((Editing.marked 2 true).replacing 1 ['x', 'y']) := by decide +kernel
  obtain ⟨-, hleads⟩ := undo_replacement_settles_markers (sound_ofText _ _ _ _) (by decide) rfl hrun
  refine ⟨_, hrun, (hleads.mono ?_).succeeds hroom⟩
  intro t ht
  exact ⟨ht.1, ht.2 0 _ rfl rfl⟩

/-- One that does not advance ends up in front of it, and not where it was. -/
theorem undo_replacement_moves_marker :
    ∃ s₁, Document.replaceRange 1 ['x', 'y'] (.marked 2 false) = .ok () s₁ ∧
      (s₁.markers.get? 0).map (·.position) = some 2 ∧
      Document.UndoSucceeds 1 s₁ fun t => t.doc.text = ['a', 'b', 'c', 'd'] ∧
        (t.markers.get? 0).map (·.position) = some 1 := by
  have hrun : Document.replaceRange 1 ['x', 'y'] (.marked 2 false) = .ok () _ :=
    Document.replaceRange_ok rfl (by decide) (by decide) (by decide +kernel)
  exact ⟨_, hrun, rfl, by decide +kernel⟩

end EditHistory
