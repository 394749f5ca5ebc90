/-
Undoing an undo is redoing.

What an undo records becomes the newest unit of the log.  So a second undo takes that back,
and ends where the first one started.  If the first one recorded nothing, there is no such
unit, and the second takes back the same unit as the first; but then nothing had changed,
and nothing will.

What an undo records is seen best on an empty log, as `Retrace` has it.  What lies below
makes no difference to it (`Below`), nor to the second undo, which reaches no further.
-/
import EditHistory.Proofs.Undo.Below
import EditHistory.Proofs.Undo.Retrace

namespace EditHistory

open Editing

variable {id : DocId} {x z origin : Text} {s t first now : Editing Document} {past : List Event}
  {unit rest : List Entry} {units : List (List Entry)} {os : List Event} {marker : MarkerId}
  {advances : Bool} {p : Nat}

/-! ### A unit taken back on an empty log -/

theorem Ready.bare (h : Ready id x s) : Ready id x s.bare :=
  ⟨⟨h.sound.enabled, h.sound.point_le, h.sound.spans⟩, h.id, h.text, h.short⟩

theorem Ready.atop (h : Ready id x s) (below : List Entry) : Ready id x (s.atop below) :=
  ⟨⟨h.sound.enabled, h.sound.point_le, h.sound.spans⟩, h.id, h.text, h.short⟩

namespace Document

/-- The moment after the entries of a unit were taken back as if on an empty log. -/
def retaken (s : Editing Document) (unit : List Entry) : Editing Document :=
  unit.foldl (fun s e => e.undone s) s.closing.bare

theorem undone_one (hunits : s.doc.log.units = unit :: units) :
    undone 1 s = unitUndone s.closing unit := by
  unfold undone
  rw [hunits, List.take_succ_cons, List.take_zero, List.foldl_cons, List.foldl_nil]

/-- An undo of the newest unit goes as on an empty log, on top of what there is. -/
theorem eq_atop_of_undo (h : Chain (TextStep id) (unit ++ rest) os x z) (hs : Ready id x s)
    (hunits : s.doc.log.units = unit :: units) (hok : undo 1 s = .ok () t) :
    t = (retaken s unit).closing.atop s.closing.doc.log.entries := by
  rw [undo_eq_runAll, undoCalls, hunits, Call.runAll_boundary, List.take_succ_cons,
    List.take_zero, List.flatMap_cons, List.flatMap_nil, List.append_nil] at hok
  have hnothing : Log.opens [] = true := rfl
  have halike := Call.respects_runAll hnothing (opens_closing hs.sound.enabled)
    (unitCalls unit) s.closing.bare s.closing (.intro s.closing.bare)
  rw [hok, ← undoUnit_eq_runAll] at halike
  have hunit : Achieves (undoUnit unit) s.closing.bare (retaken s unit).closing
      (HasRoom (unit ++ rest) s.closing.bare) :=
    (achieves_unit h hs.closing.bare).1.bind_ok rfl
  have hatop : ∀ b, AtopAlike [] s.closing.doc.log.entries b t →
      t = b.atop s.closing.doc.log.entries := by
    rintro _ ⟨u⟩
    unfold atop Log.atop
    simp only [List.append_nil]
  -- The runs end alike, and on the empty log it is known where.
  rcases hunit with hok' | ⟨-, t', herr⟩
  · rw [hok'] at halike
    cases halike with
    | ok _ halike => exact hatop _ halike
  · rw [herr] at halike
    cases halike

end Document

/-! ### The second undo -/

namespace Retraces

/-- What was recorded is the only unit after it was closed, unless nothing was. -/
theorem units_closing (h : Retraces id origin s) (hne : s.doc.log.entries ≠ [])
    (hon : s.doc.log.disabled = false) : s.closing.doc.log.units = [s.doc.log.entries] := by
  have hgroups : Log.groups [] (s.doc.log.entries ++ []) = [s.doc.log.entries] := by
    rw [Log.groups_append h.open_unit]
    simp [Log.groups, hne]
  rw [Editing.units_closing hon, Log.units]
  rwa [List.append_nil] at hgroups

end Retraces

/-- What undoing the newest unit records leads the marker back to `p`. -/
def LedBack (id : DocId) (marker : MarkerId) (advances : Bool) (p : Nat) (s : Editing Document) :
    Prop :=
  ∀ unit units, s.doc.log.units = unit :: units →
    ∃ seat, Unwinds id marker advances p seat (Document.retaken s unit)

/-- The text is the same again, and so is the place of every marker that is led back. -/
structure Redone (id : DocId) (now u : Editing Document) : Prop where
  text : u.doc.text = now.doc.text
  markers : ∀ marker advances p, StandsAt id marker advances p now →
    LedBack id marker advances p now → StandsAt id marker advances p u

/-- Taking back what was recorded on an empty log. -/
theorem Retraces.undoLeads (h : Retraces id origin s) (hs : Ready id x s)
    (hne : s.doc.log.entries ≠ []) :
    Document.UndoLeads 1 s.closing fun u => u.doc.text = origin ∧
      ∀ marker advances p seat, Unwinds id marker advances p seat s →
        StandsAt id marker advances p u := by
  obtain rfl := hs.text
  obtain ⟨past, hlinked⟩ := h.linked
  have hclosed : Linked id .nothing origin s.closing
      ({ before := s, what := .call .boundary } :: past) :=
    hlinked.closing hs (Extra.admits_nothing _ _)
  refine hclosed.texts.undoLeads hs.closing ?_
  have hchain : Chain (TextStep id) (s.doc.log.entries ++ []) (origins s past) s.doc.text
      origin := by
    rw [List.append_nil]
    exact hlinked.texts
  rw [Document.undone_one (h.units_closing hne hs.sound.enabled)]
  refine ⟨?_, ?_⟩
  · rw [← hlinked.texts.foldl_textUndone]
    exact (hchain.ready_foldl_undone hs.closing.closing).text
  · intro marker advances p seat hunwinds
    have hstands : StandsAt id marker advances seat.position s.closing.closing :=
      hunwinds.stands.of_markers rfl
    rw [← hunwinds.back]
    exact (hchain.standsAt_foldl_undone hs.closing.closing hstands).of_markers rfl

/-- Closing the newest unit adds no text to the chain of texts. -/
theorem Chain.closing (h : Chain (TextStep id) s.doc.log.entries os x z) (hs : Ready id x s) :
    ∃ os, Chain (TextStep id) s.closing.doc.log.entries os x z := by
  rw [entries_closing hs.sound.enabled]
  unfold Recording.closing
  split
  · exact ⟨os, h⟩
  · exact ⟨{ before := s, what := .call .boundary } :: os, .cons ⟨hs.short, rfl⟩ h⟩

/-- If there was nothing to take back, there still is nothing. -/
theorem undoLeads_nothing (hchain : Chain (TextStep id) now.doc.log.entries os x z)
    (hs : Ready id x now) (hunits : now.doc.log.units = []) :
    Document.UndoLeads 1 now.closing (Redone id now) := by
  obtain ⟨os', hclosed⟩ := hchain.closing hs
  refine hclosed.undoLeads hs.closing ?_
  unfold Document.undone
  rw [units_closing hs.sound.enabled, hunits, List.take_nil, List.foldl_nil]
  exact ⟨rfl, fun _ _ _ hstands _ => hstands.of_markers rfl⟩

section Again

variable (hunit : Chain (TextStep id) (unit ++ rest) os x z) (hs : Ready id x now)

include hunit hs

theorem ready_retaken : Ready id (unit.foldl (fun x e => e.textUndone x) x)
    (Document.retaken now unit) :=
  hunit.ready_foldl_undone hs.closing.bare

theorem retraces_retaken : Retraces id x (Document.retaken now unit) :=
  hunit.retraces hs.closing.bare rfl

/-- If taking back the unit recorded something, that is what the second undo takes back. -/
theorem undoLeads_recorded (hunits : now.doc.log.units = unit :: units)
    (hsomething : (Document.retaken now unit).doc.log.entries ≠ []) :
    Document.UndoLeads 1
      ((Document.retaken now unit).closing.atop now.closing.doc.log.entries) (Redone id now) := by
  have hready := ready_retaken hunit hs
  have hretraces := retraces_retaken hunit hs
  have hone : 1 ≤ (Document.retaken now unit).closing.doc.log.unitCount := by
    rw [← Log.length_units, hretraces.units_closing hsomething hready.sound.enabled]
    exact Nat.le_refl _
  have halike := Document.undo_atop hready.closing.sound.enabled
    (opens_closing hs.sound.enabled) hone
  refine ((hretraces.undoLeads hready hsomething).mono ?_).alike halike HasRoom.of_atop ?_
  · rintro u ⟨htext, hmarkers⟩
    refine ⟨htext.trans hs.text.symm, ?_⟩
    intro marker advances p _ hback
    obtain ⟨seat, hunwinds⟩ := hback unit units hunits
    exact hmarkers marker advances p seat hunwinds
  · rintro _ _ ⟨u⟩ h
    refine ⟨h.text, ?_⟩
    intro marker advances p hstands hback
    exact (h.markers marker advances p hstands hback).of_markers rfl

section Nothing

variable (hnothing : (Document.retaken now unit).doc.log.entries = [])

include hnothing

/-- Taking back a unit without recording anything leaves the text what it was. -/
theorem textUndone_still : unit.foldl (fun x e => e.textUndone x) x = x := by
  obtain ⟨os, hback⟩ := (retraces_retaken hunit hs).chain
  rw [hnothing] at hback
  rw [← (ready_retaken hunit hs).text]
  exact hback.foldl_textUndone

/-- And a marker that it would lead back is left where it is. -/
theorem markerUndone_still {seat : Seat} (hstands : StandsAt id marker advances p now)
    (hunwinds : Unwinds id marker advances p seat (Document.retaken now unit)) :
    StandsAt id marker advances p (Document.retaken now unit) ∧
      unit.foldl (fun p e => e.markerUndone marker advances p) p = p := by
  have hback : seat.position = p := by
    have hback := hunwinds.back
    unfold unwound at hback
    rwa [hnothing] at hback
  have hbegun : StandsAt id marker advances p now.closing.bare := hstands.of_markers rfl
  have hmoved := hunit.standsAt_foldl_undone hs.closing.bare hbegun
  have hstays := hunwinds.stands
  rw [hback] at hstays
  exact ⟨hstays, hmoved.unique hstays⟩

/-- Then the second undo takes back the same unit, and once more nothing changes. -/
theorem undoLeads_unchanged {os' : List Event}
    (hchain : Chain (TextStep id) now.doc.log.entries os' x z)
    (hunits : now.doc.log.units = unit :: units) :
    Document.UndoLeads 1
      ((Document.retaken now unit).closing.atop now.closing.doc.log.entries) (Redone id now) := by
  have htext := textUndone_still hunit hs hnothing
  have hready := ready_retaken hunit hs
  rw [htext] at hready
  have hthen := hready.closing.atop now.closing.doc.log.entries
  -- The log is what it was when the first undo had closed it, and so are its units.
  have hentries : ((Document.retaken now unit).closing.atop
      now.closing.doc.log.entries).doc.log.entries = now.closing.doc.log.entries := by
    show (Document.retaken now unit).closing.doc.log.entries ++ _ = _
    rw [entries_closing hready.sound.enabled, Recording.closing, log_recording,
      Log.atBoundary_eq_opens, hnothing]
    rfl
  have hagain : ((Document.retaken now unit).closing.atop
      now.closing.doc.log.entries).doc.log.units = unit :: units := by
    rw [← hunits, ← units_closing hs.sound.enabled]
    exact congrArg (Log.groups []) hentries
  obtain ⟨os'', hclosed⟩ := hchain.closing hs
  rw [← hentries] at hclosed
  refine hclosed.undoLeads hthen ?_
  rw [Document.undone_one hagain]
  refine ⟨?_, ?_⟩
  · rw [hs.text, ← htext]
    exact (hunit.ready_foldl_undone hthen.closing).text
  · intro marker advances p hstands hback
    obtain ⟨seat, hunwinds⟩ := hback unit units hunits
    obtain ⟨hstays, hstill⟩ := markerUndone_still hunit hs hnothing hstands hunwinds
    have hmoved := hunit.standsAt_foldl_undone hthen.closing (hstays.of_markers rfl)
    rw [hstill] at hmoved
    exact hmoved.of_markers rfl

end Nothing

end Again

/-- A second undo leads back to the text that the first started from, and to what markers it can. -/
theorem undo_undone (hchain : Chain (TextStep id) now.doc.log.entries os now.doc.text z)
    (hs : Ready id now.doc.text now) :
    Document.UndoLeads 1 now fun t => Document.UndoLeads 1 t (Redone id now) := by
  rcases achieves_undo 1 hchain hs with hok | ⟨hno, t, ht⟩
  · refine Or.inl ⟨_, hok, ?_⟩
    cases hunits : now.doc.log.units with
    | nil =>
        have hundone : Document.undone 1 now = now.closing := by
          unfold Document.undone
          rw [hunits, List.take_nil, List.foldl_nil]
        rw [hundone]
        exact undoLeads_nothing hchain hs hunits
    | cons unit units =>
        obtain ⟨rest, os', _, hunit, rfl, -⟩ :=
          hchain.newest_unit (· = now.doc.text) (fun hr hx => hr.2.trans hx) rfl hunits
        rw [Document.eq_atop_of_undo hunit hs hunits hok]
        by_cases hnothing : (Document.retaken now unit).doc.log.entries = []
        · exact undoLeads_unchanged hunit hs hnothing hchain hunits
        · exact undoLeads_recorded hunit hs hunits hnothing
  · exact Or.inr ⟨hno, t, ht⟩

/-- Without a replacement in the newest unit every marker of the document is led back. -/
theorem Seating.ledBack (h : Seating first past now) (hshort : now.doc.text.Short)
    (hno : ∀ o ∈ newestOrigins now.doc.log.entries (origins now past),
      o.what.isReplacement = false)
    (hstands : StandsAt first.doc.id marker advances p now) :
    LedBack first.doc.id marker advances p now := by
  obtain ⟨m, hget, howner, rfl, rfl⟩ := hstands
  obtain ⟨z, hlinked, -⟩ := h.traced.linked
  obtain ⟨seat, hseat⟩ := h.seated marker m hget howner (Seat.bare m.position) rfl
  intro unit units hunits
  -- Above the unit there are boundaries only, which leave the text and the place alone.
  obtain ⟨rest, os, _, hunit, rfl, hos⟩ := (Chain.prod hlinked.texts hseat).newest_unit
    (· = (now.doc.text, Seat.bare m.position)) (by
      rintro o a b ⟨hr, hstep⟩ rfl
      have htext : b.1 = now.doc.text := hr.2
      have hseat : b.2 = Seat.bare m.position :=
        (hstep.resolve_left fun hc => by cases hc.1).2
      rw [← htext, ← hseat]) rfl hunits
  have hs := h.traced.ready hshort
  rw [← hos] at hno
  exact hunit.unwinds hno hs.closing.bare rfl ⟨m, hget, howner, rfl, rfl⟩

/--
**Undoing an undo is redoing.**  Whatever a session did with a document, undoing its newest
unit and then undoing once more leads to the text as it was.  If all that the session did was
to edit the document, to make and drop markers and let go of them, and to end units, so that
no marker was moved by hand, and if the newest unit holds no replacement, it also leads every
marker of the document to the place where it was.
-/
theorem undo_undone_redoes {start : Workspace} {commands : List Command}
    (h : Session start commands id first now)
    (hplain : ∀ e ∈ start.past id commands, e.Plain) :
    Document.UndoLeads 1 now fun t => Document.UndoLeads 1 t fun u =>
      u.doc.text = now.doc.text ∧
        ((∀ c ∈ commands, c.isForward id = true) →
          (∀ o ∈ newestOrigins now.doc.log.entries (origins now (start.past id commands)),
            o.what.isReplacement = false) →
          ∀ marker, now.markers.owns now.doc.id marker = true →
            (u.markers.get? marker).map (·.position)
              = (now.markers.get? marker).map (·.position)) := by
  have htraced := h.course.traced h.sound h.empty hplain h.short
  obtain ⟨z, hlinked, -⟩ := htraced.linked
  refine (undo_undone hlinked.texts (htraced.ready h.short_now)).mono ?_
  intro t ht
  refine ht.mono ?_
  intro u hu
  refine ⟨hu.text, ?_⟩
  intro hforward hno marker howns
  have hseating := h.course.seating h.sound h.empty
    (fun o ho => Workspace.isForward_of_mem_past hforward ho) h.short
  obtain ⟨m, hget, howner⟩ := (Option.any_eq_true _ _).mp howns
  have hstands : StandsAt first.doc.id marker m.advances m.position now := by
    rw [← htraced.id]
    exact ⟨m, hget, by simpa using howner, rfl, rfl⟩
  obtain ⟨m', hget', -, -, hposition⟩ := hu.markers marker m.advances m.position hstands
    (hseating.ledBack h.short_now hno hstands)
  rw [hget', hget, Option.map_some, Option.map_some, hposition]

/-- A deletion that swallows two markers, undone and redone. -/
theorem undo_undone_redoes_swallowed :
    ∃ now, ((Workspace.ofText ['a', 'b', 'c', 'd']).later
        [.document ⟨0⟩ (.deleteRange 0 3), .sheet ⟨0⟩ .insertBoundary,
          .document ⟨0⟩ (.replaceRange 3 ['x']), .sheet ⟨0⟩ (.makeMarker 2 true),
          .sheet ⟨0⟩ (.makeMarker 4 false)]).moment? ⟨0⟩ = some now ∧
      Document.UndoSucceeds 1 now fun t =>
        (t.doc.text = ['a', 'b', 'c', 'x'] ∧ (t.markers.get? 1).map (·.position) = some 2) ∧
        Document.UndoSucceeds 1 t fun u => u.doc.text = ['x'] ∧
          (u.markers.get? 0).map (·.position) = some 1 ∧
          (u.markers.get? 1).map (·.position) = some 0 := by
  let commands : List Command := [.document ⟨0⟩ (.deleteRange 0 3), .sheet ⟨0⟩ .insertBoundary,
    .document ⟨0⟩ (.replaceRange 3 ['x']), .sheet ⟨0⟩ (.makeMarker 2 true),
    .sheet ⟨0⟩ (.makeMarker 4 false)]
  let past := (Workspace.ofText ['a', 'b', 'c', 'd']).past ⟨0⟩ commands
  obtain ⟨now, hnow⟩ := Option.isSome_iff_exists.mp
    (show (((Workspace.ofText ['a', 'b', 'c', 'd']).later commands).moment? ⟨0⟩).isSome by
      decide +kernel)
  have hfacts : (((Workspace.ofText ['a', 'b', 'c', 'd']).later commands).moment? ⟨0⟩).all
      fun now => now.doc.text = ['x'] ∧ HasRoom now.doc.log.entries now ∧
        (∀ marker ∈ [0, 1], now.markers.owns now.doc.id marker = true) ∧
        (now.markers.get? 0).map (·.position) = some 1 ∧
        (now.markers.get? 1).map (·.position) = some 0 ∧
        (∀ o ∈ newestOrigins now.doc.log.entries (origins now past),
          o.what.isReplacement = false) ∧
        Document.UndoSucceeds 1 now fun t =>
          (t.doc.text = ['a', 'b', 'c', 'x'] ∧ (t.markers.get? 1).map (·.position) = some 2) ∧
            HasRoom t.doc.log.entries t := by
    decide +kernel
  simp only [hnow, Option.all_some, decide_eq_true_eq] at hfacts
  obtain ⟨htext, hroom, howns, hzero, hone, hno, t', ht', hthen, hroom'⟩ := hfacts
  have hshort : now.doc.text.Short := by
    rw [htext]
    decide
  obtain ⟨t, ht, hredone⟩ := (undo_undone_redoes (Session.ofText commands (by decide +kernel)
    (by decide) hnow (by decide +kernel) hshort) (by decide +kernel)).succeeds hroom
  obtain rfl : t = t' := (EStateM.Result.ok.inj (ht.symm.trans ht')).2
  refine ⟨now, hnow, t, ht, hthen, ?_⟩
  obtain ⟨u, hu, hagain, hmarkers⟩ := hredone.succeeds hroom'
  have hback := hmarkers (by decide) hno
  refine ⟨u, hu, hagain.trans htext, ?_, ?_⟩
  · rw [hback 0 (howns 0 (by simp)), hzero]
  · rw [hback 1 (howns 1 (by simp)), hone]

end EditHistory
