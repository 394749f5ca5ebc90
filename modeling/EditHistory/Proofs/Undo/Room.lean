/-
How much a document may be edited before an undo can overflow.

Nothing makes an undo fail but a sum that leaves the range of a machine word, and `HasRoom`
says of the log and the markers at one moment that none does.  This file says it of a
session.  An entry takes no place further than the text was long when it was recorded, so
that all entries of a log together take it no further than their number times the length of
the longest text, and a marker that started out within that length stays in range.

Where the markers start out is known as long as none is moved by hand.  The document's own
are then in its text.  An entry may also be about one that has been dropped since, but that
was the document's own when the entry was recorded, and has stayed where it was dropped.
-/
import EditHistory.Proofs.Session.Shifts
import EditHistory.Proofs.Undo.Seat

namespace EditHistory

open Editing

variable {id : DocId} {marker : MarkerId} {m n : Marker} {e : Entry} {entries : List Entry}
  {start : Workspace} {commands : List Command} {first s s' now : Editing Document}
  {past : List Event} {what : Happening} {c : Call} {size : Nat}

/-! ### Where the entries of a log come from -/

/-- What a log holds besides boundaries was recorded by calls of the past. -/
theorem Course.exists_within (h : Course id first past now) (hsound : first.Sound)
    (hempty : first.doc.log.entries = []) (hplain : ∀ o ∈ past, o.Plain)
    (hshort : ∀ o ∈ past, o.before.doc.text.Short) (he : e ∈ now.doc.log.entries)
    (hinUnit : e.isBoundary = false) : ∃ o ∈ past, e.Within o.before := by
  induction h with
  | start =>
      rw [hempty] at he
      cases he
  | @next s s' past what hcourse hleads ih =>
      have hplain' : ∀ o ∈ past, o.Plain := fun o ho => hplain o (List.mem_cons_of_mem _ ho)
      have hshort' : ∀ o ∈ past, o.before.doc.text.Short :=
        fun o ho => hshort o (List.mem_cons_of_mem _ ho)
      have htraced := hcourse.traced hsound hempty hplain' hshort'
      have hearlier (he : e ∈ s.doc.log.entries) :
          ∃ o ∈ { before := s, what } :: past, e.Within o.before := by
        obtain ⟨o, ho, hwithin⟩ := ih hplain' hshort' he
        exact ⟨o, List.mem_cons_of_mem _ ho, hwithin⟩
      cases what with
      | call c =>
          rw [Call.after_of_leads htraced.sound (hshort _ List.mem_cons_self) hleads] at he
          rcases Call.mem_entries_after htraced.sound.enabled hinUnit he with he | hwithin
          · exact hearlier he
          · exact ⟨_, List.mem_cons_self, hwithin⟩
      | aside c =>
          rw [hleads.doc] at he
          exact hearlier he
      | truncation =>
          have hcut := Truncated.cut hleads (hplain _ List.mem_cons_self rfl)
          obtain ⟨dropped, hentries, -⟩ := hcut.entries
          exact hearlier (hentries ▸ List.mem_append_left dropped he)

theorem Entry.totalReach_le (h : ∀ e ∈ entries, e.reach ≤ size) :
    totalReach entries ≤ size * entries.length := by
  induction entries with
  | nil => exact Nat.le_refl _
  | cons e older ih =>
      have hhead := h e List.mem_cons_self
      have htail := ih fun e he => h e (List.mem_cons_of_mem _ he)
      rw [totalReach, List.length_cons, Nat.mul_succ]
      omega

/-! ### Bounds for a session -/

/--
No text was longer than `size`, and the ticks, and the entries times that length, leave room
in a machine word.
-/
structure Editing.Bounded (size : Nat) (past : List Event) (now : Editing Document) : Prop where
  texts : ∀ o ∈ past, o.before.doc.text.length ≤ size
  text_now : now.doc.text.length ≤ size
  ticks : Offset.Fits (now.doc.ticks.modified + now.doc.log.length)
  places : size * (now.doc.log.length + 1) < 0x8000000000000000

instance (past : List Event) (now : Editing Document) : Decidable (now.Bounded size past) :=
  decidable_of_iff
    ((∀ o ∈ past, o.before.doc.text.length ≤ size) ∧ now.doc.text.length ≤ size ∧
      Offset.Fits (now.doc.ticks.modified + now.doc.log.length) ∧
      size * (now.doc.log.length + 1) < 0x8000000000000000)
    ⟨fun ⟨htexts, htext, hticks, hplaces⟩ => ⟨htexts, htext, hticks, hplaces⟩,
      fun h => ⟨h.texts, h.text_now, h.ticks, h.places⟩⟩

/-- Neither a marker of the document nor one that its log is about is further than `size`. -/
def Editing.PlacesWithin (size : Nat) (s : Editing Document) : Prop :=
  ∀ marker m, s.markers.get? marker = some m →
    m.owner = some s.doc.id ∨ marker ∈ s.doc.log.entries.flatMap Entry.mentions →
      m.position ≤ size

/-- A session within bounds leaves room for all that is in its log. -/
theorem Session.hasRoom (h : Session start commands id first now)
    (hplain : ∀ o ∈ start.past id commands, o.Plain)
    (hbounded : now.Bounded size (start.past id commands)) (hplaces : now.PlacesWithin size) :
    HasRoom now.doc.log.entries now := by
  have hreach : Entry.totalReach now.doc.log.entries ≤ size * now.doc.log.length := by
    refine Entry.totalReach_le fun e he => ?_
    cases hinUnit : e.isBoundary with
    | true =>
        rw [Entry.isBoundary_iff.mp hinUnit]
        exact Nat.zero_le _
    | false =>
        obtain ⟨o, ho, hwithin⟩ := h.course.exists_within h.sound h.empty hplain h.short he hinUnit
        exact Nat.le_trans (hwithin.reach_le (h.short o ho)) (hbounded.texts o ho)
  refine ⟨hbounded.ticks, ?_⟩
  intro marker m hget _ hmine
  have hposition := hplaces marker m hget hmine
  have hroom := hbounded.places
  rw [Nat.mul_succ] at hroom
  omega

/-! ### Markers that nobody moves by hand -/

/-- Moving the markers of a document leaves those of others where they are. -/
theorem MarkerTable.get?_of_get?_move {table : MarkerTable} {f : Marker → Nat}
    (hget : (table.move id f).get? marker = some n) (howner : n.owner ≠ some id) :
    table.get? marker = some n := by
  rw [get?_move] at hget
  obtain ⟨m, hm, rfl⟩ := Option.map_eq_some_iff.mp hget
  by_cases hown : m.owner = some id
  · rw [if_pos hown] at howner
    exact absurd hown howner
  · rw [if_neg hown]
    exact hm

/-- A marker that is not the document's after a call stood in the same place before. -/
theorem Call.stood_elsewhere (hc : c.movesByHand = false)
    (hget : (c.after s).markers.get? marker = some n) (howner : n.owner ≠ some s.doc.id) :
    ∃ m, s.markers.get? marker = some m ∧ m.position = n.position := by
  cases c with
  | insert added =>
      rw [after] at hget
      split at hget
      · exact ⟨n, hget, rfl⟩
      · exact ⟨n, MarkerTable.get?_of_get?_move hget howner, rfl⟩
  | deleteRange start stop =>
      rw [after] at hget
      split at hget
      · exact ⟨n, MarkerTable.get?_of_get?_move hget howner, rfl⟩
      · exact ⟨n, hget, rfl⟩
  | replaceRange start new =>
      rw [after] at hget
      split at hget <;> exact ⟨n, hget, rfl⟩
  | putProperty start stop name value =>
      rw [after, markers_afterProperty] at hget
      exact ⟨n, hget, rfl⟩
  | restoreProperty change =>
      simp only [after] at hget
      split at hget
      · rw [markers_afterProperty] at hget
        exact ⟨n, hget, rfl⟩
      · exact ⟨n, hget, rfl⟩
  | makeMarker pos advances =>
      simp only [after, MarkerTable.get?_push] at hget
      split at hget
      · obtain rfl := Option.some.inj hget
        exact absurd rfl howner
      · exact ⟨n, hget, rfl⟩
  | dropMarker other =>
      rw [after] at hget
      split at hget
      · simp only [MarkerTable.detach, MarkerTable.get?_modify] at hget
        split at hget
        · obtain ⟨m, hm, rfl⟩ := Option.map_eq_some_iff.mp hget
          exact ⟨m, hm, rfl⟩
        · exact ⟨n, hget, rfl⟩
      · exact ⟨n, hget, rfl⟩
  | restoreMarker other delta => cases hc
  | _ => exact ⟨n, hget, rfl⟩

/--
The document's markers are in its text, and those that its log is about are no further than
`size`, be they the document's still or not.
-/
structure Editing.MarkersWithin (size : Nat) (s : Editing Document) : Prop where
  own : ∀ p ∈ s.markers.positions s.doc.id, p ≤ s.doc.text.length
  mentioned : ∀ e ∈ s.doc.log.entries, ∀ marker ∈ e.mentions, ∀ m,
    s.markers.get? marker = some m → m.position ≤ size

namespace Editing.MarkersWithin

theorem own_le (h : MarkersWithin size s) (hget : s.markers.get? marker = some m)
    (howner : m.owner = some s.doc.id) : m.position ≤ s.doc.text.length :=
  h.own _ (MarkerTable.mem_positions.mpr ⟨m, List.mem_of_getElem? hget, howner, rfl⟩)

theorem placesWithin (h : MarkersWithin size s) (htext : s.doc.text.length ≤ size) :
    s.PlacesWithin size := by
  rintro marker m hget (howner | hmentioned)
  · exact Nat.le_trans (h.own_le hget howner) htext
  · obtain ⟨e, he, hmem⟩ := List.mem_flatMap.mp hmentioned
    exact h.mentioned e he marker hmem m hget

/-- A call that moves no marker by hand keeps them within. -/
theorem after (h : MarkersWithin size s) (hs : s.Sound) (hc : c.movesByHand = false)
    (htext : s.doc.text.length ≤ size) (htext' : (c.after s).doc.text.length ≤ size) :
    MarkersWithin size (c.after s) := by
  obtain ⟨f, hshifted⟩ := c.shifted_after hc hs.point_le
  have hid : (c.after s).doc.id = s.doc.id := (c.deed s).id
  have hown : ∀ p ∈ (c.after s).markers.positions (c.after s).doc.id,
      p ≤ (c.after s).doc.text.length := by
    rw [hid]
    exact hshifted.positions_le 0 h.own
  refine ⟨hown, ?_⟩
  intro e he marker hmem n hget
  -- The marker is mentioned in the log already, or it is the document's and in its text.
  have hbefore : ∀ m, s.markers.get? marker = some m → m.position ≤ size := by
    intro m hm
    rcases Call.mem_entries_after hs.enabled (Entry.isBoundary_of_mentions hmem) he
      with he | hwithin
    · exact h.mentioned e he marker hmem m hm
    · obtain ⟨m', hm', howner⟩ := (Option.any_eq_true _ _).mp (hwithin.owned marker hmem)
      obtain rfl : m' = m := Option.some.inj (hm'.symm.trans hm)
      exact Nat.le_trans (h.own_le hm (by simpa using howner)) htext
  by_cases howner : n.owner = some s.doc.id
  · refine Nat.le_trans (hown _ (MarkerTable.mem_positions.mpr ?_)) htext'
    exact ⟨n, List.mem_of_getElem? hget, howner.trans (congrArg some hid.symm), rfl⟩
  · obtain ⟨m, hm, hposition⟩ := Call.stood_elsewhere hc hget howner
    exact hposition ▸ hbefore m hm

/-- So does what leaves the places of all markers as they are. -/
theorem kept (h : MarkersWithin size s) (hdoc : s'.doc = s.doc) (hplaces : PlacesKept s s') :
    MarkersWithin size s' := by
  constructor
  · intro p hp
    obtain ⟨n, hmem, howner, rfl⟩ := MarkerTable.mem_positions.mp hp
    obtain ⟨marker, hget⟩ := List.mem_iff_getElem?.mp hmem
    obtain ⟨m, hm, howner', -, hposition⟩ := hplaces marker n hget
    rw [hdoc] at howner ⊢
    exact hposition ▸ h.own_le hm (howner'.trans howner)
  · intro e he marker hmem n hget
    obtain ⟨m, hm, -, -, hposition⟩ := hplaces marker n hget
    rw [hdoc] at he
    exact hposition ▸ h.mentioned e he marker hmem m hm

end Editing.MarkersWithin

/-- Along a course on which no marker is moved by hand they stay within. -/
theorem Course.markersWithin (h : Course id first past now) (hsound : first.Sound)
    (hempty : first.doc.log.entries = []) (hforward : ∀ o ∈ past, o.what.isForward id = true)
    (hshort : ∀ o ∈ past, o.before.doc.text.Short)
    (htexts : ∀ o ∈ past, o.before.doc.text.length ≤ size) (htext : now.doc.text.length ≤ size)
    (hown : ∀ p ∈ first.markers.positions first.doc.id, p ≤ first.doc.text.length) :
    now.MarkersWithin size := by
  induction h with
  | start =>
      refine ⟨hown, ?_⟩
      rw [hempty]
      intro e he
      cases he
  | @next s s' past what hcourse hleads ih =>
      have hforward' : ∀ o ∈ past, o.what.isForward id = true :=
        fun o ho => hforward o (List.mem_cons_of_mem _ ho)
      have hshort' : ∀ o ∈ past, o.before.doc.text.Short :=
        fun o ho => hshort o (List.mem_cons_of_mem _ ho)
      have hs := htexts _ List.mem_cons_self
      have hwithin := ih hforward' hshort' (fun o ho => htexts o (List.mem_cons_of_mem _ ho)) hs
      have hstep := hforward _ List.mem_cons_self
      cases what with
      | call c =>
          have hsound' := (hcourse.seating hsound hempty hforward' hshort').traced.sound
          have hafter := Call.after_of_leads hsound' (hshort _ List.mem_cons_self) hleads
          subst hafter
          refine hwithin.after hsound' ?_ hs htext
          cases c with
          | restoreMarker => cases hstep
          | _ => rfl
      | aside c => exact hwithin.kept hleads.doc (Aside.keeps_places hleads hstep).1
      | truncation => cases hstep

/-! ### Undo without overflow -/

/--
**Within bounds every undo succeeds.**  It does so from whatever a session led to, if no
marker that it may have to move is further than the texts are long; and the undo of the
newest units down to any one ends with the text just before that one began.
-/
theorem Session.undo_succeeds (h : Session start commands id first now)
    (hplain : ∀ o ∈ start.past id commands, o.Plain)
    (hbounded : now.Bounded size (start.past id commands)) (hplaces : now.PlacesWithin size) :
    (∀ count, Document.UndoSucceeds count now (· = Document.undone count now)) ∧
      ∀ k o, (unitBeginnings now (start.past id commands))[k]? = some o →
        Document.UndoSucceeds (k + 1) now fun t => t.doc.text = o.before.doc.text := by
  have htraced := h.course.traced h.sound h.empty hplain h.short
  have hroom := h.hasRoom hplain hbounded hplaces
  constructor
  · intro count
    have hleads : Document.UndoLeads count now (· = Document.undone count now) :=
      htraced.undoLeads h.short_now rfl
    exact hleads.succeeds hroom
  · intro k o ho
    exact (htraced.undoLeads h.short_now (htraced.text_undone h.short_now ho)).succeeds hroom

/--
If the markers of a document were in its text at the start and none is moved by hand, no more
is needed than that its texts are short, its entries few, and its ticks not used up.
-/
theorem Session.undo_succeeds_of_forward (h : Session start commands id first now)
    (hforward : ∀ c ∈ commands, c.isForward id = true)
    (hown : ∀ p ∈ first.markers.positions first.doc.id, p ≤ first.doc.text.length)
    (hbounded : now.Bounded size (start.past id commands)) :
    (∀ count, Document.UndoSucceeds count now (· = Document.undone count now)) ∧
      ∀ k o, (unitBeginnings now (start.past id commands))[k]? = some o →
        Document.UndoSucceeds (k + 1) now fun t => t.doc.text = o.before.doc.text := by
  have hpast : ∀ o ∈ start.past id commands, o.what.isForward id = true :=
    fun o ho => Workspace.isForward_of_mem_past hforward ho
  have hwithin : now.MarkersWithin size :=
    h.course.markersWithin h.sound h.empty hpast h.short hbounded.texts hbounded.text_now hown
  exact h.undo_succeeds (fun o ho => Event.plain_of_isForward (hpast o ho)) hbounded
    (hwithin.placesWithin hbounded.text_now)

/-- Two units, a marker in the one and dropped in the other, are well within the bounds. -/
example :
    let commands : List Command :=
      [.document ⟨0⟩ (.insert ['x']), .sheet ⟨0⟩ (.dropMarker 0), .sheet ⟨0⟩ .insertBoundary,
        .document ⟨0⟩ (.deleteRange 0 2), .sheet ⟨0⟩ (.makeMarker 1 false)]
    (∀ c ∈ commands, c.isForward ⟨0⟩ = true) ∧
      (((Workspace.ofText ['a', 'b', 'c']).later commands).moment? ⟨0⟩).any fun now =>
        now.Bounded 3 ((Workspace.ofText ['a', 'b', 'c']).past ⟨0⟩ commands) := by
  decide +kernel

end EditHistory
