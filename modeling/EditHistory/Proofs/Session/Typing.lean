/-
Typing in pieces.

A text that is typed piece by piece leaves a document, its markers and the recorder as they
are when it is typed at once.  Only the tick of the changes tells the two apart, because
every piece is a change.

All that a change does besides the edit is done by the first piece: it opens the unit, it is
announced, it notes the first change and the cursor, and it gets an entry or lengthens one.
The second piece finds the document modified and its unit open, and on top of the log an
insertion that ends where the cursor is, so there is nothing left to do but make that
insertion longer.  That is `Recording.afterInsert_afterInsert`.  What stands at the cursor
moves with both pieces or with neither, since the first leaves it behind its text or before.

The document is modified after the first piece only if it was not saved ahead of its changes.
No call does that, and so no session that sets the ticks by its calls alone.
-/
import EditHistory.Proofs.Session.Arguments
import EditHistory.Proofs.Session.FirstChanges

namespace EditHistory

/-! ### One insertion after the other -/

theorem Offset.afterInsert_afterInsert {start length length' pos : Nat} {advances : Bool}
    (hlength : 0 < length) :
    afterInsert (start + length) length' advances (afterInsert start length advances pos)
      = afterInsert start (length + length') advances pos := by
  unfold afterInsert
  by_cases h : start < pos ∨ (pos = start ∧ advances = true)
  · rw [if_pos h, if_pos h, if_pos ?_, Nat.add_assoc]
    exact h.imp (fun h => by omega) fun h => ⟨by omega, h.2⟩
  · rw [if_neg h, if_neg h, if_neg (by omega)]

theorem Offset.le_afterInsert {start length pos : Nat} {advances : Bool} :
    pos ≤ afterInsert start length advances pos := by
  unfold afterInsert
  split <;> omega

theorem Text.spliced_spliced {text added added' : Text} {offset : Nat} (h : offset ≤ text.length) :
    (text.spliced offset added).spliced (offset + added.length) added'
      = text.spliced offset (added ++ added') := by
  have hlength : (text.take offset ++ added).length = offset + added.length := by
    rw [List.length_append, List.length_take, Nat.min_eq_left h]
  unfold spliced
  rw [List.take_left' hlength, List.drop_left' hlength, List.append_assoc (text.take offset)]

theorem MarkerTable.mem_ofDoc_move {doc : DocId} {f : Marker → Nat} {table : MarkerTable}
    {m : MarkerId × Marker} (h : m ∈ table.ofDoc doc) :
    (m.1, { m.2 with position := f m.2 }) ∈ (table.move doc f).ofDoc doc := by
  obtain ⟨hget, howner⟩ := mem_ofDoc.mp h
  refine mem_ofDoc.mpr ⟨?_, howner⟩
  rw [get?_move, hget]
  exact congrArg some (if_pos howner)

theorem MarkerTable.afterInsert_afterInsert {doc : DocId} {start length length' : Nat}
    {table : MarkerTable} (hlength : 0 < length) :
    (table.afterInsert doc start length).afterInsert doc (start + length) length'
      = table.afterInsert doc start (length + length') := by
  unfold afterInsert move
  rw [List.map_map]
  refine congrArg MarkerTable.mk (List.map_congr_left fun m _ => ?_)
  by_cases howner : m.owner = some doc
  · simp only [Function.comp_apply, if_pos howner, Offset.afterInsert_afterInsert hlength]
  · simp only [Function.comp_apply, if_neg howner]

theorem Span.afterInsert_afterInsert {start length length' : Nat} {span : Span}
    (hlength : 0 < length) :
    (span.afterInsert start length).afterInsert (start + length) length'
      = span.afterInsert start (length + length') := by
  simp only [afterInsert, Offset.afterInsert_afterInsert hlength]

namespace Recording

variable {v v' : View} {pos start stop stop' length length' : Nat} {r : Recording}

/-- A change has begun: its document has a unit open, and was announced. -/
def Begun (v : View) (r : Recording) : Prop :=
  r.recorder.pending = some v.doc ∧ r.log.announced = true

theorem begun_beginChange (v : View) (r : Recording) : (r.beginChange v).Begun v := by
  unfold beginChange Recorder.notify
  split
  · rename_i hannounced
    exact ⟨rfl, hannounced⟩
  · dsimp only
    split <;> exact ⟨rfl, rfl⟩

theorem beginChange_of_begun (h : r.Begun v) : r.beginChange v = r := by
  obtain ⟨⟨settings, lastBoundary, pending, hook, listening, sent⟩, log⟩ := r
  obtain ⟨hpending, hannounced⟩ := h
  dsimp only at hpending hannounced
  subst hpending
  unfold beginChange
  rw [if_pos hannounced]

theorem Begun.noteFirstChange (h : r.Begun v) : (r.noteFirstChange v).Begun v := by
  unfold Recording.noteFirstChange
  split <;> exact h

theorem begun_notePoint (hin : r.recorder.settings.inhibitPoint = false) :
    (r.notePoint v pos).Begun v := by
  have hnoted := (begun_beginChange v r).noteFirstChange
  unfold notePoint
  rw [if_neg (by simp [hin])]
  dsimp only
  split
  · split <;> exact hnoted
  · exact hnoted

/-- On top of the log is then an insertion that ends where the new text does. -/
theorem extendInsertion_eq (start : Nat) (r : Recording) : ∃ first older, ∀ stop,
    r.extendInsertion start stop
      = { r with log := { r.log with entries := .insertion first stop :: older } } := by
  by_cases h : ∃ first older, r.log.entries = .insertion first start :: older
  · obtain ⟨first, older, hentries⟩ := h
    refine ⟨first, older, fun stop => ?_⟩
    unfold extendInsertion
    rw [hentries]
    exact if_pos rfl
  · refine ⟨start, r.log.entries, fun stop => ?_⟩
    unfold extendInsertion
    split
    · rename_i first last older hentries
      refine if_neg fun hlast => ?_
      subst hlast
      exact h ⟨first, older, hentries⟩
    · rfl

/-- With a change begun in a modified document there is nothing to note. -/
theorem notePoint_of_begun (hdirty : ¬v.ticks.Clean)
    (hbegun : r.recorder.settings.inhibitPoint = false → r.Begun v)
    (hopen : r.log.atBoundary = false) : r.notePoint v pos = r := by
  unfold notePoint
  cases hin : r.recorder.settings.inhibitPoint with
  | true => rfl
  | false =>
      have hnoted : r.noteFirstChange v = r := noteFirstChange_of_noted fun h => hdirty h.1
      rw [if_neg (by simp), beginChange_of_begun (hbegun hin)]
      dsimp only
      rw [hnoted, hopen]

/--
Of two insertions, one where the other ended, the second makes the first longer and does
nothing else, if the first has modified the document.
-/
theorem afterInsert_afterInsert (hdoc : v'.doc = v.doc) (hdirty : ¬v'.ticks.Clean) :
    (r.afterInsert v start length).afterInsert v' (start + length) length'
      = r.afterInsert v start (length + length') := by
  obtain ⟨first, older, hextend⟩ := extendInsertion_eq start (r.notePoint v start)
  have hnoted : (r.afterInsert v start length).notePoint v' (start + length)
      = r.afterInsert v start length := by
    rw [afterInsert, hextend]
    refine notePoint_of_begun hdirty (fun hin => ?_) rfl
    have hkeeps := (adds_notePoint v start r).keeps
    have hbegun : (r.notePoint v start).Begun v := begun_notePoint (hkeeps.settings ▸ hin)
    unfold Begun
    rw [hdoc]
    exact hbegun
  rw [afterInsert, hnoted, afterInsert, hextend, afterInsert, hextend, ← Nat.add_assoc]
  exact if_pos rfl

end Recording

/-! ### Typing -/

namespace Editing

variable {s t : Editing Document} {added added' : Text}

/-- After text was typed at the cursor, whether or not that was recorded. -/
def typing (added : Text) (s : Editing Document) : Editing Document :=
  (s.recorded (s.recording.whenOn
    (s.recording.afterInsert s.view s.doc.point added.length))).withInsertion s.doc.point added

/-- The moment, but that the last change of the document was made at another tick. -/
def atTick (tick : Nat) (s : Editing Document) : Editing Document :=
  { s with doc := { s.doc with ticks := { s.doc.ticks with modified := tick } } }

theorem point_le_typing (h : s.doc.point ≤ s.doc.text.length) :
    (s.typing added).doc.point ≤ (s.typing added).doc.text.length :=
  point_le_withInsertion (s := s.recorded _) h

/-- Two insertions, one where the other ended, edit the document as one does. -/
theorem withInsertion_withInsertion {start : Nat} (hne : added ≠ [])
    (hstart : start ≤ s.doc.text.length) :
    (s.withInsertion start added).withInsertion (start + added.length) added'
      = (s.withInsertion start (added ++ added')).atTick (s.doc.ticks.modified + 2) := by
  have hlength : 0 < added.length := List.length_pos_iff.mpr hne
  have hspans : (s.doc.spans.map (·.afterInsert start added.length)).map
      (·.afterInsert (start + added.length) added'.length)
        = s.doc.spans.map (·.afterInsert start (added.length + added'.length)) := by
    rw [List.map_map]
    exact List.map_congr_left fun span _ => Span.afterInsert_afterInsert hlength
  simp only [withInsertion, atTick, Document.touch, Text.spliced_spliced hstart,
    MarkerTable.afterInsert_afterInsert hlength, hspans, List.length_append, Nat.add_assoc]

/-- What is typed where typing ended could have been typed with what was typed before. -/
theorem typing_typing (hne : added ≠ []) (hpoint : s.doc.point ≤ s.doc.text.length)
    (hticks : s.doc.ticks.saved ≤ s.doc.ticks.modified) :
    (s.typing added).typing added'
      = (s.typing (added ++ added')).atTick (s.doc.ticks.modified + 2) := by
  have hdoc : (s.typing added).view.doc = s.view.doc := rfl
  have hdirty : ¬(s.typing added).view.ticks.Clean := Nat.not_le.mpr (Nat.lt_succ_of_le hticks)
  have hrecording : (s.typing added).recording.whenOn ((s.typing added).recording.afterInsert
      (s.typing added).view (s.doc.point + added.length) added'.length)
        = s.recording.whenOn
            (s.recording.afterInsert s.view s.doc.point (added ++ added').length) := by
    have htyped := Recording.whenOn_whenOn (r := s.recording.afterInsert s.view s.doc.point
      added.length) (·.afterInsert (s.typing added).view (s.doc.point + added.length)
        added'.length) (keeps_inserting added s).disabled
    rw [Recording.afterInsert_afterInsert hdoc hdirty, ← List.length_append] at htyped
    exact htyped
  show ((s.typing added).recorded ((s.typing added).recording.whenOn
    ((s.typing added).recording.afterInsert (s.typing added).view (s.doc.point + added.length)
      added'.length))).withInsertion (s.doc.point + added.length) added' = _
  rw [hrecording]
  exact withInsertion_withInsertion (s := s.recorded _) hne hpoint

/-- The moment after the pieces were typed one after the other. -/
def typingAll (pieces : List Text) (s : Editing Document) : Editing Document :=
  pieces.foldl (fun s piece => s.typing piece) s

theorem typingAll_cons (piece : Text) (rest : List Text) (s : Editing Document) :
    s.typingAll (piece :: rest) = (s.typing piece).typingAll rest := rfl

/-- Typing pieces is typing the text that they make up. -/
theorem typingAll_eq (pieces : List Text) (hpieces : pieces ≠ [])
    (hne : ∀ piece ∈ pieces, piece ≠ [])
    (hpoint : s.doc.point ≤ s.doc.text.length)
    (hticks : s.doc.ticks.saved ≤ s.doc.ticks.modified) :
    s.typingAll pieces
      = (s.typing pieces.flatten).atTick (s.doc.ticks.modified + pieces.length) := by
  induction pieces generalizing s with
  | nil => exact absurd rfl hpieces
  | cons piece rest ih =>
      obtain ⟨hpiece, hrest⟩ := List.forall_mem_cons.mp hne
      rw [typingAll_cons, List.flatten_cons]
      by_cases hlast : rest = []
      · subst hlast
        rw [List.flatten_nil, List.append_nil]
        rfl
      · have hticks' : (s.typing piece).doc.ticks.saved ≤ (s.typing piece).doc.ticks.modified :=
          Nat.le_succ_of_le hticks
        rw [ih hlast hrest (point_le_typing hpoint) hticks', typing_typing hpiece hpoint hticks]
        have htick : (s.typing piece).doc.ticks.modified + rest.length
            = s.doc.ticks.modified + (piece :: rest).length := by
          show s.doc.ticks.modified + 1 + rest.length = _
          rw [List.length_cons, Nat.add_assoc, Nat.add_comm 1]
        rw [htick]
        rfl

/-- Typing takes nothing back into the range of words. -/
theorem inRange_of_typing (h : Document.InRange (s.typing added)) : Document.InRange s := by
  obtain ⟨hpoint, htick, hmarkers, hspans⟩ := h
  have hle {advances : Bool} {pos : Nat}
      (h : Offset.Fits (Offset.afterInsert s.doc.point added.length advances pos)) :
      Offset.Fits pos := Nat.lt_of_le_of_lt Offset.le_afterInsert h
  refine ⟨Nat.lt_of_le_of_lt (Nat.le_add_right _ _) hpoint,
    Nat.lt_of_le_of_lt (Nat.le_succ _) htick, fun m hm => ?_, fun span hspan => ?_⟩
  · exact hle (hmarkers _ (MarkerTable.mem_ofDoc_move hm))
  · obtain ⟨hstart, hstop⟩ := hspans _ (List.mem_map_of_mem hspan)
    exact ⟨hle hstart, hle hstop⟩

theorem inRange_of_typingAll (pieces : List Text) (h : Document.InRange (s.typingAll pieces)) :
    Document.InRange s := by
  induction pieces generalizing s with
  | nil => exact h
  | cons piece rest ih => exact inRange_of_typing (ih h)

end Editing

theorem EditM.bind_eq_ok {act next : EditM Document Unit} {s t : Editing Document}
    (h : (do act; next) s = .ok () t) : ∃ s₁, act s = .ok () s₁ ∧ next s₁ = .ok () t := by
  cases hact : act s with
  | ok a s₁ => exact ⟨s₁, rfl, by simpa only [bind_ok hact] using h⟩
  | error e s₁ =>
      rw [bind_error hact] at h
      cases h

namespace Document

variable {s t : Editing Document} {added : Text}

/-- An insertion succeeds if every sum is a word. -/
theorem insert_eq_ok_iff (hne : added ≠ []) (hpoint : s.doc.point ≤ s.doc.text.length) :
    insert added s = .ok () t ↔ InRange (s.typing added) ∧ t = s.typing added := by
  have hcomes : ComesTo (insert added) s (s.typing added) := comesTo_insert hne hpoint
  have hedit (r : Recording) : insertText s.doc.point added (s.recorded r)
      = checked ((s.recorded r).withInsertion s.doc.point added) := insertText_eq hpoint
  constructor
  · intro hrun
    refine ⟨Classical.byContradiction fun hrange => ?_, (hcomes.eq_of_endsAt (Or.inl ⟨(), hrun⟩)).2⟩
    have hrecord : ComesTo (EditM.record (Recording.recordInsert s.doc.point added.length)) s _ :=
      EditM.comesTo_record (Recording.comesTo_recordInsert _ _ _ _)
    rw [insert_run hne] at hrun
    rcases hrecord with hrecord | ⟨fault, s', hrecord⟩
    · rw [EditM.bind_ok hrecord,
        EditM.apply_error ((hedit _).trans (checked_overflow hrange))] at hrun
      cases hrun
    · rw [EditM.bind_error hrecord] at hrun
      cases hrun
  · rintro ⟨hrange, rfl⟩
    have hfits : Offset.Fits (s.doc.point + added.length) := hrange.1
    obtain ⟨t, hrun⟩ := (EditM.records_record (Recording.accepted_recordInsert hfits)).succeeds
      (·.withInsertion s.doc.point added) hedit fun _ => hrange
    rw [← insert_run hne] at hrun
    rw [hrun, (hcomes.eq_of_endsAt (Or.inl ⟨(), hrun⟩)).2]

/-- Pieces are typed one after the other if every sum is a word to the last. -/
theorem forM_insert_eq_ok_iff {pieces : List Text} (hpieces : pieces ≠ [])
    (hne : ∀ piece ∈ pieces, piece ≠ []) (hpoint : s.doc.point ≤ s.doc.text.length) :
    pieces.forM insert s = .ok () t ↔ InRange (s.typingAll pieces) ∧ t = s.typingAll pieces := by
  induction pieces generalizing s with
  | nil => exact absurd rfl hpieces
  | cons piece rest ih =>
      obtain ⟨hpiece, hrest⟩ := List.forall_mem_cons.mp hne
      have hrun : (piece :: rest).forM insert s = .ok () t ↔
          insert piece s = .ok () (s.typing piece) ∧ rest.forM insert (s.typing piece) = .ok () t := by
        constructor
        · intro h
          obtain ⟨s₁, hfirst, hothers⟩ := EditM.bind_eq_ok h
          obtain ⟨-, rfl⟩ := (insert_eq_ok_iff hpiece hpoint).mp hfirst
          exact ⟨hfirst, hothers⟩
        · rintro ⟨hfirst, hothers⟩
          exact (EditM.bind_ok hfirst).trans hothers
      rw [hrun, insert_eq_ok_iff hpiece hpoint, Editing.typingAll_cons]
      by_cases hlast : rest = []
      · subst hlast
        simp only [and_true]
        exact and_congr_right fun _ => ⟨fun h => (EStateM.Result.ok.inj h).2.symm, fun h => h ▸ rfl⟩
      · rw [ih hlast hrest (Editing.point_le_typing hpoint)]
        have hfirst := Editing.inRange_of_typingAll (s := s.typing piece) rest
        exact ⟨fun h => h.2, fun h => ⟨⟨hfirst h.1, rfl⟩, h⟩⟩

/-- The pieces can be typed if the text can, and the text if the pieces can; both lead there. -/
theorem insert_pieces {pieces : List Text} (hne : ∀ piece ∈ pieces, piece ≠ [])
    (hpoint : s.doc.point ≤ s.doc.text.length)
    (hticks : s.doc.ticks.saved ≤ s.doc.ticks.modified) :
    (∀ t, insert pieces.flatten s = .ok () t →
      Offset.Fits (s.doc.ticks.modified + pieces.length) →
      pieces.forM insert s = .ok () (t.atTick (s.doc.ticks.modified + pieces.length))) ∧
    ∀ t', pieces.forM insert s = .ok () t' → ∃ t, insert pieces.flatten s = .ok () t ∧
      t' = t.atTick (s.doc.ticks.modified + pieces.length) := by
  by_cases hpieces : pieces = []
  · subst hpieces
    refine ⟨fun t h _ => ?_, fun t' h => ⟨s, rfl, ?_⟩⟩
    · obtain rfl := (EStateM.Result.ok.inj h).2
      rfl
    · obtain rfl := (EStateM.Result.ok.inj h).2
      rfl
  · have hflat : pieces.flatten ≠ [] := by
      obtain ⟨piece, hpiece⟩ := List.exists_mem_of_ne_nil pieces hpieces
      exact fun h => hne piece hpiece (List.flatten_eq_nil_iff.mp h piece hpiece)
    have hall := Editing.typingAll_eq pieces hpieces hne hpoint hticks
    refine ⟨fun t h hfits => ?_, fun t' h => ?_⟩
    · obtain ⟨hrange, rfl⟩ := (insert_eq_ok_iff hflat hpoint).mp h
      rw [forM_insert_eq_ok_iff hpieces hne hpoint, hall]
      exact ⟨⟨hrange.1, hfits, hrange.2.2⟩, rfl⟩
    · obtain ⟨hrange, rfl⟩ := (forM_insert_eq_ok_iff hpieces hne hpoint).mp h
      rw [hall] at hrange
      have htick : s.doc.ticks.modified + 1 ≤ s.doc.ticks.modified + pieces.length :=
        Nat.add_le_add_left (List.length_pos_iff.mpr hpieces) _
      have hwhole : InRange (s.typing pieces.flatten) :=
        ⟨hrange.1, Nat.lt_of_le_of_lt htick hrange.2.1, hrange.2.2⟩
      exact ⟨_, (insert_eq_ok_iff hflat hpoint).mpr ⟨hwhole, rfl⟩, hall⟩

end Document

/-! ### Sessions -/

/-- No call saves a document ahead of its changes. -/
theorem Call.saved_le_after {c : Call} {s : Editing Document}
    (h : s.doc.ticks.saved ≤ s.doc.ticks.modified) :
    (c.after s).doc.ticks.saved ≤ (c.after s).doc.ticks.modified := by
  by_cases hc : c.unmodifies = false
  · rw [(c.ticked s hc).saved]
    exact Nat.le_trans h (c.modified_le_after s)
  · cases c with
    | revisit modtime =>
        simp only [after]
        split
        · exact Nat.le_refl _
        · exact h
    | markSaved modtime => exact Nat.le_refl _
    | markUnmodified => exact Nat.le_refl _
    | _ => exact absurd rfl hc

namespace Workspace

variable {start : Workspace} {id : DocId} {first s : Editing Document} {commands : List Command}

/-- A document whose ticks nobody sets by hand is not saved ahead of its changes. -/
theorem saved_le_later (hsound : start.Sound) (hfirst : start.moment? id = some first)
    (hticks : first.doc.ticks.saved ≤ first.doc.ticks.modified)
    (hunbroken : start.Unbroken commands)
    (hcommands : ∀ c ∈ commands, c.setsTicks id = false)
    (hs : (start.later commands).moment? id = some s) :
    s.doc.point ≤ s.doc.text.length ∧ s.doc.ticks.saved ≤ s.doc.ticks.modified := by
  let Inv (now : Editing Document) (_ : List Event) : Prop :=
    now.doc.point ≤ now.doc.text.length ∧ now.doc.ticks.saved ≤ now.doc.ticks.modified
  have hinit : Inv first [] := ⟨(hsound.inPlace id _ (moment?_eq_some.mp hfirst).1).2, hticks⟩
  have hcall : ∀ call s past s', Inv s past → Call.Leads call s s' →
      Inv s' ({ before := s, what := .call call } :: past) := by
    rintro call s past s' ⟨hpoint, hsaved⟩ hleads
    refine ⟨hleads.point_le hpoint, ?_⟩
    rw [hleads.eq_outcome hpoint, Call.ticks_outcome]
    exact call.saved_le_after hsaved
  have hturn : ∀ c ∈ commands, ∀ s past s', Inv s past → Turn id c s s' →
      Inv s' ({ before := s, what := c.rest id } :: past) := by
    rintro c hc s past s' ⟨hpoint, hsaved⟩ hturn
    refine ⟨?_, by rwa [hturn.ticks (hcommands c hc)]⟩
    rw [hturn.doc]
    exact hpoint
  obtain ⟨now, hnow, hinv⟩ := past_turns Inv hsound hfirst hunbroken hinit hcall hturn
  obtain rfl := Option.some.inj (hnow.symm.trans hs)
  exact hinv

/--
**Typing granularity does not matter.**  After any commands, none of which sets the ticks of
the document by hand, let a text be cut into pieces, none of them empty.  If the text can be
inserted at once, and no tick is too large for a word, the pieces can be inserted one after
the other; and if they can be, so can the text.  Both ways lead to the same moment: the same
text, cursor, properties, markers and log, and the same recorder, with the notices that it
sent.  Only the tick of the changes differs, which the pieces count.
-/
theorem typing_in_pieces (hsound : start.Sound) (hfirst : start.moment? id = some first)
    (hticks : first.doc.ticks.saved ≤ first.doc.ticks.modified)
    (hunbroken : start.Unbroken commands)
    (hcommands : ∀ c ∈ commands, c.setsTicks id = false)
    (hs : (start.later commands).moment? id = some s)
    (pieces : List Text) (hne : ∀ piece ∈ pieces, piece ≠ []) :
    (∀ t, Document.insert pieces.flatten s = .ok () t →
      Offset.Fits (s.doc.ticks.modified + pieces.length) →
      pieces.forM Document.insert s
        = .ok () (t.atTick (s.doc.ticks.modified + pieces.length))) ∧
    ∀ t', pieces.forM Document.insert s = .ok () t' →
      ∃ t, Document.insert pieces.flatten s = .ok () t ∧
        t' = t.atTick (s.doc.ticks.modified + pieces.length) := by
  obtain ⟨hpoint, hsaved⟩ := saved_le_later hsound hfirst hticks hunbroken hcommands hs
  exact Document.insert_pieces hne hpoint hsaved

/-- Behind a saved text three characters are typed in two pieces; one entry is made of them. -/
theorem typing_in_pieces_after_save :
    let commands : List Command :=
      [.sheet ⟨0⟩ .insertBoundary, .document ⟨0⟩ (.markSaved 5), .document ⟨0⟩ (.insert ['x'])]
    ∃ s t, ((ofText []).later commands).moment? ⟨0⟩ = some s ∧
      Document.insert ['a', 'b', 'c'] s = .ok () t ∧
      [['a'], ['b', 'c']].forM Document.insert s = .ok () (t.atTick 3) ∧
      t.doc.log.entries
        = [.insertion 1 4, .firstChange (some 5), .boundary, .insertion 0 1, .firstChange none] := by
  intro commands
  have hfirst : (ofText []).moment? ⟨0⟩ = some ⟨.ofSettings {}, {}, .ofText ⟨0⟩ []⟩ := rfl
  have hunbroken : (ofText []).Unbroken commands := by decide +kernel
  exact ⟨_, _, rfl, rfl,
    (typing_in_pieces (sound_ofText []) hfirst (Nat.le_refl 0) hunbroken (by decide) rfl
      [['a'], ['b', 'c']] (by decide)).1 _ rfl (by decide), rfl⟩

end Workspace

end EditHistory
