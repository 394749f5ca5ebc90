/-
One first change for each time a document was clean.

A change that finds the document clean records that, and only then is the document
touched.  Several recordings may go into one change, and each finds the document clean: a
replacement is a deletion and an insertion, and a property may be recorded run by run.
What keeps the later ones from noting it again is the tick that the log has marked.

So a marked tick must not stand in the way of the next change that finds the document
clean.  It does not, because a tick is over once it was marked: the change that marked it
has touched the document since.  `Timely` says so; a save moves the other tick, the log's
own operations forget the marked tick at most, and an undo is a run of calls.
-/
import EditHistory.Proofs.Session.Turns
import EditHistory.Proofs.Undo.Modified

namespace EditHistory

variable {id : DocId} {s s' : Editing Document} {c : Call}

/-! ### Marked ticks -/

/-- The cursor is in the text, and the tick that the log has marked is over. -/
structure Editing.Timely (s : Editing Document) : Prop where
  point_le : s.doc.point ≤ s.doc.text.length
  marked : ∀ tick, s.doc.log.markedTick = some tick → tick < s.doc.ticks.modified

/-- Setting a document to unmodified leaves its log alone, and the tick of its changes. -/
theorem Call.unmodifies_keeps (hc : c.unmodifies = true) (s : Editing Document) :
    (c.after s).doc.log = s.doc.log ∧
      (c.after s).doc.ticks.modified = s.doc.ticks.modified := by
  cases c with
  | revisit modtime =>
      simp only [after]
      split <;> exact ⟨rfl, rfl⟩
  | markSaved modtime => exact ⟨rfl, rfl⟩
  | markUnmodified => exact ⟨rfl, rfl⟩
  | _ => cases hc

theorem Call.marked_after
    (h : ∀ tick, s.doc.log.markedTick = some tick → tick < s.doc.ticks.modified) :
    ∀ tick, (c.after s).doc.log.markedTick = some tick → tick < (c.after s).doc.ticks.modified := by
  by_cases hc : c.unmodifies = false
  · exact (c.ticked s hc).marked h
  · obtain ⟨hlog, hmodified⟩ := c.unmodifies_keeps (by simpa using hc) s
    rw [hlog, hmodified]
    exact h

/-- No call turns the tick of the changes back. -/
theorem Call.modified_le_after (c : Call) (s : Editing Document) :
    s.doc.ticks.modified ≤ (c.after s).doc.ticks.modified := by
  by_cases hc : c.unmodifies = false
  · rcases (c.ticked s hc).modified with ⟨hm, -⟩ | ⟨hm, -⟩
    · exact Nat.le_of_eq hm.symm
    · rw [hm]
      exact Nat.le_succ _
  · exact Nat.le_of_eq (c.unmodifies_keeps (by simpa using hc) s).2.symm

namespace Editing.Timely

theorem call (h : s.Timely) (hleads : c.Leads s s') : s'.Timely := by
  refine ⟨hleads.point_le h.point_le, fun tick htick => ?_⟩
  rw [hleads.eq_outcome h.point_le] at htick ⊢
  rw [Call.ticks_outcome]
  unfold Call.outcome at htick
  split at htick
  · exact Nat.lt_of_lt_of_le (h.marked tick htick) (c.modified_le_after s)
  · exact Call.marked_after h.marked tick htick

theorem turn {command : Command} (h : s.Timely) (hturn : Turn id command s s')
    (hlog : command.writesLog id = false) (hticks : command.setsTicks id = false) : s'.Timely := by
  refine ⟨?_, fun tick htick => ?_⟩
  · rw [hturn.doc]
    exact h.point_le
  · rw [hturn.ticks hticks]
    rcases (hturn.log hlog).markedTick with hmark | hmark
    · exact h.marked tick (hmark.symm.trans htick)
    · cases hmark.symm.trans htick

/-- A change of a clean document is noted, and one of a modified document is not. -/
theorem unnoted_iff (h : s.Timely) :
    Recording.Unnoted s.view s.recording ↔ s.doc.ticks.Clean :=
  ⟨fun hunnoted => hunnoted.1,
    fun hclean => ⟨hclean, fun hmark => Nat.lt_irrefl _ (h.marked _ hmark)⟩⟩

theorem firstChanges_eq (h : s.Timely) : Recording.firstChanges s.view s.recording
    = if s.doc.ticks.Clean then [.firstChange s.doc.modtime] else [] := by
  unfold Recording.firstChanges
  simp only [h.unnoted_iff]
  rfl

end Editing.Timely

/-! ### What a change pushes -/

/--
`new` is `old` with the entries `pushed` on top, newest first.  A change that makes the
newest insertion longer pushes nothing.
-/
inductive Log.Grows : (pushed old new : List Entry) → Prop
  | pushed (pushed old : List Entry) : Grows pushed old (pushed ++ old)
  | lengthened (first last stop : Nat) (older : List Entry) :
      Grows [] (.insertion first last :: older) (.insertion first stop :: older)

theorem Recording.Adds.grows {new : List Entry} {r r' : Recording} (h : Adds new r r') :
    Log.Grows new r.log.entries r'.log.entries := by
  rw [h.entries]
  exact .pushed _ _

/-- The entry notes no first change. -/
def Entry.IsOther (e : Entry) : Prop := ∀ modtime, e ≠ .firstChange modtime

namespace Recording

variable {v : View} {r : Recording} {pos start length : Nat}

/-- Of a preamble the oldest entry may note a first change. -/
theorem preamble_eq (v : View) (pos : Nat) (r : Recording) :
    ∃ newer : List Entry, (∀ e ∈ newer, e.IsOther) ∧ preamble v pos r
      = newer ++ if r.recorder.settings.inhibitPoint then [] else firstChanges v r := by
  unfold preamble
  by_cases hin : r.recorder.settings.inhibitPoint = true
  · exact ⟨[], nofun, by rw [if_pos hin, if_pos hin]; rfl⟩
  · refine ⟨pointMoves v pos r, fun e he modtime => ?_, by rw [if_neg hin, if_neg hin]⟩
    unfold pointMoves at he
    split at he
    · split at he
      · cases he
      · rw [List.mem_singleton.mp he]
        nofun
    · cases he

theorem length_extendInsertion (start stop : Nat) (r : Recording) :
    r.log.entries.length ≤ (r.extendInsertion start stop).log.entries.length := by
  have hpush := (Adds.push (.insertion start stop) r).entries
  unfold extendInsertion
  split
  · rename_i hentries
    split
    · rw [hentries]
      exact Nat.le_refl _
    · rw [hpush]
      exact Nat.le_succ _
  · rw [hpush]
    exact Nat.le_succ _

/-- An insertion is recorded by an entry of its own, unless there is nothing else to record. -/
theorem grows_afterInsert (v : View) (start length : Nat) (r : Recording) :
    Log.Grows (.insertion start (start + length) :: preamble v start r) r.log.entries
        (r.afterInsert v start length).log.entries ∨
      (preamble v start r = [] ∧
        Log.Grows [] r.log.entries (r.afterInsert v start length).log.entries) := by
  rcases adds_or_lengthens_afterInsert v start length r with h | ⟨first, older, hold, hnew, -⟩
  · exact Or.inl h.grows
  · refine Or.inr ⟨?_, by rw [hold, hnew]; exact .lengthened _ _ _ _⟩
    have hle := length_extendInsertion start (start + length) (r.notePoint v start)
    rw [(adds_notePoint v start r).entries, List.length_append] at hle
    have hsame : (r.afterInsert v start length).log.entries.length = r.log.entries.length := by
      rw [hold, hnew]
      rfl
    exact List.length_eq_zero_iff.mp (by unfold afterInsert at hsame; omega)

end Recording

/-- The call puts a property. -/
def Call.putsProperty : Call → Bool
  | .putProperty .. | .restoreProperty _ => true
  | _ => false

/--
The first change that is to be noted by a call that changes something.  While points are
not recorded, only properties that are put note it.
-/
def Call.noted (c : Call) (s : Editing Document) : List Entry :=
  if s.doc.ticks.Clean ∧ (s.recorder.settings.inhibitPoint = false ∨ c.putsProperty = true) then
    [.firstChange s.doc.modtime]
  else []

theorem Call.noted_of_putsProperty (hs : s.Timely) (hc : c.putsProperty = true) :
    Recording.firstChanges s.view s.recording = c.noted s := by
  unfold noted
  rw [hs.firstChanges_eq, hc]
  simp

/-- What another call notes is the oldest of what it pushes before its own entries. -/
theorem Call.noted_of_not_putsProperty (hs : s.Timely) (hc : c.putsProperty = false) :
    (if s.recorder.settings.inhibitPoint then [] else Recording.firstChanges s.view s.recording)
      = c.noted s := by
  unfold noted
  rw [hs.firstChanges_eq, hc]
  cases s.recorder.settings.inhibitPoint <;> simp

namespace Editing

variable {start stop : Nat} {name : String} {value : Json}

/-- A property that differs somewhere has runs to be recorded. -/
theorem changedRuns_ne_nil (h : s.doc.Differs start stop name value) (hspan : start ≤ stop) :
    s.doc.changedRuns start stop name value ≠ [] := by
  obtain ⟨-, pos, hstart, hstop, hdiffers⟩ := h
  intro hnil
  have htells := Document.runsTell_changedRuns s.doc hspan name value
  rw [hnil] at htells
  exact hdiffers (htells.rest pos hstart hstop nofun)

theorem grows_afterProperty (h : s.doc.Differs start stop name value) :
    ∃ newer, (∀ e ∈ newer, e.IsOther) ∧
      Log.Grows (newer ++ Recording.firstChanges s.view s.recording) s.doc.log.entries
        (s.afterProperty start stop name value).doc.log.entries := by
  have hspan : start ≤ stop := by
    obtain ⟨-, pos, hstart, hstop, -⟩ := h
    omega
  have hruns := changedRuns_ne_nil h hspan
  unfold afterProperty
  rw [if_pos ⟨hspan, h.1, hruns⟩]
  refine ⟨_, fun e he => ?_, (Recording.adds_recordedRuns s.view name _ s.recording hruns).grows⟩
  obtain ⟨run, -, rfl⟩ := List.mem_map.mp (List.mem_reverse.mp he)
  exact fun _ h => by cases h

end Editing

/-- The log grows by entries that note no first change and, below them, the one to be noted. -/
theorem Call.grows_after (hs : s.Timely) (hc : c.Changes s) :
    ∃ newer, (∀ e ∈ newer, e.IsOther) ∧
      Log.Grows (newer ++ c.noted s) s.doc.log.entries (c.after s).doc.log.entries := by
  -- What is pushed before a change of the text: displaced cursor, then the first change.
  have hpreamble (hputs : c.putsProperty = false) (pos : Nat) :
      ∃ newer : List Entry, (∀ e ∈ newer, e.IsOther) ∧
        Recording.preamble s.view pos s.recording = newer ++ c.noted s := by
    obtain ⟨newer, hother, hpre⟩ := Recording.preamble_eq s.view pos s.recording
    exact ⟨newer, hother, by rw [hpre, ← noted_of_not_putsProperty hs hputs]; rfl⟩
  cases c with
  | insert added =>
      rw [after, if_neg hc]
      obtain ⟨newer, hother, hpre⟩ := hpreamble rfl s.doc.point
      rcases Recording.grows_afterInsert s.view s.doc.point added.length s.recording with
        hgrows | ⟨hnil, hgrows⟩
      · rw [hpre, ← List.cons_append] at hgrows
        exact ⟨_, List.forall_mem_cons.mpr ⟨(fun _ h => by cases h), hother⟩, hgrows⟩
      · rw [hpre] at hnil
        obtain ⟨-, hnoted⟩ := List.append_eq_nil_iff.mp hnil
        rw [hnoted]
        exact ⟨[], by simp, hgrows⟩
  | deleteRange start stop =>
      have hspan : start < stop ∧ stop ≤ s.doc.text.length := hc
      rw [after, if_pos hspan]
      obtain ⟨newer, hother, hpre⟩ := hpreamble rfl (Recording.undonePoint s.view start
        (start + (s.doc.text.between start stop).length))
      have hadds := Recording.adds_afterDelete s.view start (s.doc.text.between start stop) true
        s.recording
      rw [hpre, ← List.append_assoc, ← List.cons_append] at hadds
      refine ⟨_, List.forall_mem_cons.mpr ⟨(fun _ h => by cases h),
        List.forall_mem_append.mpr ⟨fun e he => ?_, hother⟩⟩, hadds.grows⟩
      obtain ⟨marker, delta, rfl⟩ := Recording.mem_shifts he
      exact fun _ h => by cases h
  | replaceRange start new =>
      have hstop : start + new.length ≤ s.doc.text.length := hc
      rw [after, if_pos hstop]
      obtain ⟨newer, hother, hpre⟩ := hpreamble rfl (Recording.undonePoint s.view start
        (start + (s.doc.text.between start (start + new.length)).length))
      have hadds := Recording.adds_afterChange s.view start
        (s.doc.text.between start (start + new.length)) s.recording
      rw [hpre, ← List.cons_append, ← List.cons_append] at hadds
      exact ⟨_, List.forall_mem_cons.mpr ⟨(fun _ h => by cases h),
        List.forall_mem_cons.mpr ⟨(fun _ h => by cases h), hother⟩⟩, hadds.grows⟩
  | putProperty start stop name value =>
      rw [← noted_of_putsProperty hs rfl]
      exact Editing.grows_afterProperty hc
  | restoreProperty change =>
      rw [← noted_of_putsProperty hs rfl, after, if_pos hc.1]
      exact Editing.grows_afterProperty hc.2
  | _ => exact hc.elim

/-! ### Sessions -/

theorem Command.rest_ne_call (c : Command) (id : DocId) (call : Call) :
    c.rest id ≠ .call call := by
  cases c with
  | truncate target =>
      unfold rest
      dsimp only
      split <;> nofun
  | _ => nofun

namespace Workspace

variable {start : Workspace} {first : Editing Document} {commands : List Command}

/-- Every call in the past of a document was made at a timely moment, and ended. -/
theorem timely_past (hsound : start.Sound) (hfirst : start.moment? id = some first)
    (hmarked : ∀ tick, first.doc.log.markedTick = some tick → tick < first.doc.ticks.modified)
    (hunbroken : start.Unbroken commands)
    (hcommands : ∀ c ∈ commands, c.writesLog id = false ∧ c.setsTicks id = false) :
    ∀ e ∈ start.past id commands, ∀ call, e.what = .call call →
      e.before.Timely ∧ ∃ s', call.Leads e.before s' := by
  have hplace := (hsound.inPlace id _ (moment?_eq_some.mp hfirst).1).2
  let Inv (now : Editing Document) (past : List Event) : Prop :=
    now.Timely ∧ ∀ e ∈ past, ∀ call, e.what = .call call →
      e.before.Timely ∧ ∃ s', call.Leads e.before s'
  have hinit : Inv first [] := ⟨⟨hplace, hmarked⟩, fun _ h => absurd h List.not_mem_nil⟩
  have hcall : ∀ call s past s', Inv s past → Call.Leads call s s' →
      Inv s' ({ before := s, what := .call call } :: past) := by
    intro call s past s' hinv hleads
    refine ⟨hinv.1.call hleads, fun e he call' hcall => ?_⟩
    rcases List.mem_cons.mp he with rfl | he
    · cases hcall
      exact ⟨hinv.1, s', hleads⟩
    · exact hinv.2 e he call' hcall
  have hturn : ∀ c ∈ commands, ∀ s past s', Inv s past → Turn id c s s' →
      Inv s' ({ before := s, what := c.rest id } :: past) := by
    intro c hc s past s' hinv hturn
    obtain ⟨hlog, hticks⟩ := hcommands c hc
    refine ⟨hinv.1.turn hturn hlog hticks, fun e he call' hcall => ?_⟩
    rcases List.mem_cons.mp he with rfl | he
    · exact absurd hcall (c.rest_ne_call id call')
    · exact hinv.2 e he call' hcall
  obtain ⟨now, -, -, hpast⟩ := past_turns Inv hsound hfirst hunbroken hinit hcall hturn
  exact hpast

/--
One first change for each time a document was clean.  In a session that writes the log of
the document and its ticks only by its own operations, a call that changes the document
while the log is on succeeds, and pushes exactly one first-change entry if the document was
clean and points are recorded or it puts a property: older than all else that it pushes,
newer than what was there, with the modification time of the moment.  Otherwise it pushes
none.
-/
theorem one_first_change (hsound : start.Sound) (hfirst : start.moment? id = some first)
    (hmarked : ∀ tick, first.doc.log.markedTick = some tick → tick < first.doc.ticks.modified)
    (hunbroken : start.Unbroken commands)
    (hcommands : ∀ c ∈ commands, c.writesLog id = false ∧ c.setsTicks id = false) :
    ∀ e ∈ start.past id commands, ∀ call, e.what = .call call →
      e.before.doc.log.disabled = false → call.Changes e.before →
      ∃ s' newer, call.run e.before = .ok () s' ∧
        (∀ entry ∈ newer, ∀ modtime, entry ≠ .firstChange modtime) ∧
        Log.Grows (newer ++
            if e.before.doc.ticks.Clean ∧
                (e.before.recorder.settings.inhibitPoint = false ∨ call.putsProperty = true)
            then [.firstChange e.before.doc.modtime] else [])
          e.before.doc.log.entries s'.doc.log.entries := by
  intro e he call hcall hon hchanges
  obtain ⟨htimely, s', hleads⟩ :=
    timely_past hsound hfirst hmarked hunbroken hcommands e he call hcall
  obtain ⟨newer, hother, hgrows⟩ := Call.grows_after htimely hchanges
  have hrun := hleads.ok_of_changes htimely.point_le hchanges
  unfold Call.outcome at hrun
  rw [hon, if_neg (by simp)] at hrun
  exact ⟨_, newer, hrun, hother, hgrows⟩

/-- Text was typed and saved; the deletion that follows is a first change again. -/
theorem one_first_change_after_save :
    let commands : List Command := [.document ⟨0⟩ (.deleteRange 0 1),
      .document ⟨0⟩ (.markSaved 5), .document ⟨0⟩ (.insert ['a', 'b'])]
    ∃ e ∈ (ofText []).past ⟨0⟩ commands, e.what = .call (.deleteRange 0 1) ∧
      e.before.doc.ticks.Clean ∧
      ∃ s' newer, (Call.deleteRange 0 1).run e.before = .ok () s' ∧
        (∀ entry ∈ newer, ∀ modtime, entry ≠ .firstChange modtime) ∧
        Log.Grows (newer ++ [.firstChange (some 5)]) e.before.doc.log.entries
          s'.doc.log.entries := by
  intro commands
  have hlength : 1 < ((ofText []).past ⟨0⟩ commands).length := by decide +kernel
  refine ⟨((ofText []).past ⟨0⟩ commands)[1], List.getElem_mem hlength, rfl, Nat.le_refl 1, ?_⟩
  have hfirst : (ofText []).moment? ⟨0⟩ = some ⟨.ofSettings {}, {}, .ofText ⟨0⟩ []⟩ := rfl
  exact one_first_change (sound_ofText []) hfirst nofun (by decide +kernel) (by decide)
    ((ofText []).past ⟨0⟩ commands)[1] (List.getElem_mem hlength) (.deleteRange 0 1) rfl rfl
    ⟨Nat.one_pos, Nat.le_succ 1⟩

end Workspace

end EditHistory
