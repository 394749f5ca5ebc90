/-
The modified flag does not lie.

A document counts as unmodified by two comparisons: of its ticks, and, while an undo
takes back a first-change entry, of the modification time in the entry with that of
the file as it was last visited.  The second looks at no text.  It is right all the
same: the text that taking back such an entry leads to is the text last saved, if the
times agree.  This is asked of every first-change entry in the log, as an `Extra` of
its link, and a save under a new time keeps it because no entry has that time yet.

The other direction is about the first entry of a unit.  If the document was
unmodified when the unit began, and the cursor was being recorded, that entry is a
first-change entry.
-/
import EditHistory.Proofs.Undo.Text

namespace EditHistory

open Editing

variable {id : DocId} {first s s' now : Editing Document} {past : List Event} {c : Call}
  {what : Happening} {e : Event}

/-! ### Saves -/

/-- The modification times under which a document was saved in its past, the last first. -/
def saves : List Event → List Int
  | [] => []
  | e :: earlier =>
    match e.what with
    | .call (.markSaved modtime) => modtime :: saves earlier
    | _ => saves earlier

/-- The text at the last save in a past, or at the start if there was none. -/
def savedText (start : Text) : List Event → Text
  | [] => start
  | e :: earlier =>
    match e.what with
    | .call (.markSaved _) => e.before.doc.text
    | _ => savedText start earlier

/-- The modification times that a document has had for its file. -/
def visited (past : List Event) : List (Option Int) := none :: (saves past).map some

theorem saves_of_ne (h : ∀ modtime, e.what ≠ .call (.markSaved modtime)) :
    saves (e :: past) = saves past := by
  rw [saves]
  split
  · rename_i modtime hwhat
    exact absurd hwhat (h modtime)
  · rfl

theorem savedText_of_ne {start : Text} (h : ∀ modtime, e.what ≠ .call (.markSaved modtime)) :
    savedText start (e :: past) = savedText start past := by
  rw [savedText]
  split
  · rename_i modtime hwhat
    exact absurd hwhat (h modtime)
  · rfl

theorem visited_of_ne (h : ∀ modtime, e.what ≠ .call (.markSaved modtime)) :
    visited (e :: past) = visited past := by
  unfold visited
  rw [saves_of_ne h]

/-! ### Ticks -/

namespace Recording

variable {v : View} {r : Recording}

theorem markedTick_extendInsertion (start stop : Nat) (r : Recording) :
    (r.extendInsertion start stop).log.markedTick = r.log.markedTick := by
  unfold extendInsertion
  split
  · split <;> rfl
  · rfl

/-- Recording marks no tick but that of the document. -/
def Marks (v : View) (r r' : Recording) : Prop :=
  r'.log.markedTick = r.log.markedTick ∨ r'.log.markedTick = some v.ticks.modified

theorem marks_afterInsert (start length : Nat) (r : Recording) :
    Marks v r (r.afterInsert v start length) := by
  unfold Marks afterInsert
  rw [markedTick_extendInsertion]
  exact markedTick_notePoint v start r

theorem marks_afterDelete (start : Nat) (text : Text) (withMarkers : Bool) (r : Recording) :
    Marks v r (r.afterDelete v start text withMarkers) := by
  unfold Marks
  rw [markedTick_afterDelete]
  exact markedTick_notePoint v _ r

theorem marks_afterChange (start : Nat) (old : Text) (r : Recording) :
    Marks v r (r.afterChange v start old) := by
  rcases marks_afterInsert (v := v) start old.length (r.afterDelete v start old false) with h | h
  · exact (marks_afterDelete (v := v) start old false r).imp h.trans h.trans
  · exact Or.inr h

end Recording

/-- How a call that is no save and sets nothing to unmodified moves the ticks of a document. -/
structure Ticked (s s' : Editing Document) : Prop where
  saved : s'.doc.ticks.saved = s.doc.ticks.saved
  modtime : s'.doc.modtime = s.doc.modtime
  modified : (s'.doc.ticks.modified = s.doc.ticks.modified ∧ s'.doc.text = s.doc.text ∧
      s'.doc.log.markedTick = s.doc.log.markedTick) ∨
    (s'.doc.ticks.modified = s.doc.ticks.modified + 1 ∧
      Recording.Marks s.view s.recording s'.recording)

namespace Ticked

theorem refl (s : Editing Document) : Ticked s s := ⟨rfl, rfl, Or.inl ⟨rfl, rfl, rfl⟩⟩

theorem edit (hsaved : s'.doc.ticks.saved = s.doc.ticks.saved)
    (hmodified : s'.doc.ticks.modified = s.doc.ticks.modified + 1)
    (hmodtime : s'.doc.modtime = s.doc.modtime)
    (hmarks : Recording.Marks s.view s.recording s'.recording) : Ticked s s' :=
  ⟨hsaved, hmodtime, Or.inr ⟨hmodified, hmarks⟩⟩

theorem afterProperty (start stop : Nat) (name : String) (value : Json) (s : Editing Document) :
    Ticked s (s.afterProperty start stop name value) := by
  unfold Editing.afterProperty
  split
  · exact edit rfl rfl rfl (Recording.markedTick_recordedRuns _ _)
  · exact refl s

/-- A tick that is marked is over when the call is. -/
theorem marked (h : Ticked s s')
    (hmarked : ∀ tick, s.doc.log.markedTick = some tick → tick < s.doc.ticks.modified) :
    ∀ tick, s'.doc.log.markedTick = some tick → tick < s'.doc.ticks.modified := by
  intro tick htick
  rcases h.modified with ⟨hm, -, hmark⟩ | ⟨hm, hmark⟩
  · rw [hmark] at htick
    rw [hm]
    exact hmarked tick htick
  · rw [hm]
    rcases hmark with hmark | hmark
    · have := hmarked tick (hmark.symm.trans htick)
      omega
    · have hsame : some tick = some s.doc.ticks.modified := htick.symm.trans hmark
      cases hsame
      omega

end Ticked

/-- The call sets the document to unmodified. -/
def Call.unmodifies : Call → Bool
  | .markSaved _ | .markUnmodified | .revisit _ => true
  | _ => false

theorem Call.ticked (s : Editing Document) (hc : c.unmodifies = false) : Ticked s (c.after s) := by
  cases c with
  | insert added =>
      rw [after]
      split
      · exact Ticked.refl s
      · exact Ticked.edit rfl rfl rfl (Recording.marks_afterInsert _ _ _)
  | deleteRange start stop =>
      rw [after]
      split
      · exact Ticked.edit rfl rfl rfl (Recording.marks_afterDelete _ _ _ _)
      · exact Ticked.refl s
  | replaceRange start new =>
      rw [after]
      split
      · exact Ticked.edit rfl rfl rfl (Recording.marks_afterChange _ _ _)
      · exact Ticked.refl s
  | putProperty start stop name value => exact Ticked.afterProperty start stop name value s
  | restoreProperty change =>
      simp only [after]
      split
      · exact Ticked.afterProperty _ _ _ _ s
      · exact Ticked.refl s
  | boundary =>
      exact ⟨rfl, rfl, Or.inl ⟨rfl, rfl, Recording.markedTick_endUnit s.view s.recording⟩⟩
  | restoreMarker id delta =>
      rw [after, Editing.afterRestore]
      split <;> exact ⟨rfl, rfl, Or.inl ⟨rfl, rfl, rfl⟩⟩
  | dropMarker id =>
      rw [after]
      split <;> exact ⟨rfl, rfl, Or.inl ⟨rfl, rfl, rfl⟩⟩
  | setPoint pos => exact ⟨rfl, rfl, Or.inl ⟨rfl, rfl, rfl⟩⟩
  | makeMarker pos advances => exact ⟨rfl, rfl, Or.inl ⟨rfl, rfl, rfl⟩⟩
  | markSaved modtime => cases hc
  | markUnmodified => cases hc
  | revisit modtime => cases hc

theorem Call.modtime_after (s : Editing Document) (hc : ∀ modtime, c ≠ .markSaved modtime) :
    (c.after s).doc.modtime = s.doc.modtime := by
  by_cases hu : c.unmodifies = false
  · exact (c.ticked s hu).modtime
  · cases c with
    | markSaved modtime => exact absurd rfl (hc modtime)
    | markUnmodified => rfl
    | revisit modtime =>
        simp only [after]
        split <;> rfl
    | _ => exact absurd rfl hu

/-- The calls that take back an entry save nothing. -/
theorem Entry.undoCalls_ne_markSaved {e : Entry} {c : Call} (h : c ∈ e.undoCalls) (modtime : Int) :
    c ≠ .markSaved modtime := by
  rintro rfl
  cases e <;> simp [undoCalls] at h

theorem Entry.modtime_undone (e : Entry) (s : Editing Document) :
    (e.undone s).doc.modtime = s.doc.modtime := by
  have h : ∀ (calls : List Call) (s : Editing Document),
      (∀ c ∈ calls, ∀ modtime, c ≠ .markSaved modtime) →
      (calls.foldl (fun s c => c.after s) s).doc.modtime = s.doc.modtime := by
    intro calls
    induction calls with
    | nil => intro s _; rfl
    | cons c rest ih =>
        intro s hc
        rw [List.foldl_cons, ih _ fun c' hc' => hc c' (List.mem_cons_of_mem _ hc')]
        exact c.modtime_after s (hc c List.mem_cons_self)
  exact h e.undoCalls s fun c hc => undoCalls_ne_markSaved hc

/-! ### The chain of first changes -/

/--
What is asked of the entries of a document whose file has the modification time
`modtime`: a first-change entry has one of the `known` times and, if that is the
present one, leads back to the text `saved`; and a unit that began while the document
was unmodified and the cursor was being recorded begins with such an entry.
-/
def Extra.firstChange (modtime : Option Int) (saved : Text) (known : List (Option Int)) : Extra :=
  fun e begins o y =>
    (∀ time, e = .firstChange time → time ∈ known ∧ (time = modtime → y = saved)) ∧
      (begins = true → o.before.doc.ticks.Clean →
        o.before.recorder.settings.inhibitPoint = false → e = .firstChange o.before.doc.modtime)

/-- What holds of a document that started unmodified, whose file was not visited. -/
structure Honest (first : Editing Document) (past : List Event) (s : Editing Document) :
    Prop where
  sound : s.Sound
  id : s.doc.id = first.doc.id
  ordered : s.doc.ticks.saved ≤ s.doc.ticks.modified
  clean : s.doc.ticks.Clean → s.doc.text = savedText first.doc.text past
  marked : ∀ tick, s.doc.log.markedTick = some tick → tick < s.doc.ticks.modified
  modtime : s.doc.modtime ∈ visited past
  linked : ∃ z, Linked first.doc.id
    (.firstChange s.doc.modtime (savedText first.doc.text past) (visited past)) z s past

theorem Extra.lengthens_firstChange (modtime : Option Int) (saved : Text)
    (known : List (Option Int)) : (firstChange modtime saved known).Lengthens := by
  intro start stop stop' begins o y h
  refine ⟨fun time he => (by cases he), fun hb hclean hin => ?_⟩
  cases h.2 hb hclean hin

namespace Honest

theorem ready (h : Honest first past s) (hshort : s.doc.text.Short) :
    Ready first.doc.id s.doc.text s := ⟨h.sound, h.id, rfl, hshort⟩

theorem admits (h : Honest first past s) (what : Happening) :
    Extra.Admits (.firstChange s.doc.modtime (savedText first.doc.text past) (visited past)) s
      { before := s, what } where
  first := by
    intro hclean begins
    refine ⟨fun time he => ?_, fun _ _ _ => rfl⟩
    cases he
    exact ⟨h.modtime, fun _ => h.clean hclean⟩
  other := by
    intro e begins y hfirst hunmarked
    refine ⟨fun time he => absurd he (hfirst time), fun hb hclean hin => ?_⟩
    rcases hunmarked hb with hin' | hnoted
    · rw [hin] at hin'
      cases hin'
    · refine absurd ⟨hclean, fun hmark => ?_⟩ hnoted
      exact Nat.lt_irrefl _ (h.marked _ hmark)

end Honest

/-- A past in which nobody made the document unmodified but by saves, each under its own time. -/
structure Tidy (past : List Event) : Prop where
  short : ∀ e ∈ past, e.before.doc.text.Short
  plain : ∀ e ∈ past, e.Plain
  unmarked : ∀ e ∈ past, e.what.isUnmarking = false
  distinct : (saves past).Nodup

theorem Tidy.tail (h : Tidy (e :: past)) : Tidy past where
  short := fun e he => h.short e (List.mem_cons_of_mem _ he)
  plain := fun e he => h.plain e (List.mem_cons_of_mem _ he)
  unmarked := fun e he => h.unmarked e (List.mem_cons_of_mem _ he)
  distinct := by
    have hdistinct := h.distinct
    rw [saves] at hdistinct
    split at hdistinct
    · exact (List.nodup_cons.mp hdistinct).2
    · exact hdistinct

theorem Tidy.of_follow {calls : List Call} (h : Tidy (Call.follow calls s past).2) : Tidy past := by
  induction calls generalizing s past with
  | nil => exact h
  | cons c rest ih =>
      cases hrun : c.run s with
      | ok u s₁ =>
          rw [Call.follow_cons_ok hrun] at h
          exact (ih h).tail
      | error e s₁ =>
          rw [Call.follow_cons_refused hrun] at h
          exact h.tail

namespace Honest

/-- A call that sets nothing to unmodified. -/
theorem ticked (h : Honest first past s) (hshort : s.doc.text.Short)
    (hc : c.unmodifies = false) :
    Honest first ({ before := s, what := .call c } :: past) (c.after s) := by
  have hd := c.deed s
  have ht := c.ticked s hc
  have hne : ∀ modtime, Happening.call c ≠ .call (.markSaved modtime) := by
    rintro modtime hcall
    cases hcall
    cases hc
  obtain ⟨z, hlinked⟩ := h.linked
  have hordered := h.ordered
  refine ⟨h.sound.deed hd, hd.id.trans h.id, ?_, fun hclean => ?_, fun tick htick => ?_, ?_, z, ?_⟩
  · rcases ht.modified with ⟨hm, -, -⟩ | ⟨hm, -⟩
    · rw [ht.saved, hm]
      exact hordered
    · rw [ht.saved, hm]
      omega
  · rw [savedText_of_ne hne]
    unfold Ticks.Clean at hclean
    rcases ht.modified with ⟨hm, htext, -⟩ | ⟨hm, -⟩
    · rw [htext]
      rw [ht.saved, hm] at hclean
      exact h.clean hclean
    · rw [ht.saved, hm] at hclean
      omega
  · exact ht.marked h.marked tick htick
  · rw [ht.modtime, visited_of_ne hne]
    exact h.modtime
  · rw [ht.modtime, savedText_of_ne hne, visited_of_ne hne]
    exact hlinked.deed (h.ready hshort) (h.admits _) (Extra.lengthens_firstChange _ _ _) hd

/-- A save makes the text of the moment the one that was saved; no entry has its time yet. -/
theorem markSaved (h : Honest first past s) {modtime : Int}
    (htidy : Tidy ({ before := s, what := .call (.markSaved modtime) } :: past)) :
    Honest first ({ before := s, what := .call (.markSaved modtime) } :: past)
      ((Call.markSaved modtime).after s) := by
  have hfresh : modtime ∉ saves past := (List.nodup_cons.mp htidy.distinct).1
  have hunknown : some modtime ∉ visited past := by
    intro hmem
    rcases List.mem_cons.mp hmem with hnone | hmem
    · cases hnone
    · obtain ⟨time, htime, hsome⟩ := List.mem_map.mp hmem
      exact hfresh (Option.some.inj hsome ▸ htime)
  obtain ⟨z, hlinked⟩ := h.linked
  refine ⟨h.sound.deed ((Call.markSaved modtime).deed s), h.id, Nat.le_refl _, fun _ => rfl,
    h.marked, ?_, z, ?_⟩
  · exact List.mem_cons_of_mem _ (List.mem_map.mpr ⟨modtime, List.mem_cons_self, rfl⟩)
  · refine Chain.mono (fun e begins o x y hlink => ?_) (hlinked.kept rfl rfl)
    refine ⟨hlink.reverts, hlink.origin, fun time he => ?_, hlink.extra.2⟩
    have hknown := (hlink.extra.1 time he).1
    have hnever : time ≠ some modtime := by
      rintro rfl
      exact hunknown hknown
    refine ⟨?_, fun hnow => absurd hnow hnever⟩
    rcases List.mem_cons.mp hknown with rfl | hmem
    · exact List.mem_cons_self
    · obtain ⟨time', htime', rfl⟩ := List.mem_map.mp hmem
      exact List.mem_cons_of_mem _ (List.mem_map.mpr ⟨time', List.mem_cons_of_mem _ htime', rfl⟩)

/-- Taking back a first change of the present file, where the text is the one that was saved. -/
theorem revisit (h : Honest first past s) {time : Option Int}
    (hsaved : time = s.doc.modtime → s.doc.text = savedText first.doc.text past) :
    Honest first ({ before := s, what := .call (.revisit time) } :: past)
      ((Call.revisit time).after s) := by
  have hne : ∀ modtime, Happening.call (.revisit time) ≠ .call (.markSaved modtime) := by
    intro modtime hcall
    cases hcall
  obtain ⟨z, hlinked⟩ := h.linked
  have hkept : Linked first.doc.id (.firstChange s.doc.modtime (savedText first.doc.text past)
      (visited past)) z ((Call.revisit time).after s)
      ({ before := s, what := .call (.revisit time) } :: past) := by
    refine hlinked.kept ?_ ?_ <;>
    · simp only [Call.after]
      split <;> rfl
  have hmodtime := (Call.revisit time).modtime_after s (by simp)
  have hid := ((Call.revisit time).deed s).id
  have hsound := h.sound.deed ((Call.revisit time).deed s)
  rw [← hmodtime] at hkept
  have hmember : ((Call.revisit time).after s).doc.modtime ∈ visited past := by
    rw [hmodtime]
    exact h.modtime
  simp only [Call.after] at hsound hkept hid hmember ⊢
  by_cases htime : time = s.doc.modtime
  · rw [if_pos htime] at hsound hkept hid hmember ⊢
    refine ⟨hsound, hid.trans h.id, Nat.le_refl _, fun _ => ?_, h.marked, ?_, z, ?_⟩
    · rw [savedText_of_ne hne]
      exact hsaved htime
    · rwa [visited_of_ne hne]
    · rwa [savedText_of_ne hne, visited_of_ne hne]
  · rw [if_neg htime] at hsound hkept hid hmember ⊢
    refine ⟨hsound, hid.trans h.id, h.ordered, fun hclean => ?_, h.marked, ?_, z, ?_⟩
    · rw [savedText_of_ne hne]
      exact h.clean hclean
    · rwa [visited_of_ne hne]
    · rwa [savedText_of_ne hne, visited_of_ne hne]

/-- Any call but one that takes back a first change. -/
theorem call (h : Honest first past s)
    (htidy : Tidy ({ before := s, what := .call c } :: past)) (hleads : c.Leads s s')
    (hrevisit : ∀ time, c ≠ .revisit time) :
    Honest first ({ before := s, what := .call c } :: past) s' := by
  have hshort := htidy.short _ List.mem_cons_self
  rw [Call.after_of_leads h.sound hshort hleads]
  by_cases hc : c.unmodifies = false
  · exact h.ticked hshort hc
  · cases c with
    | markSaved modtime => exact h.markSaved htidy
    | markUnmodified => cases htidy.unmarked _ List.mem_cons_self
    | revisit time => exact absurd rfl (hrevisit time)
    | _ => exact absurd rfl hc

/-- What is no call changes nothing but, by a truncation, the log. -/
theorem rest (h : Honest first past s) (htidy : Tidy ({ before := s, what } :: past))
    (hleads : what.Leads id s s') (hcall : ∀ c, what ≠ .call c) :
    Honest first ({ before := s, what } :: past) s' := by
  have hplain := htidy.plain _ List.mem_cons_self
  obtain ⟨hsound, hid⟩ := h.sound.leads (htidy.short _ List.mem_cons_self) hplain hleads
  have hsaved : savedText first.doc.text ({ before := s, what } :: past)
      = savedText first.doc.text past := savedText_of_ne fun _ => hcall _
  have hvisited : visited ({ before := s, what } :: past) = visited past :=
    visited_of_ne fun _ => hcall _
  obtain ⟨z, hlinked⟩ := h.linked
  cases what with
  | call c => exact absurd rfl (hcall c)
  | aside c =>
      refine ⟨hsound, hid.trans h.id, ?_, ?_, ?_, ?_, z, ?_⟩ <;>
        simp only [hleads.doc, hsaved, hvisited]
      · exact h.ordered
      · exact h.clean
      · exact h.marked
      · exact h.modtime
      · exact hlinked.kept (by rw [hleads.doc]) (by rw [hleads.doc])
  | truncation =>
      obtain ⟨z', hlinked'⟩ := hlinked.truncated hleads (hplain rfl)
      have hdoc := Truncated.doc hleads
      have hmark := (Truncated.cut hleads (hplain rfl)).markedTick
      have hticks : s'.doc.ticks = s.doc.ticks := by rw [hdoc]
      have htext : s'.doc.text = s.doc.text := by rw [hdoc]
      have hmodtime : s'.doc.modtime = s.doc.modtime := by rw [hdoc]
      refine ⟨hsound, hid.trans h.id, ?_, ?_, ?_, ?_, z', ?_⟩ <;>
        simp only [hticks, htext, hmodtime, hmark, hsaved, hvisited]
      · exact h.ordered
      · exact h.clean
      · exact h.marked
      · exact h.modtime
      · exact hlinked'

end Honest

/-! ### In the middle of an undo -/

theorem savedText_follow {start : Text} {calls : List Call}
    (hcalls : ∀ c ∈ calls, ∀ modtime, c ≠ .markSaved modtime) :
    savedText start (Call.follow calls s past).2 = savedText start past := by
  induction calls generalizing s past with
  | nil => rfl
  | cons c rest ih =>
      have hne : ∀ modtime, Happening.call c ≠ .call (.markSaved modtime) :=
        fun modtime hcall => hcalls c List.mem_cons_self modtime (Happening.call.inj hcall)
      cases hrun : c.run s with
      | ok u s₁ =>
          rw [Call.follow_cons_ok hrun, ih fun c' hc' => hcalls c' (List.mem_cons_of_mem _ hc')]
          exact savedText_of_ne hne
      | error e s₁ =>
          rw [Call.follow_cons_refused hrun]
          exact savedText_of_ne hne

/--
In the middle of an undo that has come to the text `x`: everything holds that holds of
a document and its past, and neither its modification time nor the text last saved
have changed since the undo began.
-/
def Midway (first : Editing Document) (modtime : Option Int) (saved x : Text)
    (s : Editing Document) (past : List Event) : Prop :=
  Tidy past → Honest first past s ∧ Ready first.doc.id x s ∧ s.doc.modtime = modtime ∧
    savedText first.doc.text past = saved

section Midway

variable {modtime : Option Int} {saved x y z : Text} {known : List (Option Int)} {e : Entry}
  {begins : Bool} {o : Event} {entries unit rest : List Entry} {os : List Event}

theorem Midway.closing (h : Midway first modtime saved x s past) :
    Midway first modtime saved x s.closing ({ before := s, what := .call .boundary } :: past) := by
  intro htidy
  obtain ⟨hhonest, hready, hmodtime, hsaved⟩ := h htidy.tail
  refine ⟨hhonest.ticked (htidy.short _ List.mem_cons_self) rfl, hready.closing, hmodtime, ?_⟩
  rw [savedText_of_ne (by simp), hsaved]

/-- Taking back an entry, call by call. -/
theorem Midway.entry (h : Midway first modtime saved x s past)
    (hlink : Link first.doc.id (.firstChange modtime saved known) e begins o x y)
    (hrun : Call.runAll e.undoCalls s = .ok () s') :
    Midway first modtime saved y s' (Call.follow e.undoCalls s past).2 := by
  intro htidy
  obtain ⟨hhonest, hready, hmodtime, hsaved⟩ := h htidy.of_follow
  have hend : s' = e.undone s := by
    rw [← Document.undoEntry_eq_runAll] at hrun
    rcases achieves_undoEntry [] hready hlink.reverts with hok | ⟨-, t, hbad⟩
    · exact (EStateM.Result.ok.inj (hrun.symm.trans hok)).2
    · cases hrun.symm.trans hbad
  refine ⟨?_, hend ▸ ready_undone hready hlink.reverts, ?_, ?_⟩
  · by_cases hfirst : ∃ time, e = .firstChange time
    · -- The one call that looks at no text: that the text is right was asked of the entry.
      obtain ⟨time, rfl⟩ := hfirst
      rw [hend]
      refine hhonest.revisit fun htime => ?_
      have hy : y = x := hlink.reverts.2
      rw [hready.text, hsaved, ← hy]
      exact (hlink.extra.1 time rfl).2 (htime.trans hmodtime)
    · have hcalls : ∀ c ∈ e.undoCalls, ∀ time, c ≠ .revisit time := by
        rintro c hc time rfl
        cases e with
        | firstChange modtime => exact hfirst ⟨modtime, rfl⟩
        | _ => simp [Entry.undoCalls] at hc
      exact Call.follow_invariant (fun s past => Tidy past → Honest first past s)
        (fun c hc s past s' hinv hleads htidy =>
          (hinv htidy.tail).call htidy hleads (hcalls c hc))
        (fun _ => hhonest) (Or.inl hrun) htidy
  · rw [hend, e.modtime_undone, hmodtime]
  · rw [savedText_follow fun c hc => Entry.undoCalls_ne_markSaved hc, hsaved]

theorem Midway.stretch (h : Midway first modtime saved x s past)
    (hchain : Chain (Link first.doc.id (.firstChange modtime saved known)) (unit ++ rest) os x z)
    (hrun : Call.runAll (unit.flatMap Entry.undoCalls) s = .ok () s') :
    ∃ y, Midway first modtime saved y s'
        (Call.follow (unit.flatMap Entry.undoCalls) s past).2 ∧
      Chain (Link first.doc.id (.firstChange modtime saved known)) rest
        (os.drop unit.length) y z := by
  induction unit generalizing os x s past with
  | nil =>
      obtain rfl : s' = s := Call.ended_nil.mp (Or.inl hrun)
      exact ⟨x, h, hchain⟩
  | cons e unit ih =>
      cases hchain with
      | cons head tail =>
          rw [List.flatMap_cons] at hrun ⊢
          obtain ⟨s₁, hfirst, hrest⟩ := Call.runAll_append_ok hrun
          rw [Call.follow_append hfirst]
          exact ih (h.entry head hfirst) tail hrest

theorem Midway.units {count : Nat} (h : Midway first modtime saved x s past)
    (hchain : Chain (Link first.doc.id (.firstChange modtime saved known)) entries os x z)
    (hrun : Call.runAll (((Log.groups [] entries).take count).flatMap Document.unitCalls) s
      = .ok () s') :
    ∃ y, Midway first modtime saved y s' (Call.follow
      (((Log.groups [] entries).take count).flatMap Document.unitCalls) s past).2 := by
  have hnone : ∀ {s s' : Editing Document} {past : List Event} {x : Text},
      Midway first modtime saved x s past → Call.runAll [] s = .ok () s' →
      ∃ y, Midway first modtime saved y s' (Call.follow [] s past).2 := by
    intro s s' past x h hrun
    obtain rfl : s' = s := Call.ended_nil.mp (Or.inl hrun)
    exact ⟨x, h⟩
  induction entries using Log.unit_induction generalizing os x s past count with
  | nil =>
      have hgroups : ((Log.groups [] []).take count).flatMap Document.unitCalls = [] := by
        simp [Log.groups]
      rw [hgroups] at hrun ⊢
      exact hnone h hrun
  | boundary older ih =>
      cases hchain with
      | cons head tail => exact ih (h.entry head rfl) tail hrun
  | unit body e rest hbody he hrest ih =>
      cases count with
      | zero => exact hnone h hrun
      | succ count =>
          rw [Log.groups_unit hbody he hrest, List.take_succ_cons, List.flatMap_cons] at hrun ⊢
          obtain ⟨s₂, hunit, hothers⟩ := Call.runAll_append_ok hrun
          rw [Call.follow_append hunit]
          obtain ⟨s₁, hentries, hclose⟩ := Call.runAll_append_ok hunit
          obtain rfl : s₂ = s₁.closing := by
            rw [Call.runAll_singleton] at hclose
            exact (EStateM.Result.ok.inj hclose).2.symm
          have hassoc : body ++ e :: rest = (body ++ [e]) ++ rest := by simp
          rw [hassoc] at hchain
          obtain ⟨y, hmid, htail⟩ := h.stretch hchain hentries
          refine ih ?_ htail hothers
          unfold Document.unitCalls
          rw [Call.follow_append hentries]
          exact hmid.closing

end Midway

/-- An undo keeps the flag honest. -/
theorem Honest.undo (h : Honest first past s) {count : Nat}
    (hended : Call.Ended (Document.undoCalls count s.doc.log) s s')
    (htidy : Tidy (Call.follow (Document.undoCalls count s.doc.log) s past).2) :
    Honest first (Call.follow (Document.undoCalls count s.doc.log) s past).2 s' := by
  unfold Document.undoCalls at hended htidy ⊢
  have hhead : Call.follow
      (.boundary :: (s.doc.log.units.take count).flatMap Document.unitCalls) s past
        = Call.follow ((s.doc.log.units.take count).flatMap Document.unitCalls) s.closing
          ({ before := s, what := .call .boundary } :: past) :=
    Call.follow_cons_ok (Document.insertBoundary_ok s)
  rw [hhead] at htidy ⊢
  have hshort := htidy.of_follow.short _ List.mem_cons_self
  have hready := h.ready hshort
  obtain ⟨z, hlinked⟩ := h.linked
  have hrun : Call.runAll ((s.doc.log.units.take count).flatMap Document.unitCalls) s.closing
      = .ok () s' := by
    rcases Call.ended_cons hended with ⟨s₁, hboundary, hrest⟩ | ⟨e, hboundary⟩
    · obtain rfl : s₁ = s.closing := (EStateM.Result.ok.inj hboundary).2.symm
      have hchain : Chain (TextStep first.doc.id) s.doc.log.entries (origins s past)
          s.doc.text z := hlinked.texts
      have hachieves := achieves_units count hchain hready.closing
      rw [Document.forM_eq_runAll _ _ Document.undoUnit_eq_runAll] at hachieves
      rcases hrest with hok | ⟨e, hbad⟩
      · exact hok
      · rcases hachieves with hok | ⟨-, t, hfault⟩
        · cases hbad.symm.trans hok
        · cases hbad.symm.trans hfault
    · cases hboundary
  have hmid : Midway first s.doc.modtime (savedText first.doc.text past) s.doc.text s past :=
    fun _ => ⟨h, hready, rfl, rfl⟩
  obtain ⟨y, hend⟩ := hmid.closing.units hlinked hrun
  exact (hend htidy).1

/-! ### Sessions -/

/-- Only an undo takes back first changes. -/
theorem Command.calls_undo_or (c : Command) (id : DocId) (log : Log) :
    (∃ count, c.calls id log = Document.undoCalls count log) ∨
      ∀ call ∈ c.calls id log, ∀ time, call ≠ .revisit time := by
  cases c with
  | sheet target sc =>
      refine Or.inr fun call hcall time => ?_
      rw [calls] at hcall
      split at hcall
      · cases sc <;> simp_all [SheetCommand.calls]
      · cases hcall
  | document target dc =>
      rw [calls]
      split
      · cases dc with
        | undo count => exact Or.inl ⟨count, rfl⟩
        | typeIn text size =>
            refine Or.inr fun call hcall time => ?_
            obtain ⟨piece, -, hcall⟩ := List.mem_flatMap.mp hcall
            rcases List.mem_cons.mp hcall with rfl | hcall
            · simp
            · rw [List.mem_singleton.mp hcall]
              simp
        | _ => exact Or.inr fun call hcall time => by simp_all [DocumentCommand.calls]
      · exact Or.inr fun call hcall => by cases hcall
  | _ => exact Or.inr fun call hcall => by cases hcall

variable {start : Workspace} {commands : List Command}

theorem Session.honest (h : Session start commands id first now)
    (hclean : first.doc.ticks.saved = first.doc.ticks.modified)
    (hvisited : first.doc.modtime = none)
    (hmarked : ∀ tick, first.doc.log.markedTick = some tick → tick < first.doc.ticks.modified)
    (htidy : Tidy (start.past id commands)) : Honest first (start.past id commands) now := by
  have hinit : Honest first [] first := by
    refine ⟨h.sound, rfl, Nat.le_of_eq hclean, fun _ => rfl, hmarked, ?_, first.doc.text,
      Descends.start h.empty _⟩
    rw [hvisited]
    exact List.mem_cons_self
  have hcalls : ∀ c ∈ commands, ∀ s past s', (Tidy past → Honest first past s) →
      Call.Ended (c.calls id s.doc.log) s s' →
      Tidy (Call.follow (c.calls id s.doc.log) s past).2 →
      Honest first (Call.follow (c.calls id s.doc.log) s past).2 s' := by
    intro c _ s past s' hinv hended htidy
    rcases c.calls_undo_or id s.doc.log with ⟨count, hcalls⟩ | hcalls
    · rw [hcalls] at hended htidy ⊢
      exact (hinv htidy.of_follow).undo hended htidy
    · exact Call.follow_invariant (fun s past => Tidy past → Honest first past s)
        (fun c hc s past s' hinv hleads htidy =>
          (hinv htidy.tail).call htidy hleads (hcalls c hc)) hinv hended htidy
  have hrest : ∀ c ∈ commands, ∀ s past s', (Tidy past → Honest first past s) →
      (c.rest id).Leads id s s' → Tidy ({ before := s, what := c.rest id } :: past) →
      Honest first ({ before := s, what := c.rest id } :: past) s' := by
    intro c _ s past s' hinv hleads htidy
    refine (hinv htidy.tail).rest htidy hleads fun call hcall => ?_
    cases c with
    | truncate target =>
        rw [Command.rest] at hcall
        split at hcall <;> cases hcall
    | _ => cases hcall
  obtain ⟨now', hends, hhonest⟩ := Workspace.past_invariant
    (fun s past => Tidy past → Honest first past s) h.begins h.unbroken h.ordinary
    (fun _ => hinit) hcalls hrest
  obtain rfl : now' = now := Option.some.inj (hends.symm.trans h.ends)
  exact hhonest htidy

theorem Document.isModified_eq_false {doc : Document} :
    doc.isModified = false ↔ doc.ticks.Clean := by
  unfold isModified Ticks.Clean
  rw [decide_eq_false_iff_not, Nat.not_lt]

/-- An undo down to a beginning of an unmodified document leads to an unmodified document. -/
theorem Honest.clean_undone (h : Honest first past now) (hshort : now.doc.text.Short) {k : Nat}
    {o : Event} (ho : (unitBeginnings now past)[k]? = some o) (hclean : o.before.doc.ticks.Clean)
    (hin : o.before.recorder.settings.inhibitPoint = false)
    (htime : o.before.doc.modtime = now.doc.modtime) :
    (Document.undone (k + 1) now).doc.ticks.Clean := by
  obtain ⟨z, hlinked⟩ := h.linked
  obtain ⟨e, x, y, s, hlink, ⟨-, hs⟩, hundone⟩ := hlinked.beginning_undone
    (fun x s => Ready first.doc.id x s ∧ s.doc.modtime = now.doc.modtime)
    (fun hlink hs => ⟨ready_undone hs.1 hlink.reverts, (Entry.modtime_undone _ _).trans hs.2⟩)
    (fun hs => ⟨hs.1.closing, hs.2⟩) (s := now.closing) ⟨(h.ready hshort).closing, rfl⟩ ho
  have he : e = .firstChange now.doc.modtime := by
    rw [← htime]
    exact hlink.extra.2 rfl hclean hin
  unfold Document.undone Log.units
  rw [hundone, he]
  show (if now.doc.modtime = s.doc.modtime then s.doc.markUnmodified else s.doc).ticks.Clean
  rw [if_pos hs.symm]
  exact Nat.le_refl _

/--
**The modified flag does not lie.**  Let a document start unmodified, its file not
visited and changes noted at earlier ticks only.  Let the commands of a session save it
under times that are all different, leave the setting to unmodified to saves and undos,
and truncate its log only while there is no hook.  If the document counts as unmodified,
its text is the one last saved, or the one at the start.  And if a unit began while the
document was unmodified, the cursor was being recorded, and the file had the modification
time it still has, then an undo down to that unit leaves the document unmodified.
-/
theorem modified_flag_honest (h : Session start commands id first now)
    (hclean : first.doc.ticks.saved = first.doc.ticks.modified)
    (hvisited : first.doc.modtime = none)
    (hmarked : ∀ tick, first.doc.log.markedTick = some tick → tick < first.doc.ticks.modified)
    (hplain : ∀ e ∈ start.past id commands, e.Plain)
    (hunmarked : ∀ e ∈ start.past id commands, e.what.isUnmarking = false)
    (hdistinct : (saves (start.past id commands)).Nodup) :
    (now.doc.isModified = false →
        now.doc.text = savedText first.doc.text (start.past id commands)) ∧
      ∀ k o, (unitBeginnings now (start.past id commands))[k]? = some o →
        o.before.doc.isModified = false → o.before.recorder.settings.inhibitPoint = false →
        o.before.doc.modtime = now.doc.modtime →
        Document.UndoLeads (k + 1) now fun t => t.doc.isModified = false := by
  have hhonest := h.honest hclean hvisited hmarked ⟨h.short, hplain, hunmarked, hdistinct⟩
  have htraced := h.course.traced h.sound h.empty hplain h.short
  refine ⟨fun hnow => hhonest.clean (Document.isModified_eq_false.mp hnow), ?_⟩
  intro k o ho hbegan hin htime
  refine htraced.undoLeads h.short_now (Document.isModified_eq_false.mpr ?_)
  exact hhonest.clean_undone h.short_now ho (Document.isModified_eq_false.mp hbegan) hin htime

/--
Saved in between and taken back to there: the document is unmodified again, and an undo
down to the first unit after the save keeps it so.
-/
theorem modified_flag_honest_saved :
    ∃ now, ((Workspace.ofText ['a']).later
        [.document ⟨0⟩ (.undo 1), .document ⟨0⟩ (.insert ['c']), .truncate ⟨0⟩,
          .document ⟨0⟩ (.markSaved 7), .sheet ⟨0⟩ .insertBoundary,
          .document ⟨0⟩ (.insert ['b'])]).moment? ⟨0⟩ = some now ∧
      now.doc.isModified = false ∧ now.doc.text = ['b', 'a'] ∧
      Document.UndoSucceeds 2 now fun t => t.doc.isModified = false := by
  let commands : List Command := [.document ⟨0⟩ (.undo 1), .document ⟨0⟩ (.insert ['c']),
    .truncate ⟨0⟩, .document ⟨0⟩ (.markSaved 7), .sheet ⟨0⟩ .insertBoundary,
    .document ⟨0⟩ (.insert ['b'])]
  let past := (Workspace.ofText ['a']).past ⟨0⟩ commands
  obtain ⟨now, hnow⟩ := Option.isSome_iff_exists.mp
    (show (((Workspace.ofText ['a']).later commands).moment? ⟨0⟩).isSome by decide +kernel)
  have hfacts : (((Workspace.ofText ['a']).later commands).moment? ⟨0⟩).all fun now =>
      now.doc.text.Short ∧ HasRoom now.doc.log.entries now ∧ now.doc.isModified = false ∧
        savedText ['a'] past = ['b', 'a'] ∧
        (unitBeginnings now past)[1]?.any fun o =>
          decide (o.before.doc.isModified = false ∧
            o.before.recorder.settings.inhibitPoint = false ∧
            o.before.doc.modtime = now.doc.modtime) := by
    decide +kernel
  simp only [hnow, Option.all_some, decide_eq_true_eq] at hfacts
  obtain ⟨hshort, hroom, hunmodified, hsaved, hbegan⟩ := hfacts
  obtain ⟨o, ho, hbegan⟩ := (Option.any_eq_true _ _).mp hbegan
  obtain ⟨hclean, hin, htime⟩ := decide_eq_true_eq.mp hbegan
  have h := modified_flag_honest (Session.ofText commands (by decide +kernel)
    (by decide) hnow (by decide +kernel) hshort) rfl rfl (by simp [Document.ofText])
    (by decide +kernel) (by decide +kernel) (by decide +kernel)
  exact ⟨now, hnow, hunmodified, (h.1 hunmodified).trans hsaved,
    (h.2 1 o ho hclean hin htime).succeeds hroom⟩

end EditHistory
