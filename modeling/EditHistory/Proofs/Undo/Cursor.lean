/-
Undo puts the cursor back, but for one case.

Recording spends as little as it can on the cursor.  Taking back an entry leaves the
cursor somewhere of itself: an insertion where it started, a deletion at one end of its
text or the other, by the sign of its offset.  If that is where the cursor stood at the
last boundary, a change that opens a unit needs nothing else; if not, an entry for the
cursor goes below.  `Entry.pointUndone` is the place that taking back an entry leads to,
and as for texts and markers there is a chain of places below a log.

Zero has no sign.  A deletion from the very start, with the cursor behind it, is taken
back to the start all the same, while recording counts on the end.  Unless the cursor
stood elsewhere at the boundary, and has an entry for that, its place is lost:
`Call.Loses` is this case, and the only one.
-/
import EditHistory.Proofs.Undo.Text

namespace EditHistory

open Editing

variable {id : DocId} {x y : Text} {e : Entry} {s s' first now : Editing Document}
  {past : List Event} {what : Happening} {c : Call} {p position : Nat}

/-! ### Taking back an entry, for the cursor -/

/-- Where taking back an entry leaves the cursor, if the text reaches that far. -/
def Entry.pointUndone : Entry → Nat → Nat
  | .insertion start _, _ => start
  | .deletion text offset, _ =>
    if 0 ≤ offset then offset.natAbs else offset.natAbs + text.length
  | .pointMove position, _ => position
  | _, p => p

theorem point_afterProperty (start stop : Nat) (name : String) (value : Json)
    (s : Editing Document) : (s.afterProperty start stop name value).doc.point = s.doc.point := by
  unfold Editing.afterProperty
  split <;> rfl

theorem point_afterRestore (marker : MarkerId) (delta : Int) (s : Editing Document) :
    (s.afterRestore marker delta).doc.point = s.doc.point := by
  unfold Editing.afterRestore
  split <;> rfl

/-- A moment with the text `x`, and with the cursor at `p` if the text reaches that far. -/
structure PointsTo (id : DocId) (x : Text) (p : Nat) (s : Editing Document) : Prop where
  ready : Ready id x s
  point : s.doc.point = min p x.length

theorem PointsTo.closing (h : PointsTo id x p s) : PointsTo id x p s.closing :=
  ⟨h.ready.closing, h.point⟩

/-- Taking back an entry takes the cursor where `pointUndone` says. -/
theorem PointsTo.undone (h : PointsTo id x p s) (hr : e.Reverts id x y) :
    PointsTo id y (e.pointUndone p) (e.undone s) := by
  obtain ⟨hs, hp⟩ := h
  refine ⟨ready_undone hs hr, ?_⟩
  have hready := ready_undone hs hr
  obtain ⟨-, hr⟩ := hr
  cases e with
  | insertion start stop =>
      rw [← hready.text]
      rfl
  | deletion text offset =>
      obtain ⟨hoffset, hy⟩ := hr
      have hpoint : (s.doc.setPoint offset.natAbs).point = offset.natAbs := by
        rw [Document.point_setPoint, hs.text]
        omega
      have hlength : y.length = x.length + text.length := by
        rw [hy, Text.length_spliced hoffset]
      rw [Entry.undone_deletion rfl] at hready ⊢
      rw [Entry.pointUndone]
      by_cases h0 : 0 ≤ offset
      · rw [if_pos h0] at hready ⊢
        rw [if_pos h0, ← hready.text, Document.point_setPoint]
        rfl
      · rw [if_neg h0, if_neg h0, Nat.min_eq_left (by omega), Call.after]
        by_cases hne : text = []
        · rw [if_pos hne, hne]
          exact hpoint
        · rw [if_neg hne]
          exact congrArg (· + text.length) hpoint
  | pointMove position =>
      obtain rfl : y = x := hr
      show (s.doc.setPoint position).point = min position y.length
      rw [Document.point_setPoint, hs.text]
  | propertyChange change =>
      obtain ⟨-, -, -, rfl⟩ := hr
      refine Eq.trans ?_ hp
      show ((Call.restoreProperty change).after s).doc.point = s.doc.point
      simp only [Call.after]
      split
      · exact point_afterProperty _ _ _ _ s
      · rfl
  | markerShift marker delta =>
      obtain rfl : y = x := hr
      exact (point_afterRestore marker delta s).trans hp
  | firstChange modtime =>
      obtain rfl : y = x := hr
      refine Eq.trans ?_ hp
      show ((Call.revisit modtime).after s).doc.point = s.doc.point
      simp only [Call.after]
      split <;> rfl
  | boundary =>
      obtain rfl : y = x := hr
      exact hp

/-! ### What an edit that opens a unit leads back to -/

namespace Call

/-- The span of text that the call takes out. -/
def taken? : Call → Option (Nat × Nat)
  | .deleteRange start stop => some (start, stop)
  | .replaceRange start new => some (start, start + new.length)
  | _ => none

/--
Taking back the call leaves the cursor at the start, and not where it stood at the last
boundary, which is `position`: the call takes out all the text up to there, and the
cursor has not moved since.
-/
def Loses (c : Call) (s : Editing Document) (position : Nat) : Prop :=
  0 < position ∧ s.doc.point = position ∧ c.taken? = some (0, position)

instance (c : Call) (s : Editing Document) (position : Nat) : Decidable (c.Loses s position) :=
  inferInstanceAs (Decidable (_ ∧ _ ∧ _))

theorem loses_deleteRange {start stop : Nat} : (deleteRange start stop).Loses s position ↔
    0 < position ∧ s.doc.point = position ∧ start = 0 ∧ stop = position := by
  simp [Loses, taken?]

theorem loses_replaceRange {start : Nat} {new : Text} : (replaceRange start new).Loses s position ↔
    0 < position ∧ s.doc.point = position ∧ start = 0 ∧ start + new.length = position := by
  simp [Loses, taken?]

end Call

namespace Recording

variable {v : View} {r : Recording}

/-- With the cursor recorded, a change away from the last boundary leads back to there. -/
theorem foldl_pointUndone_preamble {pos : Nat} (hopens : r.log.atBoundary = true)
    (hin : r.recorder.settings.inhibitPoint = false)
    (hlast : r.recorder.lastBoundary = some { doc := v.doc, position }) (p : Nat) :
    (preamble v pos r).foldl (fun p e => e.pointUndone p) p
      = if position = pos then p else position := by
  have hfirst : ∀ p, (firstChanges v r).foldl (fun p e => e.pointUndone p) p = p := by
    intro p
    unfold firstChanges
    split <;> rfl
  have hplace : r.recorder.positionIn v.doc = some position := by
    unfold Recorder.positionIn
    rw [hlast]
    simp [Option.filter]
  unfold preamble pointMoves
  rw [if_neg (by simp [hin]), hopens, hplace, List.foldl_append, hfirst]
  dsimp only
  split <;> rfl

/-- Taking back the entry of a deletion leaves the cursor where it is to be, or at the start. -/
theorem pointUndone_deletion {start : Nat} (text : Text) (hstart : start < 0x8000000000000000)
    (p : Nat) :
    (Entry.deletion text (signedOffset v start (start + text.length))).pointUndone p
      = if start = 0 ∧ v.point = text.length then 0
        else undonePoint v start (start + text.length) := by
  rw [Entry.pointUndone]
  unfold signedOffset undonePoint
  rw [Offset.toSigned_of_lt hstart]
  by_cases hbehind : v.point = start + text.length
  · simp only [if_pos hbehind]
    by_cases hzero : start = 0
    · rw [if_pos (by omega), if_pos ⟨hzero, by omega⟩]
      omega
    · rw [if_neg (by omega), if_neg (by omega)]
      omega
  · simp only [if_neg hbehind]
    rw [if_pos (by omega), if_neg (by omega)]
    omega

/-- The entry of a deletion and its preamble together lead back to the last boundary, but for
one case. -/
theorem foldl_pointUndone_deletion {start : Nat} (text : Text)
    (hstart : start < 0x8000000000000000) (hopens : r.log.atBoundary = true)
    (hin : r.recorder.settings.inhibitPoint = false)
    (hlast : r.recorder.lastBoundary = some { doc := v.doc, position }) (p : Nat) :
    (preamble v (undonePoint v start (start + text.length)) r).foldl (fun p e => e.pointUndone p)
        ((Entry.deletion text (signedOffset v start (start + text.length))).pointUndone p)
      = if 0 < position ∧ v.point = position ∧ start = 0 ∧ start + text.length = position then 0
        else position := by
  rw [foldl_pointUndone_preamble hopens hin hlast, pointUndone_deletion text hstart]
  unfold undonePoint
  by_cases hbehind : v.point = start + text.length
  · simp only [if_pos hbehind]
    split <;> split <;> (try split) <;> omega
  · simp only [if_neg hbehind]
    split <;> split <;> (try split) <;> omega

end Recording

/-! ### The chain of places -/

/--
At the event `o`, if an edit opened a unit in it, `p` is where the cursor stood at the
last boundary of the document `id`, unless that is lost.
-/
def Returns (id : DocId) (o : Event) (p : Nat) : Prop :=
  ∀ c position, o.what = .call c → c.isEdit = true → o.before.doc.log.atBoundary = true →
    o.before.recorder.settings.inhibitPoint = false →
    o.before.recorder.lastBoundary = some { doc := id, position } →
    p = if c.Loses o.before position then 0 else position

/-- Wherever the cursor stands, a chain of places leads down the log from there. -/
def Pointed (id : DocId) (s : Editing Document) (past : List Event) : Prop :=
  ∀ p, ∃ q, Descends (FoldStep Entry.pointUndone (Returns id)) s past p q

theorem returns_of_not_edit {o : Event} (h : ∀ c, o.what = .call c → c.isEdit = false) :
    Returns id o p := by
  intro c position hcall hedit
  rw [h c hcall] at hedit
  cases hedit

namespace Pointed

theorem kept (h : Pointed id s past) (hlog : s'.doc.log.entries = s.doc.log.entries) :
    Pointed id s' ({ before := s, what } :: past) := by
  intro p
  obtain ⟨q, hchain⟩ := h p
  exact ⟨q, hchain.kept hlog⟩

theorem grown {new : List Entry} (h : Pointed id s past)
    (hentries : s'.doc.log.entries = new ++ s.doc.log.entries)
    (hnew : ∀ e ∈ new, e.isBoundary = false)
    (hreturns : ∀ p, Returns id { before := s, what } (new.foldl (fun p e => e.pointUndone p) p)) :
    Pointed id s' ({ before := s, what } :: past) := by
  intro p
  obtain ⟨q, hchain⟩ := h (new.foldl (fun p e => e.pointUndone p) p)
  exact ⟨q, Descends.grown (Chain.grow hnew (hreturns p) hchain) hentries⟩

theorem inserting {added : Text} (h : Pointed id s past) (hid : s.doc.id = id) :
    Pointed id (s.inserting added) ({ before := s, what := .call (.insert added) } :: past) := by
  rcases Recording.adds_or_lengthens_afterInsert s.view s.doc.point added.length s.recording with
    hadds | ⟨first, older, hbefore, hafter, -⟩
  · refine h.grown hadds.entries ?_ ?_
    · intro e he
      rcases List.mem_cons.mp he with rfl | he
      · rfl
      · exact Recording.isBoundary_of_mem_preamble he
    · intro p c position hcall _ hopens hin hlast
      cases hcall
      have hkeeps : ¬(Call.insert added).Loses s position := fun hloses => by cases hloses.2.2
      subst hid
      rw [if_neg hkeeps, List.foldl_cons,
        Recording.foldl_pointUndone_preamble hopens hin (v := s.view) hlast]
      split
      · rename_i hplace
        exact hplace.symm
      · rfl
  · -- A longer insertion starts where it did.
    intro p
    obtain ⟨q, hchain⟩ := h p
    exact ⟨q, hchain.exchanged hbefore hafter rfl fun _ _ _ hstep => hstep⟩

theorem deleting {start stop : Nat} (h : Pointed id s past) (hs : Ready id s.doc.text s)
    (hspan : start < stop) (hstop : stop ≤ s.doc.text.length) :
    Pointed id (s.deleting start stop)
      ({ before := s, what := .call (.deleteRange start stop) } :: past) := by
  have hshort := hs.short
  unfold Text.Short at hshort
  have hlength := Document.length_between (Nat.le_of_lt hspan) hstop
  refine h.grown (Recording.adds_afterDelete s.view start (s.doc.text.between start stop) true
    s.recording).entries ?_ ?_
  · intro e he
    rcases List.mem_cons.mp he with rfl | he
    · rfl
    · rcases List.mem_append.mp he with he | he
      · obtain ⟨m, delta, rfl⟩ := Recording.mem_shifts he
        rfl
      · exact Recording.isBoundary_of_mem_preamble he
  · intro p c position hcall _ hopens hin hlast
    cases hcall
    have hid := hs.id
    subst hid
    have hshifts := foldl_still (f := Entry.pointUndone) (l := Recording.shifts s.view start
      (start + (s.doc.text.between start stop).length) true) (fun e he p => by
        obtain ⟨m, delta, rfl⟩ := Recording.mem_shifts he
        rfl)
    have hback := Recording.foldl_pointUndone_deletion (s.doc.text.between start stop)
      (v := s.view) (r := s.recording) (show start < 0x8000000000000000 by omega) hopens hin hlast p
    rw [List.foldl_cons, List.foldl_append, hshifts, hback]
    simp only [Call.loses_deleteRange, point_view, hlength,
      Nat.add_sub_cancel' (Nat.le_of_lt hspan)]

theorem replacing {start : Nat} {new : Text} (h : Pointed id s past)
    (hs : Ready id s.doc.text s) (hstop : start + new.length ≤ s.doc.text.length) :
    Pointed id (s.replacing start new)
      ({ before := s, what := .call (.replaceRange start new) } :: past) := by
  have hshort := hs.short
  unfold Text.Short at hshort
  have hlength := Document.length_between (Nat.le_add_right start new.length) hstop
  refine h.grown (Recording.adds_afterChange s.view start
    (s.doc.text.between start (start + new.length)) s.recording).entries ?_ ?_
  · intro e he
    rcases List.mem_cons.mp he with rfl | he
    · rfl
    · rcases List.mem_cons.mp he with rfl | he
      · rfl
      · exact Recording.isBoundary_of_mem_preamble he
  · intro p c position hcall _ hopens hin hlast
    cases hcall
    have hid := hs.id
    subst hid
    have hback := Recording.foldl_pointUndone_deletion
      (s.doc.text.between start (start + new.length)) (v := s.view) (r := s.recording)
      (show start < 0x8000000000000000 by omega) hopens hin hlast start
    rw [List.foldl_cons, List.foldl_cons]
    refine hback.trans ?_
    simp only [Call.loses_replaceRange, point_view, hlength, Nat.add_sub_cancel_left]

theorem putting {span : Span} {runs : List Run} (h : Pointed id s past) (hne : runs ≠ [])
    (hedit : ∀ c, what = .call c → c.isEdit = false) :
    Pointed id (s.putting span runs) ({ before := s, what } :: past) := by
  refine h.grown (Recording.adds_recordedRuns s.view span.name runs s.recording hne).entries ?_
    fun p => returns_of_not_edit hedit
  intro e he
  rcases Recording.mem_recordedRuns he with ⟨run, rfl⟩ | rfl <;> rfl

theorem closing (h : Pointed id s past) (hon : s.doc.log.disabled = false) :
    Pointed id s.closing ({ before := s, what } :: past) := by
  intro p
  obtain ⟨q, hchain⟩ := h p
  exact ⟨q, hchain.closing hon ⟨rfl, fun hb => by cases hb⟩⟩

theorem truncated (h : Pointed id s past) (ht : Truncated s s')
    (hhook : s.recorder.hook.isNone) : Pointed id s' ({ before := s, what } :: past) := by
  intro p
  obtain ⟨q, hchain⟩ := h p
  exact hchain.truncated ht hhook

/-- Every deed keeps the chain going. -/
theorem deed (h : Pointed id s past) (hs : Ready id s.doc.text s) (hd : Deed s c s') :
    Pointed id s' ({ before := s, what := .call c } :: past) := by
  cases hd with
  | quiet _ hq => exact h.kept (by rw [hq.log])
  | insertion _ => exact h.inserting hs.id
  | deletion hspan hstop => exact h.deleting hs hspan hstop
  | replacement hstop => exact h.replacing hs hstop
  | property hc _ hne _ =>
      refine h.putting hne fun c' hc' => ?_
      cases hc'
      exact hc
  | boundary => exact h.closing hs.sound.enabled

end Pointed

theorem Pointed.leads (h : Pointed first.doc.id s past) (htraced : Traced first past s)
    (hshort : s.doc.text.Short) (hplain : Event.Plain { before := s, what })
    (hleads : what.Leads id s s') : Pointed first.doc.id s' ({ before := s, what } :: past) := by
  cases what with
  | call c =>
      rw [Call.after_of_leads htraced.sound hshort hleads]
      exact h.deed (htraced.ready hshort) (c.deed s)
  | aside c => exact h.kept (by rw [hleads.doc])
  | truncation => exact h.truncated hleads (hplain rfl)

theorem Course.pointed (h : Course id first past now) (hsound : first.Sound)
    (hempty : first.doc.log.entries = []) (hplain : ∀ e ∈ past, e.Plain)
    (hshort : ∀ e ∈ past, e.before.doc.text.Short) : Pointed first.doc.id now past := by
  induction h with
  | start =>
      exact fun p => ⟨p, Descends.start hempty p⟩
  | @next s s' past what hcourse hleads ih =>
      have hplain' : ∀ e ∈ past, e.Plain := fun e he => hplain e (List.mem_cons_of_mem _ he)
      have hshort' : ∀ e ∈ past, e.before.doc.text.Short :=
        fun e he => hshort e (List.mem_cons_of_mem _ he)
      exact (ih hplain' hshort').leads (hcourse.traced hsound hempty hplain' hshort')
        (hshort _ List.mem_cons_self) (hplain _ List.mem_cons_self) hleads

/-! ### From the boundary to the edit -/

/-- What happens moves the last boundary neither by ending a unit nor in any other way. -/
def Happening.keepsBoundary (id : DocId) : Happening → Bool
  | .call .boundary => false
  | .aside c => !c.movesBoundary id
  | _ => true

/-- The last boundary stays where it is, and the text stays what it is until a unit begins. -/
structure Stays (s s' : Editing Document) : Prop where
  lastBoundary : s'.recorder.lastBoundary = s.recorder.lastBoundary
  text : s'.doc.log.atBoundary = true → s.doc.log.atBoundary = true ∧ s'.doc.text = s.doc.text

namespace Stays

theorem quiet (h : Quiet s s') : Stays s s' :=
  ⟨by rw [h.recorder], fun hopens => ⟨by rwa [h.log] at hopens, h.text⟩⟩

/-- Once something is on top that is no boundary, a unit has begun. -/
theorem edit {older : List Entry} (hkeeps : Recording.Keeps s.recording s'.recording)
    (hentries : s'.doc.log.entries = e :: older) (he : e.isBoundary = false) : Stays s s' := by
  refine ⟨hkeeps.lastBoundary, fun hopens => ?_⟩
  rw [Log.atBoundary_eq_opens, hentries] at hopens
  simp [Log.opens, he] at hopens

theorem inserting (added : Text) (s : Editing Document) : Stays s (s.inserting added) := by
  rcases Recording.adds_or_lengthens_afterInsert s.view s.doc.point added.length s.recording with
    hadds | ⟨_, _, -, hafter, hkeeps⟩
  · exact edit hadds.keeps hadds.entries rfl
  · exact edit hkeeps hafter rfl

theorem deleting (start stop : Nat) (s : Editing Document) : Stays s (s.deleting start stop) :=
  edit (keeps_deleting start stop s) (Recording.adds_afterDelete s.view start
    (s.doc.text.between start stop) true s.recording).entries rfl

theorem replacing (start : Nat) (new : Text) (s : Editing Document) :
    Stays s (s.replacing start new) :=
  edit (keeps_replacing start new s) (Recording.adds_afterChange s.view start
    (s.doc.text.between start (start + new.length)) s.recording).entries rfl

theorem putting (span : Span) {runs : List Run} (hne : runs ≠ []) (s : Editing Document) :
    Stays s (s.putting span runs) := by
  have hadds := Recording.adds_recordedRuns s.view span.name runs s.recording hne
  have hentries := hadds.entries
  cases hnew : (runs.map (Recording.runEntry s.view span.name)).reverse with
  | nil =>
      rw [List.reverse_eq_nil_iff, List.map_eq_nil_iff] at hnew
      exact absurd hnew hne
  | cons e new =>
      have hmem : e ∈ (runs.map (Recording.runEntry s.view span.name)).reverse := by
        rw [hnew]
        exact List.mem_cons_self
      obtain ⟨run, -, rfl⟩ := List.mem_map.mp (List.mem_reverse.mp hmem)
      rw [hnew] at hentries
      exact edit hadds.keeps hentries rfl

/-- No call but a boundary moves the last boundary, or ends a unit. -/
theorem deed (hc : c ≠ .boundary) (hd : Deed s c s') : Stays s s' := by
  cases hd with
  | quiet _ hq => exact quiet hq
  | insertion _ => exact inserting _ s
  | deletion _ _ => exact deleting _ _ s
  | replacement _ => exact replacing _ _ s
  | property _ _ hne _ => exact putting _ hne s
  | boundary => exact absurd rfl hc

/-- A truncation keeps the newest entry. -/
theorem truncated (ht : Truncated s s') (hhook : s.recorder.hook.isNone) : Stays s s' := by
  obtain ⟨dropped, hsplit, hcut⟩ := (ht.cut hhook).entries
  refine ⟨by rw [ht.recorder], fun hopens => ⟨?_, by rw [ht.doc]⟩⟩
  rw [Log.atBoundary_eq_opens] at hopens ⊢
  rw [hsplit]
  cases hkept : s'.doc.log.entries with
  | nil =>
      rw [hkept] at hcut
      have hdropped : dropped = [] := hcut.resolve_right (by simp)
      rw [hdropped]
      rfl
  | cons e kept =>
      rw [hkept] at hopens
      exact hopens

theorem leads (hs : s.Sound) (hshort : s.doc.text.Short)
    (hplain : Event.Plain { before := s, what }) (hkeeps : what.keepsBoundary id = true)
    (hleads : what.Leads id s s') : Stays s s' := by
  cases what with
  | call c =>
      rw [Call.after_of_leads hs hshort hleads]
      refine deed ?_ (c.deed s)
      rintro rfl
      cases hkeeps
  | aside c =>
      have hmoves : c.movesBoundary id = false := by
        simpa [Happening.keepsBoundary] using hkeeps
      refine ⟨hleads.lastBoundary hmoves, fun hopens => ?_⟩
      rw [hleads.doc] at hopens ⊢
      exact ⟨hopens, rfl⟩
  | truncation => exact truncated hleads (hplain rfl)

end Stays

section Boundary

variable {o b : Event} {newer between older : List Event}

/-- A boundary is where it was put while nothing moves it, in the text until a unit begins. -/
theorem Course.lastBoundary (h : Course id first (between ++ b :: older) s) (hsound : first.Sound)
    (hempty : first.doc.log.entries = []) (hplain : ∀ e ∈ between ++ b :: older, e.Plain)
    (hshort : ∀ e ∈ between ++ b :: older, e.before.doc.text.Short)
    (hboundary : b.what = .call .boundary)
    (hbetween : ∀ e ∈ between, e.what.keepsBoundary id = true) :
    s.recorder.lastBoundary = some { doc := first.doc.id, position := b.before.doc.point } ∧
      (s.doc.log.atBoundary = true → b.before.doc.point ≤ s.doc.text.length) := by
  induction between generalizing s with
  | nil =>
      cases h with
      | @next s₀ _ _ what earlier leads =>
          obtain rfl : what = .call .boundary := hboundary
          have htraced := earlier.traced hsound hempty
            (fun e he => hplain e (List.mem_cons_of_mem _ he))
            (fun e he => hshort e (List.mem_cons_of_mem _ he))
          rw [Call.after_of_leads htraced.sound (hshort _ List.mem_cons_self) leads, ← htraced.id]
          exact ⟨Recording.lastBoundary_endUnit _ htraced.sound.enabled,
            fun _ => htraced.sound.point_le⟩
  | cons e between ih =>
      cases h with
      | next earlier leads =>
          have hplain' := fun e he => hplain e (List.mem_cons_of_mem _ he)
          have hshort' := fun e he => hshort e (List.mem_cons_of_mem _ he)
          obtain ⟨hlast, hwithin⟩ := ih earlier hplain' hshort'
            fun e he => hbetween e (List.mem_cons_of_mem _ he)
          have htraced := earlier.traced hsound hempty hplain' hshort'
          have hstays := Stays.leads htraced.sound (hshort _ List.mem_cons_self)
            (hplain _ List.mem_cons_self) (hbetween _ List.mem_cons_self) leads
          refine ⟨hstays.lastBoundary.trans hlast, fun hopens => ?_⟩
          obtain ⟨hopened, htext⟩ := hstays.text hopens
          rw [htext]
          exact hwithin hopened

/-- Where the cursor stands after an undo of the newest unit, if an edit opened it. -/
theorem Traced.point_undone (h : Traced first past now) (hpointed : Pointed first.doc.id now past)
    (hshort : now.doc.text.Short) (hnewest : (unitBeginnings now past)[0]? = some o)
    (hcall : o.what = .call c) (hedit : c.isEdit = true)
    (hin : o.before.recorder.settings.inhibitPoint = false)
    (hlast : o.before.recorder.lastBoundary = some { doc := first.doc.id, position })
    (hwithin : o.before.doc.log.atBoundary = true → position ≤ o.before.doc.text.length) :
    (Document.undone 1 now).doc.point = if c.Loses o.before position then 0 else position := by
  obtain ⟨z, hlinked, -⟩ := h.linked
  obtain ⟨q, hchain⟩ := hpointed now.doc.point
  obtain ⟨e, a, d, s, hstep, hs, hundone⟩ := (hlinked.prod hchain).beginning_undone
    (fun a s => PointsTo first.doc.id a.1 a.2 s)
    (fun hstep hs => hstep.2.1 ▸ hs.undone hstep.1.reverts)
    (fun {a _} hs => PointsTo.closing (x := a.1) (p := a.2) hs)
    (s := now.closing) (PointsTo.closing ⟨h.ready hshort, (Nat.min_eq_left h.sound.point_le).symm⟩)
    hnewest
  have hpoint := (hs.undone hstep.1.reverts).point
  obtain ⟨htext, hopens⟩ := hstep.1.origin rfl
  have hposition := hwithin hopens
  rw [← hstep.2.1, ← htext, hstep.2.2 rfl c position hcall hedit hopens hin hlast] at hpoint
  unfold Document.undone Log.units
  rw [hundone]
  show (e.undone s).doc.point = _
  rw [hpoint]
  split <;> omega

/--
**Undo puts the cursor back, but for one case.**  Let the newest unit of a document
begin with an insertion, a deletion or a replacement while the cursor is being recorded,
and let the last boundary before that, on whatever document, be one of this document.
Then an undo of the unit leaves the cursor where it stood at the boundary; but if the
edit took out all the text up to there, and the cursor had not moved since, it leaves
the cursor at the start.
-/
theorem undo_returns_cursor {start : Workspace} {commands : List Command}
    (h : Session start commands id first now) (hplain : ∀ e ∈ start.past id commands, e.Plain)
    (hpast : start.past id commands = newer ++ o :: (between ++ b :: older))
    (hboundary : b.what = .call .boundary)
    (hbetween : ∀ e ∈ between, e.what.keepsBoundary id = true)
    (hnewest : (unitBeginnings now (start.past id commands))[0]? = some o)
    (hcall : o.what = .call c) (hedit : c.isEdit = true)
    (hin : o.before.recorder.settings.inhibitPoint = false) :
    Document.UndoLeads 1 now fun t => t.doc.point =
      if c.Loses o.before b.before.doc.point then 0 else b.before.doc.point := by
  have htraced := h.course.traced h.sound h.empty hplain h.short
  have hpointed := h.course.pointed h.sound h.empty hplain h.short
  have hcourse := h.course
  rw [hpast] at hcourse
  have hsub : ∀ e ∈ between ++ b :: older, e ∈ start.past id commands := by
    intro e he
    rw [hpast]
    exact List.mem_append_right _ (List.mem_cons_of_mem _ he)
  obtain ⟨hlast, hwithin⟩ := hcourse.event.1.lastBoundary h.sound h.empty
    (fun e he => hplain e (hsub e he)) (fun e he => h.short e (hsub e he)) hboundary hbetween
  exact htraced.undoLeads h.short_now
    (htraced.point_undone hpointed h.short_now hnewest hcall hedit hin hlast hwithin)

/-- A workspace with one document of three characters. -/
def Workspace.abc : Workspace := .ofText ['a', 'b', 'c']

/-- With the cursor at the end of the text a unit ends; then the cursor goes to `stop`, and what
is before it is deleted. -/
def deletingUpTo (stop : Nat) : List Command :=
  [.document ⟨0⟩ (.deleteRange 0 stop), .sheet ⟨0⟩ (.setPoint stop), .sheet ⟨0⟩ .insertBoundary,
    .sheet ⟨0⟩ (.setPoint 3)]

/-- Deleted elsewhere than where the boundary left the cursor: it is put back there. -/
theorem undo_returns_cursor_moved :
    ∃ now, (Workspace.abc.later (deletingUpTo 1)).moment? ⟨0⟩ = some now ∧
      Document.UndoSucceeds 1 now fun t => t.doc.point = 3 := by
  obtain ⟨now, hnow⟩ := Option.isSome_iff_exists.mp
    (show ((Workspace.abc.later (deletingUpTo 1)).moment? ⟨0⟩).isSome by decide +kernel)
  obtain ⟨rest, o, e₂, e₃, e₄, b, older, hpast⟩ : ∃ rest o e₂ e₃ e₄ b older,
      Workspace.abc.past ⟨0⟩ (deletingUpTo 1)
        = [rest] ++ o :: ([e₂, e₃, e₄] ++ b :: older) := ⟨_, _, _, _, _, _, _, rfl⟩
  have hnewest : ((Workspace.abc.later (deletingUpTo 1)).moment? ⟨0⟩).bind
      (fun now => (unitBeginnings now (Workspace.abc.past ⟨0⟩ (deletingUpTo 1)))[0]?)
        = (Workspace.abc.past ⟨0⟩ (deletingUpTo 1))[1]? := rfl
  have hcall : (Workspace.abc.past ⟨0⟩ (deletingUpTo 1))[1]?.map (·.what)
      = some (.call (.deleteRange 0 1)) := rfl
  have hboundary : (Workspace.abc.past ⟨0⟩ (deletingUpTo 1))[5]?.map (·.what)
      = some (.call .boundary) := rfl
  have hin : (Workspace.abc.past ⟨0⟩ (deletingUpTo 1))[1]?.all
      (·.before.recorder.settings.inhibitPoint = false) := by decide +kernel
  have hthen : (Workspace.abc.past ⟨0⟩ (deletingUpTo 1))[5]?.all (·.before.doc.point = 3) := by
    decide +kernel
  have hbetween : (((Workspace.abc.past ⟨0⟩ (deletingUpTo 1)).take 5).drop 2).all
      (·.what.keepsBoundary ⟨0⟩) := by decide +kernel
  have hfacts : ((Workspace.abc.later (deletingUpTo 1)).moment? ⟨0⟩).all fun now =>
      now.doc.text.Short ∧ HasRoom now.doc.log.entries now := by decide +kernel
  simp only [hnow, Option.all_some, decide_eq_true_eq] at hfacts
  obtain ⟨hshort, hroom⟩ := hfacts
  have hsession := Session.ofText (deletingUpTo 1) (by decide +kernel) (by decide) hnow
    (by decide +kernel) hshort
  rw [hnow, Option.bind_some] at hnewest
  rw [hpast] at hcall hboundary hin hthen hbetween
  have h := undo_returns_cursor hsession (by decide +kernel) hpast (Option.some.inj hboundary)
    (List.all_eq_true.mp hbetween) (hnewest.trans (by rw [hpast]; rfl)) (Option.some.inj hcall) rfl
    (decide_eq_true_eq.mp hin)
  have hpoint : b.before.doc.point = 3 := decide_eq_true_eq.mp hthen
  rw [hpoint, if_neg fun hloses => by cases hloses.2.2] at h
  exact ⟨now, hnow, h.succeeds hroom⟩

/-- Deleted where the boundary left the cursor: it is not put back, but goes to the start. -/
theorem undo_loses_cursor :
    ∃ first now rest o e₂ e₃ e₄ b older,
      Session Workspace.abc (deletingUpTo 3) ⟨0⟩ first now ∧
      Workspace.abc.past ⟨0⟩ (deletingUpTo 3) = [rest] ++ o :: ([e₂, e₃, e₄] ++ b :: older) ∧
      b.what = .call .boundary ∧ b.before.doc.point = 3 ∧
      (∀ e ∈ [e₂, e₃, e₄], e.what.keepsBoundary ⟨0⟩ = true) ∧
      (unitBeginnings now (Workspace.abc.past ⟨0⟩ (deletingUpTo 3)))[0]? = some o ∧
      o.what = .call (.deleteRange 0 3) ∧ o.before.recorder.settings.inhibitPoint = false ∧
      Document.UndoSucceeds 1 now fun t => t.doc.point = 0 := by
  have hfacts : ((Workspace.abc.later (deletingUpTo 3)).moment? ⟨0⟩).any fun now =>
      decide (now.doc.text.Short ∧ Document.UndoSucceeds 1 now fun t => t.doc.point = 0) := by
    decide +kernel
  obtain ⟨now, hnow, hfacts⟩ := (Option.any_eq_true _ _).mp hfacts
  obtain ⟨hshort, hundo⟩ := decide_eq_true_eq.mp hfacts
  have hsession := Session.ofText (deletingUpTo 3) (by decide +kernel) (by decide) hnow
    (by decide +kernel) hshort
  have hnewest : ((Workspace.abc.later (deletingUpTo 3)).moment? ⟨0⟩).bind
      (fun now => (unitBeginnings now (Workspace.abc.past ⟨0⟩ (deletingUpTo 3)))[0]?)
        = (Workspace.abc.past ⟨0⟩ (deletingUpTo 3))[1]? := rfl
  rw [hnow, Option.bind_some] at hnewest
  refine ⟨_, now, _, _, _, _, _, _, _, hsession, rfl, rfl, rfl, ?_, hnewest, rfl, rfl, hundo⟩
  decide

end Boundary

end EditHistory
