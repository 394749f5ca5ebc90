/-
What typing leaves in the log, and what the report says of it.

A text that is typed into an empty document in pieces leaves one unit a piece, and a unit is
one insertion with its boundary.  No two insertions become one, because each finds a boundary
on top of the log; and no cursor is noted, because it still is where that boundary found it.
Only the first piece finds the document unmodified, and notes that below everything else.
`Typed` holds what a piece needs to find for this, and what it leaves for the next.

So the log has a closed form, `typedUnits`, and the three walks of the report over it can be
compared: all entries are counted, the units are, and their cost is, for the newest of them as
far as the boundary that closes the last one asked for.
-/
import EditHistory.Typing
import EditHistory.Proofs.Document.Edits
import EditHistory.Proofs.Log.Sizes

namespace EditHistory

variable {size length count n : Nat} {older : List Entry}

/-! ### Pieces -/

/-- There is a piece for every `size` elements that were begun. -/
theorem length_pieces {α : Type} (hsize : 0 < size) (l : List α) :
    (pieces size l).length = (l.length + size - 1) / size := by
  induction l using pieces.induct size with
  | case1 =>
      rw [pieces, List.length_nil, List.length_nil, Nat.zero_add]
      exact (Nat.div_eq_of_lt (Nat.sub_lt hsize Nat.one_pos)).symm
  | case2 a rest ih =>
      have hbegun : (a :: rest).length + size - 1 = rest.length + size := by
        rw [List.length_cons]
        omega
      rw [pieces, List.length_cons, ih, List.length_drop, hbegun, Nat.add_div_right _ hsize]
      refine congrArg Nat.succ ?_
      by_cases hlast : rest.length < size
      · rw [Nat.div_eq_of_lt hlast, Nat.div_eq_of_lt (by omega)]
      · congr 1
        omega

/-! ### The entries of units that were typed -/

/-- The entries of the first `count` units, of `size` characters each, of a text of this length. -/
def typedUnits (size length : Nat) : Nat → List Entry
  | 0 => []
  | i + 1 => .boundary :: .insertion (i * size) (min ((i + 1) * size) length) ::
      typedUnits size length i

theorem length_typedUnits (size length count : Nat) :
    (typedUnits size length count).length = 2 * count := by
  induction count with
  | zero => rfl
  | succ i ih =>
      rw [typedUnits, List.length_cons, List.length_cons, ih]
      omega

theorem totalCost_typedUnits (size length count : Nat) :
    Entry.totalCost (typedUnits size length count) = 48 * count := by
  induction count with
  | zero => rfl
  | succ i ih =>
      rw [typedUnits, Entry.totalCost_cons, Entry.totalCost_cons, ih]
      show 16 + (32 + 48 * i) = _
      omega

namespace Log

/-- Entries with no boundary among them are of one unit, if that holds an entry already. -/
theorem countGroups_of_no_boundary (h : ∀ e ∈ older, e.isBoundary = false) :
    countGroups true older = 1 := by
  induction older with
  | nil => rfl
  | cons e older ih =>
      obtain ⟨he, hrest⟩ := List.forall_mem_cons.mp h
      rw [countGroups, he, if_neg Bool.false_ne_true, ih hrest]

/-- The units that were typed are counted below an entry of another one. -/
theorem countGroups_typedUnits (h : ∀ e ∈ older, e.isBoundary = false) (count : Nat) :
    countGroups true (typedUnits size length count ++ older) = count + 1 := by
  induction count with
  | zero => exact countGroups_of_no_boundary h
  | succ i ih =>
      show 1 + countGroups true (typedUnits size length i ++ older) = _
      rw [ih, Nat.add_comm]

theorem apart_typedUnits (h : ∀ e ∈ older, e.isBoundary = false) (count : Nat) :
    Apart (typedUnits size length count ++ older) := by
  induction count with
  | zero =>
      refine (List.pairwise_of_forall_mem_list fun e he _ _ hboth => ?_).isChain
      have hno := h e he
      rw [hboth.1] at hno
      cases hno
  | succ i ih =>
      refine List.isChain_cons_cons.mpr ⟨nofun, List.isChain_cons.mpr ⟨fun _ _ => nofun, ih⟩⟩

/-- Below the first insertion the newest `n` units end at the `n`-th boundary. -/
theorem totalCost_upToBoundary_typedUnits (hn : 1 ≤ n) (hcount : n ≤ count)
    (start stop : Nat) :
    Entry.totalCost (upToBoundary n
      (.insertion start stop :: (typedUnits size length count ++ older))) = 48 * n := by
  induction n generalizing count start stop with
  | zero => exact absurd hn (Nat.not_succ_le_zero 0)
  | succ n ih =>
      obtain ⟨i, rfl⟩ := Nat.exists_eq_add_of_le' (Nat.le_trans hn hcount)
      show 32 + Entry.totalCost (if n + 1 ≤ 1 then [.boundary] else .boundary ::
        upToBoundary n (.insertion (i * size) (min ((i + 1) * size) length) ::
          (typedUnits size length i ++ older))) = _
      by_cases hlast : n + 1 ≤ 1
      · rw [if_pos hlast]
        show 32 + 16 = _
        omega
      · rw [if_neg hlast, Entry.totalCost_cons,
          ih (by omega) (Nat.le_of_succ_le_succ hcount) _ _]
        show 32 + (16 + 48 * n) = _
        omega

/-- So the newest `n` units cost as much as `n` units and the boundary on top of them. -/
theorem totalCost_measured_typedUnits (hn : 1 ≤ n) (hcount : n < count) :
    Entry.totalCost (measured n (typedUnits size length count ++ older)) = 16 + 48 * n := by
  obtain ⟨i, rfl⟩ := Nat.exists_eq_add_of_le' (Nat.le_trans hn (Nat.le_of_lt hcount))
  show 16 + Entry.totalCost (upToBoundary n (.insertion (i * size) _ ::
    (typedUnits size length i ++ older))) = _
  rw [totalCost_upToBoundary_typedUnits hn (Nat.le_of_lt_succ hcount)]

end Log

/-! ### The report of units that were typed -/

/-- The first change below the units that were typed, if there are any and it was noted. -/
def notedBelow (count : Nat) (noted : Bool) : List Entry :=
  if 0 < count ∧ noted = true then [.firstChange none] else []

/-- A log that holds just the units that were typed, and the first change. -/
def Log.Typed (size length count : Nat) (noted : Bool) (log : Log) : Prop :=
  log.disabled = false ∧
    log.entries = typedUnits size length count ++ notedBelow count noted

/-- Only the first unit has it noted before. -/
theorem notedBelow_succ (size length count : Nat) (noted : Bool) :
    (if count = 0 then notedBelow 1 noted else []) ++
        (typedUnits size length count ++ notedBelow count noted)
      = typedUnits size length count ++ notedBelow (count + 1) noted := by
  cases count with
  | zero => exact List.append_nil _
  | succ i => simp [notedBelow]

theorem isBoundary_of_mem_notedBelow {noted : Bool} {e : Entry} (h : e ∈ notedBelow count noted) :
    e.isBoundary = false := by
  unfold notedBelow at h
  split at h
  · rw [List.mem_singleton.mp h]
    rfl
  · cases h

theorem Log.Typed.unitCount {noted : Bool} {log : Log}
    (h : log.Typed size length count noted) : log.unitCount = count := by
  unfold Log.unitCount
  rw [h.2]
  cases count with
  | zero => rfl
  | succ i =>
      show 0 + Log.countGroups true (typedUnits size length i ++ notedBelow (i + 1) noted) = _
      rw [Nat.zero_add, Log.countGroups_typedUnits (fun _ => isBoundary_of_mem_notedBelow)]

/-- What the report says of such a log, of which `n` units are measured apart. -/
def Report.ofTyped (count : Nat) (noted : Bool) (n : Nat) : Report :=
  let first := if 0 < count ∧ noted = true then 1 else 0
  let bytes := 48 * count + 32 * first
  { entries := 2 * count + first
    units := count
    bytes
    newestBytes := if 0 < n ∧ n < count then 16 + 48 * n else bytes }

theorem Report.ofLog_typed {noted : Bool} {log : Log} (h : log.Typed size length count noted)
    (n : Nat) : Report.ofLog log n = .ok (Report.ofTyped count noted n) := by
  have hunits := h.unitCount
  obtain ⟨hon, hentries⟩ := h
  have hlength : log.length = 2 * count + if 0 < count ∧ noted = true then 1 else 0 := by
    rw [Log.length, hentries, List.length_append, length_typedUnits, notedBelow]
    split <;> rfl
  have hcost : Entry.totalCost log.entries
      = 48 * count + 32 * if 0 < count ∧ noted = true then 1 else 0 := by
    rw [hentries, Entry.totalCost_append, totalCost_typedUnits, notedBelow]
    split <;> rfl
  have hnewest : log.sizeWithin (some (n : Int)) = .ok (some (if 0 < n ∧ n < count then 16 + 48 * n
      else Entry.totalCost log.entries)) := by
    by_cases hn : 0 < n
    · rw [Log.sizeWithin_some hon hn]
      by_cases hcount : n < count
      · rw [if_pos ⟨hn, hcount⟩, hentries, Log.totalCost_measured_typedUnits hn hcount]
      · have hapart : Log.Apart log.entries := by
          rw [hentries]
          exact Log.apart_typedUnits (fun _ => isBoundary_of_mem_notedBelow) count
        have hsize := Log.sizeOf_measured hon hapart hn
        rw [if_neg (fun hboth => hcount hboth.2),
          hsize.eq_iff.mpr (Or.inl (hunits.trans_le (Nat.not_lt.mp hcount)))]
    · obtain rfl : n = 0 := Nat.eq_zero_of_not_pos hn
      rw [if_neg (fun hboth => hn hboth.1)]
      exact (Log.sizeWithin_zero log).trans (Log.sizeWithin_none hon)
  unfold Report.ofLog
  rw [Log.sizeWithin_none hon, hnewest, hcost, hlength, hunits]
  rfl

/-- A negative number of units is refused. -/
theorem Report.ofLog_negative {log : Log} (hon : log.disabled = false) {units : Int}
    (hneg : units < 0) : Report.ofLog log units = .error (.negativeUnits units) := by
  unfold Report.ofLog
  rw [Log.sizeWithin_none hon]
  obtain ⟨n, rfl⟩ := Int.eq_negSucc_of_lt_zero hneg
  show (do let _ ← log.sizeWithin (some (Int.negSucc n)); _) = _
  have hrefused : log.sizeWithin (some (Int.negSucc n)) = .error (.negativeUnits (Int.negSucc n)) := by
    unfold Log.sizeWithin
    rw [if_neg (by simp [hon])]
  rw [hrefused]
  rfl

/-! ### Typing -/

namespace Editing

variable {s : Editing Document} {piece : Text}

/-- The moment after `count` pieces were typed into an empty document. -/
structure Typed (count : Nat) (s : Editing Document) : Prop where
  point : s.doc.point = s.doc.text.length
  spans : s.doc.spans = []
  ticks : s.doc.ticks = { modified := count, saved := 0 }
  modtime : s.doc.modtime = none
  markers : ∀ m ∈ s.markers.ofDoc s.doc.id, m.2.position ≤ s.doc.text.length
  enabled : s.doc.log.disabled = false
  closed : s.doc.log.atBoundary = true
  /-- If the last boundary was for the document, the cursor is where that found it. -/
  still : ∀ position ∈ s.recorder.positionIn s.doc.id, position = s.doc.point
  unmarked : count = 0 → s.doc.log.markedTick = none

/-- All that is noted before a piece is that the document is unmodified before the first. -/
theorem Typed.preamble_eq (h : s.Typed count) :
    Recording.preamble s.view s.doc.point s.recording
      = if count = 0 then notedBelow 1 (!s.recorder.settings.inhibitPoint) else [] := by
  have hmoves : Recording.pointMoves s.view s.doc.point s.recording = [] := by
    unfold Recording.pointMoves
    split
    · exact if_pos (h.still _ ‹_›)
    · rfl
  have hfirst : Recording.firstChanges s.view s.recording
      = if count = 0 then [.firstChange none] else [] := by
    have hunnoted : Recording.Unnoted s.view s.recording ↔ count = 0 := by
      show (s.doc.ticks.modified ≤ s.doc.ticks.saved ∧
        s.doc.log.markedTick ≠ some s.doc.ticks.modified) ↔ _
      rw [h.ticks]
      refine ⟨fun hclean => Nat.le_zero.mp hclean.1, ?_⟩
      rintro rfl
      exact ⟨Nat.le_refl 0, by simp [h.unmarked rfl]⟩
    have hmodtime : s.view.modtime = none := h.modtime
    unfold Recording.firstChanges
    rw [hmodtime]
    simp only [hunnoted]
  have hsettings : s.recording.recorder.settings = s.recorder.settings := rfl
  unfold Recording.preamble
  rw [hmoves, hfirst, List.nil_append, hsettings]
  cases s.recorder.settings.inhibitPoint with
  | true => exact (ite_self []).symm
  | false => rfl

/-- The piece gets an entry of its own, because a boundary is on top of the log, or nothing. -/
theorem Typed.adds_inserting (h : s.Typed count) (piece : Text) :
    Recording.Adds (.insertion s.doc.point (s.doc.point + piece.length) ::
        Recording.preamble s.view s.doc.point s.recording) s.recording
      (s.recording.afterInsert s.view s.doc.point piece.length) := by
  rcases Recording.adds_or_lengthens_afterInsert s.view s.doc.point piece.length s.recording with
    hadds | ⟨first, older, hentries, -⟩
  · exact hadds
  · have hopen : s.doc.log.atBoundary = false := by
      have hentries' : s.doc.log.entries = .insertion first s.doc.point :: older := hentries
      unfold Log.atBoundary Log.head?
      rw [hentries']
      rfl
    cases hopen.symm.trans h.closed

theorem Typed.markers_inserting (h : s.Typed count) (piece : Text) :
    ∀ m ∈ (s.markers.afterInsert s.doc.id s.doc.point piece.length).ofDoc s.doc.id,
      m.2.position ≤ s.doc.text.length + piece.length := by
  rintro ⟨id, m⟩ hm
  obtain ⟨hget, howner⟩ := MarkerTable.mem_ofDoc.mp hm
  obtain ⟨m', hget', howner', rfl⟩ := MarkerTable.of_get?_move hget howner
  have hbefore := h.markers (id, m') (MarkerTable.mem_ofDoc.mpr ⟨hget', howner'⟩)
  dsimp only at hbefore ⊢
  unfold Offset.afterInsert
  split <;> omega

theorem Typed.text_inserting (h : s.Typed count) (piece : Text) :
    (s.inserting piece).doc.text = s.doc.text ++ piece := by
  show s.doc.text.spliced s.doc.point piece = _
  rw [h.point, Text.spliced, List.take_length, List.drop_length, List.append_nil]

theorem Typed.inRange_inserting (h : s.Typed count)
    (hlength : Offset.Fits (s.doc.text.length + piece.length)) (hcount : Offset.Fits (count + 1)) :
    Document.InRange (s.inserting piece) := by
  refine ⟨?_, ?_, fun m hm => Nat.lt_of_le_of_lt (h.markers_inserting piece m hm) hlength, ?_⟩
  · show Offset.Fits (s.doc.point + piece.length)
    rwa [h.point]
  · show Offset.Fits (s.doc.ticks.modified + 1)
    rwa [h.ticks]
  · show ∀ span ∈ s.doc.spans.map _, _
    rw [h.spans]
    exact List.forall_mem_nil _

theorem Typed.enabled_inserting (h : s.Typed count) (piece : Text) :
    (s.inserting piece).recording.log.disabled = false :=
  (h.adds_inserting piece).keeps.disabled.trans h.enabled

/-- The unit of the piece goes on top of the log, above what was to be noted before it. -/
theorem Typed.entries_closing (h : s.Typed count) (piece : Text) :
    (s.inserting piece).closing.doc.log.entries = .boundary ::
      .insertion s.doc.point (s.doc.point + piece.length) ::
        (Recording.preamble s.view s.doc.point s.recording ++ s.doc.log.entries) := by
  have hinserted : (s.inserting piece).doc.log.entries
      = .insertion s.doc.point (s.doc.point + piece.length) ::
        (Recording.preamble s.view s.doc.point s.recording ++ s.doc.log.entries) :=
    (h.adds_inserting piece).entries
  have hopen : (s.inserting piece).recording.log.atBoundary = false := by
    show (s.inserting piece).doc.log.atBoundary = false
    unfold Log.atBoundary Log.head?
    rw [hinserted]
    rfl
  have hends := Recording.entries_endUnit (s.inserting piece).view (h.enabled_inserting piece)
  unfold Recording.closing at hends
  rw [hopen, if_neg Bool.false_ne_true] at hends
  rw [← hinserted]
  exact hends

/-- What is left of a piece is what the next one needs to find. -/
theorem Typed.closing (h : s.Typed count) (piece : Text) :
    (s.inserting piece).closing.Typed (count + 1) := by
  have hon := h.enabled_inserting piece
  have htext := h.text_inserting piece
  constructor
  · show s.doc.point + piece.length = (s.inserting piece).doc.text.length
    rw [htext, List.length_append, h.point]
  · show s.doc.spans.map _ = []
    rw [h.spans, List.map_nil]
  · show { s.doc.ticks with modified := s.doc.ticks.modified + 1 } = _
    rw [h.ticks]
  · exact h.modtime
  · show ∀ m ∈ (s.inserting piece).markers.ofDoc s.doc.id,
      m.2.position ≤ (s.inserting piece).doc.text.length
    rw [htext, List.length_append]
    exact h.markers_inserting piece
  · exact (Recording.disabled_endUnit _ _).trans hon
  · exact Log.atBoundary_iff.mpr (Or.inr ⟨_, h.entries_closing piece⟩)
  · -- The boundary was put there with the cursor behind the piece.
    have hplace : (s.inserting piece).closing.recorder.lastBoundary
        = some { doc := s.doc.id, position := s.doc.point + piece.length } :=
      Recording.lastBoundary_endUnit _ hon
    have hfound : (s.inserting piece).closing.recorder.positionIn s.doc.id
        = some (s.doc.point + piece.length) := by
      rw [Recorder.positionIn, hplace, Option.filter_some, if_pos (decide_eq_true rfl)]
      rfl
    exact fun position hposition => (Option.some.inj (hfound.symm.trans hposition)).symm
  · exact fun hzero => absurd hzero (Nat.succ_ne_zero count)

/-- A piece can be typed, leaves its unit, and finds what the next piece needs to find. -/
theorem Typed.typePiece (h : s.Typed count) (hne : piece ≠ [])
    (hlength : Offset.Fits (s.doc.text.length + piece.length)) (hcount : Offset.Fits (count + 1)) :
    ∃ t, Document.typePiece piece s = .ok () t ∧ t.Typed (count + 1) ∧
      t.doc.text = s.doc.text ++ piece ∧ t.recorder.settings = s.recorder.settings ∧
      t.doc.log.entries = .boundary ::
        .insertion s.doc.text.length (s.doc.text.length + piece.length) ::
          ((if count = 0 then notedBelow 1 (!s.recorder.settings.inhibitPoint) else [])
            ++ s.doc.log.entries) := by
  have hinsert : Document.insert piece s = .ok () (s.inserting piece) :=
    Document.insert_ok h.enabled hne (Nat.le_of_eq h.point) (h.inRange_inserting hlength hcount)
  have hsettings : (s.inserting piece).recorder.settings = s.recorder.settings :=
    (h.adds_inserting piece).keeps.settings
  refine ⟨(s.inserting piece).closing, ?_, h.closing piece, h.text_inserting piece, ?_, ?_⟩
  · exact (EditM.bind_ok hinsert).trans (Document.insertBoundary_ok _)
  · exact (Recording.settings_endUnit _ _).trans hsettings
  · rw [h.entries_closing piece, h.preamble_eq, h.point]

/-- The rest of a text is typed after pieces that were as long as they may be. -/
theorem Typed.typeRest (h : s.Typed count) (rest : Text) (hsize : 0 < size)
    (hlong : rest ≠ [] → s.doc.text.length = count * size)
    (hlength : length = s.doc.text.length + rest.length) (hfits : Offset.Fits length)
    (hlog : s.doc.log.entries = typedUnits size length count
      ++ notedBelow count (!s.recorder.settings.inhibitPoint)) :
    ∃ t, (pieces size rest).forM Document.typePiece s = .ok () t ∧
      t.Typed (count + (pieces size rest).length) ∧ t.doc.text = s.doc.text ++ rest ∧
      t.doc.log.Typed size length (count + (pieces size rest).length)
        (!s.recorder.settings.inhibitPoint) := by
  induction rest using pieces.induct size generalizing s count with
  | case1 =>
      rw [pieces]
      exact ⟨s, rfl, h, (List.append_nil _).symm, h.enabled, hlog⟩
  | case2 a rest ih =>
      have hdone := hlong (List.cons_ne_nil a rest)
      have hall : (a :: rest.take (size - 1)) ++ rest.drop (size - 1) = a :: rest :=
        congrArg (a :: ·) (List.take_append_drop (size - 1) rest)
      have hpiece : (a :: rest.take (size - 1)).length + (rest.drop (size - 1)).length
          = (a :: rest).length := by
        rw [← List.length_append, hall]
      have hshort : (a :: rest.take (size - 1)).length = min size (a :: rest).length := by
        rw [List.length_cons, List.length_take, List.length_cons]
        omega
      have hcount : count + 1 ≤ length := by
        have hle := Nat.le_mul_of_pos_right count hsize
        rw [List.length_cons] at hlength
        omega
      obtain ⟨t, hrun, htyped, htext, hsettings, hentries⟩ :=
        h.typePiece (List.cons_ne_nil a (rest.take (size - 1)))
          (Nat.lt_of_le_of_lt (by omega) hfits) (Nat.lt_of_le_of_lt hcount hfits)
      have hlength' : t.doc.text.length = s.doc.text.length + min size (a :: rest).length := by
        rw [htext, List.length_append, hshort]
      have hnext : (count + 1) * size = s.doc.text.length + size := by
        rw [hdone, Nat.succ_mul]
      have hlog' : t.doc.log.entries = typedUnits size length (count + 1)
          ++ notedBelow (count + 1) (!t.recorder.settings.inhibitPoint) := by
        have hstop : s.doc.text.length + (a :: rest.take (size - 1)).length
            = min ((count + 1) * size) length := by
          rw [hnext, hshort, hlength, Nat.add_min_add_left]
        rw [hentries, hlog, notedBelow_succ, hsettings, hstop, hdone]
        rfl
      obtain ⟨t', hrest, htyped', htext', hlog''⟩ := ih htyped
        (fun hmore => by
          rw [hlength', hnext]
          have hpos := List.length_pos_iff.mpr hmore
          omega)
        (by rw [hlength', ← hshort]; omega) hlog'
      rw [pieces, List.length_cons, Nat.add_comm _ 1, ← Nat.add_assoc]
      refine ⟨t', (EditM.bind_ok hrun).trans hrest, htyped', ?_, ?_⟩
      · rw [htext', htext, List.append_assoc, hall]
      · rwa [hsettings] at hlog''

theorem typed_ofText {recorder : Recorder} {markers : MarkerTable} {id : DocId}
    (hfresh : recorder.positionIn id = none)
    (hmarkers : ∀ m ∈ markers.ofDoc id, m.2.position = 0) :
    Typed 0 { recorder, markers, doc := .ofText id [] } where
  point := rfl
  spans := rfl
  ticks := rfl
  modtime := rfl
  markers m hm := Nat.le_of_eq (hmarkers m hm)
  enabled := rfl
  closed := rfl
  still position hposition := by cases hfresh.symm.trans hposition
  unmarked _ := rfl

end Editing

/--
**Typing and its report are exact.**  A text that can be in memory is typed into an empty
document, `size` characters a piece and at least one, while the recorder remembers no boundary
of the document.  That succeeds, the text is what was typed and the cursor is behind it.  The
log holds, newest first, a boundary and an insertion for each piece, and below them a first
change, unless nothing was typed or points are not recorded; it holds nothing else.  The report
counts these entries and the pieces, and sums up their cost, of the newest units up to the
boundary below them; zero units or no fewer than there are mean all of them, and a negative
number is refused.
-/
theorem typing_is_reported (text : Text) (size : Nat) (recorder : Recorder)
    (markers : MarkerTable) (id : DocId) (hfits : Offset.Fits text.length)
    (hfresh : recorder.positionIn id = none)
    (hmarkers : ∀ m ∈ markers.ofDoc id, m.2.position = 0) :
    let c := max size 1
    let u := (text.length + c - 1) / c
    let noted := 0 < text.length ∧ recorder.settings.inhibitPoint = false
    let f := if noted then 1 else 0
    ∃ t, Document.typeIn text size { recorder, markers, doc := .ofText id [] } = .ok () t ∧
      t.doc.text = text ∧ t.doc.point = text.length ∧
      t.doc.log.entries
        = typedUnits c text.length u ++ (if noted then [.firstChange none] else []) ∧
      (∀ n : Nat, Report.ofLog t.doc.log n = .ok
        { entries := 2 * u + f
          units := u
          bytes := 48 * u + 32 * f
          newestBytes := if 0 < n ∧ n < u then 16 + 48 * n else 48 * u + 32 * f }) ∧
      ∀ units : Int, units < 0 → Report.ofLog t.doc.log units = .error (.negativeUnits units) := by
  intro c u noted f
  have hsize : 0 < c := Nat.lt_of_lt_of_le Nat.one_pos (Nat.le_max_right size 1)
  have hcount : (pieces c text).length = u := length_pieces hsize text
  have hnoted : (0 < u ∧ (!recorder.settings.inhibitPoint) = true) ↔ noted := by
    rw [Bool.not_eq_true']
    refine and_congr_left fun _ => ⟨fun hu => List.length_pos_iff.mpr ?_, fun htext => ?_⟩
    · rintro rfl
      rw [pieces, List.length_nil] at hcount
      exact absurd hu (Nat.not_lt.mpr (Nat.le_of_eq hcount.symm))
    · exact Nat.div_pos (by omega) hsize
  obtain ⟨t, hrun, htyped, htext, hlog⟩ :=
    (Editing.typed_ofText hfresh hmarkers).typeRest text hsize
      (fun _ => (Nat.zero_mul c).symm) (Nat.zero_add _).symm hfits rfl
  rw [Nat.zero_add, hcount] at hlog
  refine ⟨t, hrun, htext, htyped.point.trans (congrArg List.length htext), ?_, fun n => ?_,
    fun units hneg => Report.ofLog_negative hlog.1 hneg⟩
  · rw [hlog.2, notedBelow]
    simp only [hnoted]
  · rw [Report.ofLog_typed hlog n, Report.ofTyped]
    simp only [hnoted]
    rfl

/--
Eight characters in pieces of three, around a marker that is pushed along.  The last piece is
short, and of two units there is the boundary that closes the second measured, not the third.
-/
theorem typing_is_reported_three_units :
    let recorder : Recorder := { listening := true }
    let markers : MarkerTable := { markers := [{ position := 0, advances := true, owner := some ⟨0⟩ }] }
    Offset.Fits 8 ∧ recorder.positionIn ⟨0⟩ = none ∧
      (∀ m ∈ markers.ofDoc ⟨0⟩, m.2.position = 0) ∧
      ∃ t, Document.typeIn ['a', 'b', 'c', 'd', 'e', 'f', 'g', 'h'] 3
          { recorder, markers, doc := .ofText ⟨0⟩ [] } = .ok () t ∧
        t.doc.log.entries = [.boundary, .insertion 6 8, .boundary, .insertion 3 6, .boundary,
          .insertion 0 3, .firstChange none] ∧
        Report.ofLog t.doc.log 2
          = .ok { entries := 7, units := 3, bytes := 176, newestBytes := 112 } ∧
        Report.ofLog t.doc.log (-1) = .error (.negativeUnits (-1)) := by
  intro recorder markers
  have hmarkers : ∀ m ∈ markers.ofDoc ⟨0⟩, m.2.position = 0 := by decide
  obtain ⟨t, hrun, -, -, hentries, hreport, hnegative⟩ :=
    typing_is_reported ['a', 'b', 'c', 'd', 'e', 'f', 'g', 'h'] 3 recorder markers ⟨0⟩
      (by decide) rfl hmarkers
  exact ⟨by decide, rfl, hmarkers, t, hrun, hentries, hreport 2, hnegative (-1) (by decide)⟩

end EditHistory
