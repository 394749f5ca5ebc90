/-
Undo puts markers back.

A deletion collapses every position in the text it takes to one, so reinserting that
text cannot tell them apart again.  What the log keeps for each marker is how far off
it will then be.  Taking back a deletion first reinserts the text, which moves a marker
to one end of it or the other, and then takes back the displacements.  That of a marker
which nobody has any more is passed over.

For one marker all this is a function of its position, `Entry.markerUndone`, and the
chain that the function spells out runs down the log beside the chain of texts.  At the
first entry of a unit the marker is where it stood when the unit began.  A marker that
was made later stood nowhere then, and of the older units nothing is asked.
-/
import EditHistory.Proofs.Undo.Text

namespace EditHistory

open Editing

/-! ### Positions -/

namespace Offset

variable {start stop first length pos : Nat} {advances : Bool}

theorem afterDelete_afterInsert :
    afterDelete start (start + length) (afterInsert start length advances pos) = pos := by
  unfold afterDelete afterInsert
  split <;> split <;> (try split) <;> omega

/-- Taking back an insertion that was lengthened is taking back both parts of it. -/
theorem afterDelete_afterInsert_lengthened (h : first ≤ start) :
    afterDelete first (start + length) (afterInsert start length advances pos)
      = afterDelete first start pos := by
  unfold afterDelete afterInsert
  split <;> split <;> (try split) <;> (try split) <;> (try split) <;> omega

theorem afterInsert_afterDelete_outside (hspan : start ≤ stop) (h : pos < start ∨ stop < pos) :
    afterInsert start (stop - start) advances (afterDelete start stop pos) = pos := by
  unfold afterDelete afterInsert
  split <;> split <;> (try split) <;> omega

theorem afterInsert_afterDelete_inside (hspan : start ≤ stop) (hstart : start ≤ pos)
    (hstop : pos ≤ stop) : afterInsert start (stop - start) advances (afterDelete start stop pos)
      = if advances then stop else start := by
  rw [afterDelete_within hstart hstop]
  unfold afterInsert
  cases advances with
  | false => simp
  | true =>
      rw [if_pos (Or.inr ⟨rfl, rfl⟩), if_pos rfl]
      omega

end Offset

namespace MarkerTable

theorem nodup_ofDoc (doc : DocId) (table : MarkerTable) :
    ((table.ofDoc doc).map Prod.fst).Nodup := by
  have hall : (table.markers.zipIdx.map Prod.snd).Nodup := by
    rw [List.zipIdx_map_snd]
    exact List.nodup_range'
  unfold ofDoc
  rw [List.map_map]
  exact hall.sublist (List.filter_sublist.map Prod.snd)

end MarkerTable

variable {id : DocId} {x y z : Text} {e : Entry} {s s' first now : Editing Document}
  {past : List Event} {marker : MarkerId} {advances : Bool} {p : Nat}

/-! ### Taking back an entry, for one marker -/

/-- Where a marker of the document stands after an entry was taken back. -/
def Entry.markerUndone (marker : MarkerId) (advances : Bool) : Entry → Nat → Nat
  | .insertion start stop, p => Offset.afterDelete start stop p
  | .deletion text offset, p => Offset.afterInsert offset.natAbs text.length advances p
  | .markerShift id delta, p => if id = marker then (Offset.toSigned p - delta).toNat else p
  | _, p => p

/-- A marker of the document `id` stands at `p`. -/
def StandsAt (id : DocId) (marker : MarkerId) (advances : Bool) (p : Nat)
    (s : Editing Document) : Prop :=
  ∃ m, s.markers.get? marker = some m ∧ m.owner = some id ∧ m.advances = advances ∧ m.position = p

namespace StandsAt

theorem of_markers (h : StandsAt id marker advances p s) (hmarkers : s'.markers = s.markers) :
    StandsAt id marker advances p s' := by
  unfold StandsAt
  rw [hmarkers]
  exact h

theorem move {f : Marker → Nat} (h : StandsAt id marker advances p s)
    (hmarkers : s'.markers = s.markers.move id f) {q : Nat}
    (hf : ∀ m, m.advances = advances → m.position = p → f m = q) :
    StandsAt id marker advances q s' := by
  obtain ⟨m, hget, howner, hadv, hpos⟩ := h
  refine ⟨{ m with position := f m }, ?_, howner, hadv, hf m hadv hpos⟩
  rw [hmarkers, MarkerTable.get?_move, hget, Option.map_some, if_pos howner]

theorem deleteRange {start stop : Nat} (h : StandsAt id marker advances p s) (hs : Ready id x s)
    (hspan : start ≤ stop) (hstop : stop ≤ x.length) :
    StandsAt id marker advances (Offset.afterDelete start stop p)
      ((Call.deleteRange start stop).after s) := by
  rw [← hs.text] at hstop
  rw [Call.after]
  by_cases hlt : start < stop
  · rw [if_pos ⟨hlt, hstop⟩]
    have hmarkers : (s.deleting start stop).markers = s.markers.afterDelete id start stop := by
      rw [← hs.id]
      rfl
    exact h.move hmarkers fun m _ hpos => by rw [hpos]
  · obtain rfl : start = stop := by omega
    rw [if_neg fun hc => hlt hc.1]
    rwa [Offset.afterDelete_self]

theorem insert (added : Text) (h : StandsAt id marker advances p s) (hs : Ready id x s) :
    StandsAt id marker advances (Offset.afterInsert s.doc.point added.length advances p)
      ((Call.insert added).after s) := by
  rw [Call.after]
  by_cases hne : added = []
  · rw [if_pos hne, hne]
    rwa [List.length_nil, Offset.afterInsert_zero]
  · rw [if_neg hne]
    have hmarkers : (s.inserting added).markers
        = s.markers.afterInsert id s.doc.point added.length := by
      rw [← hs.id]
      rfl
    exact h.move hmarkers fun m hadv hpos => by rw [hadv, hpos]

theorem place (other : MarkerId) (q : Nat) (h : StandsAt id marker advances p s) :
    StandsAt id marker advances (if other = marker then q else p)
      { s with markers := s.markers.modify other ({ · with position := q }) } := by
  obtain ⟨m, hget, howner, hadv, hpos⟩ := h
  unfold StandsAt
  rw [MarkerTable.get?_modify, hget]
  by_cases hsame : other = marker
  · rw [if_pos hsame, if_pos hsame]
    exact ⟨{ m with position := q }, rfl, howner, hadv, rfl⟩
  · rw [if_neg hsame, if_neg hsame]
    exact ⟨m, rfl, howner, hadv, hpos⟩

theorem afterRestore {other : MarkerId} {delta : Int} (h : StandsAt id marker advances p s) :
    StandsAt id marker advances
      (if other = marker then (Offset.toSigned p - delta).toNat else p)
      (s.afterRestore other delta) := by
  unfold Editing.afterRestore
  cases hm : (s.markers.get? other).filter (·.isLive) with
  | none =>
      have hother : other ≠ marker := by
        rintro rfl
        obtain ⟨m, hget, howner, -, -⟩ := h
        rw [hget] at hm
        simp [Marker.isLive, howner] at hm
      rwa [if_neg hother]
  | some m =>
      have hplaced := h.place other (Offset.toSigned m.position - delta).toNat
      by_cases hother : other = marker
      · obtain ⟨m', hget, -, -, hpos⟩ := h
        have hsame : m' = m := by
          rw [hother] at hm
          exact Option.some.inj (hget.symm.trans (Option.filter_eq_some_iff.mp hm).1)
        rw [if_pos hother] at hplaced ⊢
        rwa [← hpos, hsame]
      · rw [if_neg hother] at hplaced ⊢
        exact hplaced

end StandsAt

/-- The markers that are in documents stood there before: none was moved, and none was added. -/
def Editing.Unmoved (s s' : Editing Document) : Prop :=
  ∀ doc marker advances p, StandsAt doc marker advances p s' → StandsAt doc marker advances p s

theorem Editing.unmoved_of_markers (h : s'.markers = s.markers) : Unmoved s s' :=
  fun _ _ _ _ hstands => hstands.of_markers h.symm

/-- Every marker was there before, in the same document or in none, and at the same place. -/
def Editing.PlacesKept (s s' : Editing Document) : Prop :=
  ∀ marker n, s'.markers.get? marker = some n → ∃ m, s.markers.get? marker = some m ∧
    m.owner = n.owner ∧ m.advances = n.advances ∧ m.position = n.position

theorem Editing.PlacesKept.unmoved (h : PlacesKept s s') : Unmoved s s' := by
  rintro doc marker _ _ ⟨n, hget, howner, rfl, rfl⟩
  obtain ⟨m, hm, howner', hadvances, hposition⟩ := h marker n hget
  exact ⟨m, hm, howner'.trans howner, hadvances, hposition⟩

theorem markers_afterProperty (start stop : Nat) (name : String) (value : Json)
    (s : Editing Document) : (s.afterProperty start stop name value).markers = s.markers := by
  unfold Editing.afterProperty
  split <;> rfl

/-- Taking back an entry takes a marker where `markerUndone` says. -/
theorem standsAt_undone (hs : Ready id x s) (hr : e.Reverts id x y)
    (h : StandsAt id marker advances p s) :
    StandsAt id marker advances (e.markerUndone marker advances p) (e.undone s) := by
  obtain ⟨-, hr⟩ := hr
  cases e with
  | insertion start stop =>
      exact (h.deleteRange hs hr.1 hr.2.1).of_markers rfl
  | deletion text offset =>
      have hpoint : (s.doc.setPoint offset.natAbs).point = offset.natAbs := by
        rw [Document.point_setPoint, hs.text]
        have := hr.1
        omega
      have hplaced : StandsAt id marker advances p { s with doc := s.doc.setPoint offset.natAbs } :=
        h.of_markers rfl
      have hins := hplaced.insert text (hs.setPoint offset.natAbs)
      dsimp only at hins
      rw [hpoint] at hins
      rw [Entry.undone_deletion rfl]
      by_cases h0 : 0 ≤ offset
      · rw [if_pos h0]
        exact hins.of_markers rfl
      · rw [if_neg h0]
        exact hins
  | propertyChange change =>
      refine h.of_markers ?_
      show ((Call.restoreProperty change).after s).markers = s.markers
      simp only [Call.after]
      split
      · exact markers_afterProperty _ _ _ _ s
      · rfl
  | markerShift other delta => exact h.afterRestore
  | firstChange modtime =>
      refine h.of_markers ?_
      show ((Call.revisit modtime).after s).markers = s.markers
      simp only [Call.after]
  | pointMove position => exact h.of_markers rfl
  | boundary => exact h

/-! ### Taking back the displacements of a deletion -/

/-- The displacement of a marker is taken back once, and that of no other concerns it. -/
theorem foldl_markerUndone_shift {l : List (MarkerId × Int)} (delta : Int)
    (hnodup : (l.map Prod.fst).Nodup) (hmem : (marker, delta) ∈ l) (p : Nat) :
    ((l.map fun (id, delta) => Entry.markerShift id delta).reverse).foldl
        (fun p e => e.markerUndone marker advances p) p
      = (Offset.toSigned p - delta).toNat := by
  obtain ⟨before, after, rfl⟩ := List.append_of_mem hmem
  rw [List.map_append, List.map_cons, List.nodup_append] at hnodup
  obtain ⟨-, hafter, hdisjoint⟩ := hnodup
  have hbefore : ∀ d ∈ before, d.1 ≠ marker := fun d hd =>
    hdisjoint d.1 (List.mem_map.mpr ⟨d, hd, rfl⟩) marker List.mem_cons_self
  have hafter' : ∀ d ∈ after, d.1 ≠ marker := fun d hd hsame =>
    (List.nodup_cons.mp hafter).1 (hsame ▸ List.mem_map.mpr ⟨d, hd, rfl⟩)
  have hstill : ∀ others : List (MarkerId × Int), (∀ d ∈ others, d.1 ≠ marker) →
      ∀ e ∈ (others.map fun (id, delta) => Entry.markerShift id delta).reverse,
        ∀ p, e.markerUndone marker advances p = p := by
    intro others hothers e he p
    obtain ⟨d, hd, rfl⟩ := List.mem_map.mp (List.mem_reverse.mp he)
    exact if_neg (hothers d hd)
  rw [List.map_append, List.map_cons, List.reverse_append, List.reverse_cons, List.foldl_append,
    List.foldl_append, foldl_still (hstill after hafter'), List.foldl_cons,
    List.foldl_nil, foldl_still (hstill before hbefore)]
  exact if_pos rfl

/-- A marker that is not among the displaced ones stays where it is. -/
theorem foldl_markerUndone_not_mem {l : List (MarkerId × Int)}
    (h : ∀ delta, (marker, delta) ∉ l) (p : Nat) :
    ((l.map fun (id, delta) => Entry.markerShift id delta).reverse).foldl
        (fun p e => e.markerUndone marker advances p) p = p := by
  refine foldl_still (fun e he p => ?_) p
  obtain ⟨⟨other, delta⟩, hmem, rfl⟩ := List.mem_map.mp (List.mem_reverse.mp he)
  refine if_neg fun hsame => ?_
  rw [hsame] at hmem
  exact h delta hmem

section Displaced

variable {m : Marker} {start stop : Nat}

theorem mem_displacements {doc : DocId} {table : MarkerTable} {delta : Int} :
    (marker, delta) ∈ Recording.displacements start stop (table.ofDoc doc) ↔
      ∃ m, table.get? marker = some m ∧ m.owner = some doc ∧
        (start ≤ m.position ∧ m.position ≤ stop) ∧ Recording.displacement start stop m = delta := by
  simp only [Recording.displacements, List.mem_map, List.mem_filter, Prod.exists, Prod.mk.injEq,
    decide_eq_true_eq, MarkerTable.mem_ofDoc]
  constructor
  · rintro ⟨other, m, ⟨⟨hget, howner⟩, hin⟩, rfl, hdelta⟩
    exact ⟨m, hget, howner, hin, hdelta⟩
  · rintro ⟨m, hget, howner, hin, hdelta⟩
    exact ⟨marker, m, ⟨⟨hget, howner⟩, hin⟩, rfl, hdelta⟩

theorem nodup_displacements (doc : DocId) (table : MarkerTable) :
    ((Recording.displacements start stop (table.ofDoc doc)).map Prod.fst).Nodup := by
  unfold Recording.displacements
  rw [List.map_map]
  exact (table.nodup_ofDoc doc).sublist (List.filter_sublist.map Prod.fst)

/-- Reinserting the text of a deletion and taking back its displacements puts a marker back. -/
theorem foldl_markerUndone_deletion {v : View} {table : MarkerTable} {doc : DocId}
    (hv : v.markers = table.ofDoc doc) (hspan : start ≤ stop) (hstop : stop < 0x8000000000000000)
    (hget : table.get? marker = some m) (howner : m.owner = some doc) :
    (Recording.shifts v start stop true).foldl
        (fun p e => e.markerUndone marker m.advances p)
        (Offset.afterInsert start (stop - start) m.advances
          (Offset.afterDelete start stop m.position))
      = m.position := by
  unfold Recording.shifts Recording.moved
  rw [if_pos rfl, hv]
  by_cases hin : start ≤ m.position ∧ m.position ≤ stop
  · rw [Offset.afterInsert_afterDelete_inside hspan hin.1 hin.2]
    have hsettled : (if m.advances then stop else start) < 0x8000000000000000 := by
      split <;> omega
    have hdelta : Recording.displacement start stop m
        = ((if m.advances then stop else start : Nat) : Int) - (m.position : Int) := by
      unfold Recording.displacement
      rw [Offset.toSigned_of_lt hsettled, Offset.toSigned_of_lt (by omega)]
    by_cases hzero : Recording.displacement start stop m = 0
    · rw [foldl_markerUndone_not_mem]
      · omega
      · intro delta hmem
        obtain ⟨hmem, hne⟩ := List.mem_filter.mp hmem
        obtain ⟨m', hget', -, -, rfl⟩ := mem_displacements.mp hmem
        obtain rfl : m = m' := Option.some.inj (hget.symm.trans hget')
        simp [hzero] at hne
    · rw [foldl_markerUndone_shift (Recording.displacement start stop m)]
      · rw [Offset.toSigned_of_lt hsettled]
        omega
      · exact (nodup_displacements doc table).sublist (List.filter_sublist.map Prod.fst)
      · refine List.mem_filter.mpr ⟨mem_displacements.mpr ⟨m, hget, howner, hin, rfl⟩, ?_⟩
        simpa using hzero
  · rw [Offset.afterInsert_afterDelete_outside hspan (by omega), foldl_markerUndone_not_mem]
    intro delta hmem
    obtain ⟨m', hget', -, hin', -⟩ := mem_displacements.mp (List.mem_filter.mp hmem).1
    obtain rfl : m = m' := Option.some.inj (hget.symm.trans hget')
    exact hin hin'

end Displaced

/-! ### The chain of a marker -/

/-- If the marker was in the document `id` at the origin, it stood at `p`. -/
def StoodAt (id : DocId) (marker : MarkerId) (o : Event) (p : Nat) : Prop :=
  ∀ m, o.before.markers.get? marker = some m → m.owner = some id → m.position = p

/-- The step of the chain of a marker. -/
abbrev MarkerStep (id : DocId) (marker : MarkerId) (advances : Bool) :
    Entry → Bool → Event → Nat → Nat → Prop :=
  FoldStep (Entry.markerUndone marker advances) (StoodAt id marker)

/-- Every marker of the document has its chain down the log. -/
def Placed (id : DocId) (s : Editing Document) (past : List Event) : Prop :=
  ∀ marker m, s.markers.get? marker = some m → m.owner = some id →
    ∃ q, Descends (MarkerStep id marker m.advances) s past m.position q

namespace Placed

variable {what : Happening} {new : List Entry}

/-- Nothing moves and nothing is recorded. -/
theorem kept (h : Placed id s past) (hentries : s'.doc.log.entries = s.doc.log.entries)
    (hmarkers : Unmoved s s') : Placed id s' ({ before := s, what } :: past) := by
  intro marker m hget howner
  obtain ⟨m₀, hget₀, howner₀, hadvances, hposition⟩ :=
    hmarkers id marker m.advances m.position ⟨m, hget, howner, rfl, rfl⟩
  obtain ⟨q, hchain⟩ := h marker m₀ hget₀ howner₀
  rw [hadvances, hposition] at hchain
  exact ⟨q, hchain.kept hentries⟩

/-- Markers move, and taking back what is recorded moves them back. -/
theorem moved {f : Marker → Nat} (h : Placed id s past)
    (hentries : s'.doc.log.entries = new ++ s.doc.log.entries)
    (hnew : ∀ e ∈ new, e.isBoundary = false) (hmarkers : s'.markers = s.markers.move id f)
    (hback : ∀ marker m, s.markers.get? marker = some m → m.owner = some id →
      new.foldl (fun p e => e.markerUndone marker m.advances p) (f m) = m.position) :
    Placed id s' ({ before := s, what } :: past) := by
  intro marker m' hget' howner'
  obtain ⟨m, hget, howner, rfl⟩ := MarkerTable.of_get?_move (hmarkers ▸ hget') howner'
  obtain ⟨q, hchain⟩ := h marker m hget howner
  have hm := hback marker m hget howner
  refine ⟨q, Descends.grown (Chain.grow hnew ?_ ?_) hentries⟩
  · intro m₁ hget₁ _
    obtain rfl : m = m₁ := Option.some.inj (hget.symm.trans hget₁)
    exact hm.symm
  · dsimp only
    rw [hm]
    exact hchain

end Placed

theorem move_self (id : DocId) (table : MarkerTable) : table.move id (·.position) = table := by
  unfold MarkerTable.move
  simp

theorem markerUndone_preamble {v : View} {pos : Nat} {r : Recording}
    (h : e ∈ Recording.preamble v pos r) (p : Nat) : e.markerUndone marker advances p = p := by
  rcases Recording.mem_preamble h with rfl | ⟨position, rfl⟩ <;> rfl

theorem markerUndone_recordedRuns {v : View} {name : String} {runs : List Run} {r : Recording}
    (h : e ∈ (runs.map (Recording.runEntry v name)).reverse ++ Recording.firstChanges v r)
    (p : Nat) : e.markerUndone marker advances p = p := by
  rcases Recording.mem_recordedRuns h with ⟨run, rfl⟩ | rfl <;> rfl

theorem entries_deleting {start stop : Nat} (hspan : start ≤ stop)
    (hstop : stop ≤ s.doc.text.length) : (s.deleting start stop).doc.log.entries
      = .deletion (s.doc.text.between start stop) (Recording.signedOffset s.view start stop) ::
        (Recording.shifts s.view start stop true ++
          Recording.preamble s.view (Recording.undonePoint s.view start stop) s.recording) ++
        s.doc.log.entries := by
  have hlength := Document.length_between hspan hstop
  have hadds := Recording.adds_afterDelete s.view start (s.doc.text.between start stop) true
    s.recording
  rw [show start + (s.doc.text.between start stop).length = stop by omega] at hadds
  exact hadds.entries

/-- Taking back all that a deletion records puts a marker back. -/
theorem foldl_markerUndone_deleting {start stop : Nat} {m : Marker} (hs : Ready id s.doc.text s)
    (hspan : start ≤ stop) (hstop : stop ≤ s.doc.text.length)
    (hget : s.markers.get? marker = some m) (howner : m.owner = some id) :
    (Entry.deletion (s.doc.text.between start stop) (Recording.signedOffset s.view start stop) ::
        (Recording.shifts s.view start stop true ++
          Recording.preamble s.view (Recording.undonePoint s.view start stop) s.recording)).foldl
        (fun p e => e.markerUndone marker m.advances p)
        (Offset.afterDelete start stop m.position)
      = m.position := by
  have hshort := hs.short
  unfold Text.Short at hshort
  have hview : s.view.markers = s.markers.ofDoc id := by rw [markers_view, hs.id]
  rw [List.foldl_cons, List.foldl_append, Entry.markerUndone,
    Recording.natAbs_signedOffset _ _ (by omega), Document.length_between hspan hstop,
    foldl_markerUndone_deletion hview hspan (by omega) hget howner]
  exact foldl_still (fun e he => markerUndone_preamble he) _

namespace Placed

variable {what : Happening}

theorem inserting {added : Text} (h : Placed id s past) (hid : s.doc.id = id)
    (hlinked : Linked id .nothing z s past) :
    Placed id (s.inserting added) ({ before := s, what } :: past) := by
  have hmarkers : (s.inserting added).markers
      = s.markers.afterInsert id s.doc.point added.length := by
    rw [← hid]
    rfl
  rcases Recording.adds_or_lengthens_afterInsert s.view s.doc.point added.length s.recording with
    hadds | ⟨first, older, hbefore, hafter, -⟩
  · refine h.moved hadds.entries ?_ hmarkers fun marker m _ _ => ?_
    · intro e he
      rcases List.mem_cons.mp he with rfl | he
      · rfl
      · exact Recording.isBoundary_of_mem_preamble he
    · rw [List.foldl_cons, Entry.markerUndone, Offset.afterDelete_afterInsert]
      exact foldl_still (fun e he => markerUndone_preamble he) _
  · -- The insertion at the head is lengthened: taking it back takes back both of its parts.
    have hfirst := hlinked.le_of_insertion hbefore
    intro marker m' hget' howner'
    obtain ⟨m, hget, howner, rfl⟩ := MarkerTable.of_get?_move (hmarkers ▸ hget') howner'
    obtain ⟨q, hchain⟩ := h marker m hget howner
    refine ⟨q, hchain.exchanged hbefore hafter rfl fun begins o y hstep => ⟨?_, hstep.2⟩⟩
    rw [hstep.1]
    exact (Offset.afterDelete_afterInsert_lengthened hfirst).symm

theorem deleting {start stop : Nat} (h : Placed id s past) (hs : Ready id s.doc.text s)
    (hspan : start < stop) (hstop : stop ≤ s.doc.text.length) :
    Placed id (s.deleting start stop) ({ before := s, what } :: past) := by
  have hmarkers : (s.deleting start stop).markers = s.markers.afterDelete id start stop := by
    rw [← hs.id]
    rfl
  refine h.moved (entries_deleting (Nat.le_of_lt hspan) hstop) ?_ hmarkers ?_
  · intro e he
    rcases List.mem_cons.mp he with rfl | he
    · rfl
    · rcases List.mem_append.mp he with he | he
      · obtain ⟨other, delta, rfl⟩ := Recording.mem_shifts he
        rfl
      · exact Recording.isBoundary_of_mem_preamble he
  · intro marker m hget howner
    exact foldl_markerUndone_deleting hs (Nat.le_of_lt hspan) hstop hget howner

theorem putting {span : Span} {runs : List Run} (h : Placed id s past) (hne : runs ≠ []) :
    Placed id (s.putting span runs) ({ before := s, what } :: past) := by
  refine h.moved (f := (·.position))
    (Recording.adds_recordedRuns s.view span.name runs s.recording hne).entries ?_
    (move_self id s.markers).symm fun marker m _ _ => ?_
  · intro e he
    rcases Recording.mem_recordedRuns he with ⟨run, rfl⟩ | rfl <;> rfl
  · exact foldl_still (fun e he => markerUndone_recordedRuns he) _

theorem closing (h : Placed id s past) (hon : s.doc.log.disabled = false) :
    Placed id s.closing ({ before := s, what := .call .boundary } :: past) := by
  intro marker m hget howner
  obtain ⟨q, hchain⟩ := h marker m hget howner
  exact ⟨q, hchain.closing hon ⟨rfl, fun hb => by cases hb⟩⟩

/-- A new marker stood nowhere before. -/
theorem makeMarker {m₀ : Marker} (h : Placed id s past)
    (hlen : (origins s past).length = s.doc.log.length)
    (hfresh : ∀ e ∈ past, e.before.markers.nextId ≤ s.markers.nextId) :
    Placed id { s with markers := s.markers.push m₀ } ({ before := s, what } :: past) := by
  intro marker m hget howner
  dsimp only at hget
  rw [MarkerTable.get?_push] at hget
  suffices hchain : ∃ q, Descends (MarkerStep id marker m.advances) s past m.position q by
    obtain ⟨q, hchain⟩ := hchain
    exact ⟨q, hchain.kept rfl⟩
  by_cases hnew : marker = s.markers.nextId
  · refine Chain.of_forall hlen (fun o ho p m₁ hget₁ _ => ?_) _
    have hnone := MarkerTable.get?_eq_none o.before.markers
      (hnew ▸ hfresh o (mem_of_mem_origins ho))
    rw [hnone] at hget₁
    cases hget₁
  · rw [if_neg hnew] at hget
    exact h marker m hget howner

end Placed

/-! ### Sessions without replacements -/

/-- The call neither replaces text nor moves a marker by hand. -/
def Call.isSteady : Call → Bool
  | .replaceRange .. | .restoreMarker .. => false
  | _ => true

/-- What happens moves markers of the document `id` only by insertions and deletions in it. -/
def Happening.isSteady (id : DocId) : Happening → Bool
  | .call c => c.isSteady
  | .aside c => c.keepsPlaces id
  | .truncation => false

/--
The command leads the document `id` to steady calls, or is one to the recorder or about
a marker that it leaves where it is, be it that nobody holds it any more.
-/
def Command.isSteady (id : DocId) : Command → Bool
  | .document _ (.replaceRange ..) | .document _ (.undo _) | .truncate _ => false
  | .sheet target c => target = id && c.isOrdinary
  | c => c.keepsPlaces id

theorem Command.isSteady_of_mem_calls {c : Command} (hc : c.isSteady id = true) {log : Log}
    {call : Call} (h : call ∈ c.calls id log) : call.isSteady = true := by
  cases c with
  | sheet target sc =>
      rw [Command.calls] at h
      split at h
      · cases sc <;> simp_all [SheetCommand.calls, Call.isSteady]
      · cases h
  | document target dc =>
      rw [Command.calls] at h
      split at h
      · cases dc with
        | undo count => cases hc
        | replaceRange start text => cases hc
        | typeIn text size =>
            obtain ⟨piece, -, h⟩ := List.mem_flatMap.mp h
            rcases List.mem_cons.mp h with rfl | h
            · rfl
            · rw [List.mem_singleton.mp h]
              rfl
        | _ => simp_all [DocumentCommand.calls, Call.isSteady]
      · cases h
  | _ => cases h

theorem Command.isSteady_rest {c : Command} (hc : c.isSteady id = true) :
    (c.rest id).isSteady id = true := by
  cases c with
  | truncate target => cases hc
  | sheet target sc =>
      simp only [Command.isSteady, Bool.and_eq_true, decide_eq_true_eq] at hc
      simp [Command.rest, Happening.isSteady, Command.keepsPlaces, Command.isLocal, hc.1]
  | document target dc =>
      cases dc with
      | undo count => cases hc
      | replaceRange start text => cases hc
      | _ => exact hc
  | _ => exact hc

theorem Workspace.isSteady_of_mem_past {start : Workspace} {e : Event} {commands : List Command}
    (hcommands : ∀ c ∈ commands, c.isSteady id = true) (h : e ∈ start.past id commands) :
    e.what.isSteady id = true := by
  obtain ⟨c, hc, ⟨log, call, hcall, hwhat⟩ | hwhat⟩ := mem_past h
  · rw [hwhat]
    exact Command.isSteady_of_mem_calls (hcommands c hc) hcall
  · rw [hwhat]
    exact Command.isSteady_rest (hcommands c hc)

theorem Call.nextId_after (c : Call) (s : Editing Document) :
    s.markers.nextId ≤ (c.after s).markers.nextId := by
  cases c with
  | insert added =>
      rw [after]
      split
      · exact Nat.le_refl _
      · exact Nat.le_of_eq (MarkerTable.nextId_move _ _ _).symm
  | deleteRange start stop =>
      rw [after]
      split
      · exact Nat.le_of_eq (MarkerTable.nextId_move _ _ _).symm
      · exact Nat.le_refl _
  | replaceRange start new =>
      rw [after]
      split <;> exact Nat.le_refl _
  | putProperty start stop name value =>
      exact Nat.le_of_eq (congrArg MarkerTable.nextId (markers_afterProperty _ _ _ _ s)).symm
  | restoreProperty change =>
      simp only [after]
      split
      · exact Nat.le_of_eq (congrArg MarkerTable.nextId (markers_afterProperty _ _ _ _ s)).symm
      · exact Nat.le_refl _
  | makeMarker pos advances =>
      show s.markers.nextId ≤ (s.markers.push (s.doc.marker pos advances)).nextId
      rw [MarkerTable.nextId_push]
      exact Nat.le_succ _
  | dropMarker marker =>
      rw [after]
      split
      · exact Nat.le_of_eq (MarkerTable.nextId_modify _ _ _).symm
      · exact Nat.le_refl _
  | restoreMarker marker delta =>
      rw [after, Editing.afterRestore]
      split
      · exact Nat.le_refl _
      · exact Nat.le_of_eq (MarkerTable.nextId_modify _ _ _).symm
  | setPoint pos => exact Nat.le_refl _
  | markSaved modtime => exact Nat.le_refl _
  | markUnmodified => exact Nat.le_refl _
  | boundary => exact Nat.le_refl _
  | revisit modtime => exact Nat.le_refl _

/-- What a call can do to the markers of a document and its log, if it moves none by hand. -/
inductive Editing.Motion (s : Editing Document) : Call → Editing Document → Prop
  | kept {c : Call} {s' : Editing Document} (hentries : s'.doc.log.entries = s.doc.log.entries)
      (hmarkers : Unmoved s s') : Motion s c s'
  | inserting {added : Text} : Motion s (.insert added) (s.inserting added)
  | deleting {start stop : Nat} (hspan : start < stop) (hstop : stop ≤ s.doc.text.length) :
      Motion s (.deleteRange start stop) (s.deleting start stop)
  | replacing {start : Nat} {new : Text} :
      Motion s (.replaceRange start new) (s.replacing start new)
  | putting {c : Call} {span : Span} {runs : List Run} (hne : runs ≠ []) :
      Motion s c (s.putting span runs)
  | making {pos : Nat} {advances : Bool} :
      Motion s (.makeMarker pos advances)
        { s with markers := s.markers.push (s.doc.marker pos advances) }
  | closing : Motion s .boundary s.closing

theorem Editing.Motion.still (c : Call) (hentries : s'.doc.log.entries = s.doc.log.entries)
    (hmarkers : s'.markers = s.markers) : Motion s c s' :=
  .kept hentries (unmoved_of_markers hmarkers)

theorem Editing.motion_afterProperty (c : Call) (start stop : Nat) (name : String) (value : Json)
    (s : Editing Document) : Motion s c (s.afterProperty start stop name value) := by
  unfold afterProperty
  split
  · rename_i hruns
    exact .putting hruns.2.2
  · exact .still c rfl rfl

theorem Call.motion (c : Call) (s : Editing Document)
    (hc : ∀ marker delta, c ≠ .restoreMarker marker delta) : Motion s c (c.after s) := by
  cases c with
  | insert added =>
      rw [after]
      split
      · exact .still _ rfl rfl
      · exact .inserting
  | deleteRange start stop =>
      rw [after]
      split
      · rename_i hspan
        exact .deleting hspan.1 hspan.2
      · exact .still _ rfl rfl
  | replaceRange start new =>
      rw [after]
      split
      · exact .replacing
      · exact .still _ rfl rfl
  | putProperty start stop name value => exact motion_afterProperty _ start stop name value s
  | restoreProperty change =>
      simp only [after]
      split
      · exact motion_afterProperty _ _ _ _ _ s
      · exact .still _ rfl rfl
  | makeMarker pos advances => exact .making
  | dropMarker other =>
      rw [after]
      split
      · refine .kept rfl ?_
        rintro doc marker advances p ⟨m, hget, howner, hsame⟩
        simp only [MarkerTable.detach, MarkerTable.get?_modify] at hget
        split at hget
        · obtain ⟨m₀, -, rfl⟩ := Option.map_eq_some_iff.mp hget
          cases howner
        · exact ⟨m, hget, howner, hsame⟩
      · exact .still _ rfl rfl
  | boundary => exact .closing
  | revisit modtime =>
      refine .still _ ?_ rfl
      simp only [after]
      split <;> rfl
  | setPoint pos => exact .still _ rfl rfl
  | markSaved modtime => exact .still _ rfl rfl
  | markUnmodified => exact .still _ rfl rfl
  | restoreMarker other delta => exact absurd rfl (hc other delta)

/-- To let go of a marker moves none, and takes none from its document. -/
theorem Aside.keeps_places {c : Command} (h : Aside id c s s') (hc : c.keepsPlaces id = true) :
    PlacesKept s s' ∧ s'.markers.nextId = s.markers.nextId := by
  unfold Command.keepsPlaces at hc
  split at hc
  · rename_i other
    have hmarkers := h.released other rfl
    refine ⟨?_, by rw [hmarkers, MarkerTable.nextId_modify]⟩
    intro marker n hget
    rw [hmarkers, MarkerTable.get?_modify] at hget
    split at hget
    · obtain ⟨m, hm, rfl⟩ := Option.map_eq_some_iff.mp hget
      exact ⟨m, hm, rfl, rfl, rfl⟩
    · exact ⟨n, hget, rfl, rfl, rfl⟩
  · have hmarkers := h.markers hc
    exact ⟨fun marker n hget => ⟨n, hmarkers ▸ hget, rfl, rfl, rfl⟩, by rw [hmarkers]⟩

/-- What holds of a document and its markers while only insertions and deletions move them. -/
structure Standing (first : Editing Document) (past : List Event) (s : Editing Document) :
    Prop where
  traced : Traced first past s
  placed : Placed first.doc.id s past
  fresh : ∀ e ∈ past, e.before.markers.nextId ≤ s.markers.nextId

/-- A steady call keeps the chains of the markers. -/
theorem Standing.placed_after {c : Call} (h : Standing first past s) (hshort : s.doc.text.Short)
    (hc : c.isSteady = true) :
    Placed first.doc.id (c.after s) ({ before := s, what := .call c } :: past) := by
  have hready := h.traced.ready hshort
  obtain ⟨z, hlinked, -⟩ := h.traced.linked
  have hmotion := c.motion s fun marker delta => by
    rintro rfl
    cases hc
  generalize c.after s = s' at hmotion ⊢
  cases hmotion with
  | kept hentries hmarkers => exact h.placed.kept hentries hmarkers
  | inserting => exact h.placed.inserting h.traced.id hlinked
  | deleting hspan hstop => exact h.placed.deleting hready hspan hstop
  | replacing => cases hc
  | putting hne => exact h.placed.putting hne
  | making => exact h.placed.makeMarker hlinked.length_origins h.fresh
  | closing => exact h.placed.closing h.traced.sound.enabled

theorem Standing.leads {what : Happening} (h : Standing first past s) (hshort : s.doc.text.Short)
    (hsteady : what.isSteady id = true) (hleads : what.Leads id s s') :
    Standing first ({ before := s, what } :: past) s' := by
  have hplain : Event.Plain { before := s, what } := by
    intro htruncation
    cases what with
    | truncation => cases hsteady
    | _ => cases htruncation
  have htraced := h.traced.leads hshort hplain hleads
  have hfresh : s.markers.nextId ≤ s'.markers.nextId →
      ∀ e ∈ { before := s, what } :: past, e.before.markers.nextId ≤ s'.markers.nextId := by
    intro hle e he
    rcases List.mem_cons.mp he with rfl | he
    · exact hle
    · exact Nat.le_trans (h.fresh e he) hle
  cases what with
  | call c =>
      have hafter := Call.after_of_leads h.traced.sound hshort hleads
      refine ⟨htraced, ?_, hfresh ?_⟩
      · rw [hafter]
        exact h.placed_after hshort hsteady
      · rw [hafter]
        exact c.nextId_after s
  | aside c =>
      obtain ⟨hplaces, hnext⟩ := Aside.keeps_places hleads hsteady
      exact ⟨htraced, h.placed.kept (by rw [hleads.doc]) hplaces.unmoved,
        hfresh (Nat.le_of_eq hnext.symm)⟩
  | truncation => cases hsteady

theorem Course.standing (h : Course id first past now) (hsound : first.Sound)
    (hempty : first.doc.log.entries = []) (hsteady : ∀ e ∈ past, e.what.isSteady id = true)
    (hshort : ∀ e ∈ past, e.before.doc.text.Short) : Standing first past now := by
  induction h with
  | start =>
      have hnothing : Course id first [] first := .start
      refine ⟨hnothing.traced hsound hempty (by simp) (by simp), ?_, by simp⟩
      exact fun marker m _ _ => ⟨m.position, Descends.start hempty _⟩
  | @next s s' past what _ hleads ih =>
      have hstanding := ih (fun e he => hsteady e (List.mem_cons_of_mem _ he))
        (fun e he => hshort e (List.mem_cons_of_mem _ he))
      exact hstanding.leads (hshort _ List.mem_cons_self) (hsteady _ List.mem_cons_self) hleads

/-- A marker that was in the document at a beginning stands there again after an undo down to it. -/
theorem Standing.marker_undone (h : Standing first past now) (hshort : now.doc.text.Short)
    {k : Nat} {o : Event} (ho : (unitBeginnings now past)[k]? = some o)
    (hthen : o.before.markers.owns first.doc.id marker = true)
    (hnow : now.markers.owns first.doc.id marker = true) :
    ((Document.undone (k + 1) now).markers.get? marker).map (·.position)
      = (o.before.markers.get? marker).map (·.position) := by
  obtain ⟨m₀, hget₀, howner₀⟩ := (Option.any_eq_true _ _).mp hthen
  obtain ⟨m, hget, howner⟩ := (Option.any_eq_true _ _).mp hnow
  have howner' : m.owner = some first.doc.id := by simpa using howner
  obtain ⟨z, hlinked, -⟩ := h.traced.linked
  obtain ⟨q, hchain⟩ := h.placed marker m hget howner'
  obtain ⟨e, a, b, s, hstep, hs, hundone⟩ := (hlinked.prod hchain).beginning_undone
    (fun a s => Ready first.doc.id a.1 s ∧ StandsAt first.doc.id marker m.advances a.2 s)
    (fun hstep hs => ⟨ready_undone hs.1 hstep.1.reverts,
      hstep.2.1 ▸ standsAt_undone hs.1 hstep.1.reverts hs.2⟩)
    (fun {a _} hs => ⟨Ready.closing (x := a.1) hs.1, StandsAt.of_markers (p := a.2) hs.2 rfl⟩)
    (s := now.closing) ⟨(h.traced.ready hshort).closing, m, hget, howner', rfl, rfl⟩ ho
  have hstands := standsAt_undone hs.1 hstep.1.reverts hs.2
  rw [← hstep.2.1] at hstands
  obtain ⟨m', hget', -, -, hpos⟩ := hstands
  unfold Document.undone Log.units
  rw [hundone]
  show ((e.undone s).markers.get? marker).map (·.position) = _
  rw [hget', hget₀, Option.map_some, Option.map_some, hpos,
    hstep.2.2 rfl m₀ hget₀ (by simpa using howner₀)]

/--
**Undo puts markers back.**  Let the commands of a session move the cursor of a
document, insert in it, delete from it, put properties, make and drop markers and let go
of them, save it and end units, and let them change the settings; nothing is replaced and
no marker moved by hand.  Then an undo down to any unit puts every marker that was in the
document just before the unit began, and still is, where it stood then.
-/
theorem undo_restores_markers {start : Workspace} {commands : List Command}
    (h : Session start commands id first now)
    (hsteady : ∀ c ∈ commands, c.isSteady id = true) :
    (unitBeginnings now (start.past id commands)).length = now.doc.log.unitCount ∧
      ∀ k o, (unitBeginnings now (start.past id commands))[k]? = some o →
        Document.UndoLeads (k + 1) now fun t => ∀ marker,
          o.before.markers.owns now.doc.id marker = true →
          now.markers.owns now.doc.id marker = true →
          (t.markers.get? marker).map (·.position)
            = (o.before.markers.get? marker).map (·.position) := by
  have hstanding := h.course.standing h.sound h.empty
    (fun e he => Workspace.isSteady_of_mem_past hsteady he) h.short
  refine ⟨hstanding.traced.length_unitBeginnings, fun k o ho => ?_⟩
  refine hstanding.traced.undoLeads h.short_now fun marker hthen hnow => ?_
  rw [hstanding.traced.id] at hthen hnow
  exact hstanding.marker_undone h.short_now ho hthen hnow

/--
Three markers in a deleted text, one of which nobody has any more when the rest is deleted
too: the other two are put back.
-/
theorem undo_restores_markers_swallowed :
    ∃ now, ((Workspace.ofText ['a', 'b', 'c', 'd']).later
        [.document ⟨0⟩ (.deleteRange 0 2), .marker 2 .release, .sheet ⟨0⟩ (.dropMarker 2),
          .sheet ⟨0⟩ .insertBoundary, .document ⟨0⟩ (.deleteRange 1 3),
          .sheet ⟨0⟩ (.makeMarker 2 false), .sheet ⟨0⟩ (.makeMarker 3 false),
          .sheet ⟨0⟩ (.makeMarker 2 true)]).moment? ⟨0⟩ = some now ∧
      ((now.markers.get? 2).any fun m => !m.isLive) = true ∧
      Document.UndoSucceeds 2 now fun t =>
        (t.markers.get? 0).map (·.position) = some 2 ∧
          (t.markers.get? 1).map (·.position) = some 3 := by
  let commands : List Command := [.document ⟨0⟩ (.deleteRange 0 2), .marker 2 .release,
    .sheet ⟨0⟩ (.dropMarker 2), .sheet ⟨0⟩ .insertBoundary, .document ⟨0⟩ (.deleteRange 1 3),
    .sheet ⟨0⟩ (.makeMarker 2 false), .sheet ⟨0⟩ (.makeMarker 3 false),
    .sheet ⟨0⟩ (.makeMarker 2 true)]
  let past := (Workspace.ofText ['a', 'b', 'c', 'd']).past ⟨0⟩ commands
  obtain ⟨now, hnow⟩ := Option.isSome_iff_exists.mp
    (show (((Workspace.ofText ['a', 'b', 'c', 'd']).later commands).moment? ⟨0⟩).isSome by
      decide +kernel)
  have hfacts : (((Workspace.ofText ['a', 'b', 'c', 'd']).later commands).moment? ⟨0⟩).all
      fun now => now.doc.text.Short ∧ HasRoom now.doc.log.entries now ∧
        ((now.markers.get? 2).any fun m => !m.isLive) = true ∧
        (∀ marker ∈ [0, 1], now.markers.owns now.doc.id marker = true) ∧
        (unitBeginnings now past)[1]?.any fun o =>
          decide ((∀ marker ∈ [0, 1], o.before.markers.owns now.doc.id marker = true) ∧
            (o.before.markers.get? 0).map (·.position) = some 2 ∧
            (o.before.markers.get? 1).map (·.position) = some 3) := by
    decide +kernel
  simp only [hnow, Option.all_some, decide_eq_true_eq] at hfacts
  obtain ⟨hshort, hroom, hdead, howns, hbegan⟩ := hfacts
  obtain ⟨o, ho, hbegan⟩ := (Option.any_eq_true _ _).mp hbegan
  obtain ⟨hthen, hzero, hone⟩ := decide_eq_true_eq.mp hbegan
  have h := undo_restores_markers (Session.ofText commands (by decide +kernel)
    (by decide) hnow (by decide +kernel) hshort) (by decide)
  refine ⟨now, hnow, hdead, ((h.2 1 o ho).mono fun t ht => ⟨?_, ?_⟩).succeeds hroom⟩
  · rw [ht 0 (hthen 0 (by simp)) (howns 0 (by simp)), hzero]
  · rw [ht 1 (hthen 1 (by simp)) (howns 1 (by simp)), hone]

end EditHistory
