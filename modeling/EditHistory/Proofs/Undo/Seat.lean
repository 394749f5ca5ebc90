/-
Where an undo puts markers.

Taking back a deletion reinserts its text and then puts the markers that had been in that
text back to their places.  Only the insertion is recorded in turn.  So if the undo is to
be undone again, what has to be known of the places is that they are in the text that was
just reinserted: deleting it takes a marker to the same place from anywhere in it.

A `Seat` is the place of a marker together with the stretch of text that was reinserted
last.  `SeatStep` follows a marker from entry to entry and asks that it is put back only
from a place in the stretch to another one.  Nothing is asked of the entries of a
replacement, which moves no marker at all, so that what is put back may be elsewhere.
-/
import EditHistory.Proofs.Log.Grammar
import EditHistory.Proofs.Undo.Markers

namespace EditHistory

open Editing

variable {id : DocId} {marker : MarkerId} {advances : Bool} {e : Entry}
  {first s s' now : Editing Document} {past : List Event} {what : Happening}
  {new older entries : List Entry} {os : List Event}

/-! ### Seats -/

/-- Where a marker stands, and from where to where the text reaches that was reinserted last. -/
structure Seat where
  position : Nat
  start : Nat
  stop : Nat

namespace Seat

/-- The place is in the text that was reinserted last. -/
def Holds (x : Seat) (p : Nat) : Prop := x.start ≤ p ∧ p ≤ x.stop

/-- No text was reinserted last. -/
def bare (position : Nat) : Seat := { position, start := 1, stop := 0 }

theorem not_holds_bare (position p : Nat) : ¬(bare position).Holds p := by
  unfold Holds bare
  dsimp only
  omega

end Seat

variable {x y z : Seat}

/-- The seat of a marker after an entry was taken back. -/
def Entry.seatUndone (marker : MarkerId) (advances : Bool) (e : Entry) (x : Seat) : Seat :=
  match e with
  | .deletion text offset =>
    { position := e.markerUndone marker advances x.position
      start := offset.natAbs
      stop := offset.natAbs + text.length }
  | .markerShift .. => { x with position := e.markerUndone marker advances x.position }
  | _ => .bare (e.markerUndone marker advances x.position)

@[simp] theorem Entry.position_seatUndone (e : Entry) (x : Seat) :
    (e.seatUndone marker advances x).position = e.markerUndone marker advances x.position := by
  cases e <;> rfl

/-- If the entry puts the marker back, then from one place in the reinserted text to another. -/
def Entry.Settles (marker : MarkerId) (advances : Bool) (e : Entry) (x : Seat) : Prop :=
  ∀ delta, e = .markerShift marker delta →
    x.Holds x.position ∧ x.Holds (e.markerUndone marker advances x.position)

/-- So does every entry in turn. -/
def Entry.SettleAll (marker : MarkerId) (advances : Bool) : List Entry → Seat → Prop
  | [], _ => True
  | e :: older, x =>
    e.Settles marker advances x ∧ SettleAll marker advances older (e.seatUndone marker advances x)

namespace Entry

theorem position_foldl_seatUndone (entries : List Entry) (x : Seat) :
    (entries.foldl (fun x e => e.seatUndone marker advances x) x).position
      = entries.foldl (fun p e => e.markerUndone marker advances p) x.position := by
  induction entries generalizing x with
  | nil => rfl
  | cons e older ih => rw [List.foldl_cons, List.foldl_cons, ih, position_seatUndone]

theorem settleAll_append {newer : List Entry} (h : SettleAll marker advances newer x)
    (h' : SettleAll marker advances older
      (newer.foldl (fun x e => e.seatUndone marker advances x) x)) :
    SettleAll marker advances (newer ++ older) x := by
  induction newer generalizing x with
  | nil => exact h'
  | cons e newer ih => exact ⟨h.1, ih h.2 h'⟩

/-- Entries that do not put the marker back settle it wherever it is. -/
theorem settleAll_of_not_mentioned (h : ∀ e ∈ entries, marker ∉ e.mentions) (x : Seat) :
    SettleAll marker advances entries x := by
  induction entries generalizing x with
  | nil => trivial
  | cons e older ih =>
      refine ⟨?_, ih (fun e he => h e (List.mem_cons_of_mem _ he)) _⟩
      intro delta he
      have hno := h e List.mem_cons_self
      rw [he] at hno
      simp [mentions] at hno

/-- The displacements of one deletion settle the marker if the one that is about it does. -/
theorem settleAll_shifts {l : List (MarkerId × Int)} (hnodup : (l.map Prod.fst).Nodup)
    (h : ∀ delta, (marker, delta) ∈ l →
      x.Holds x.position ∧ x.Holds ((Entry.markerShift marker delta).markerUndone marker advances
        x.position)) :
    SettleAll marker advances (l.map fun (id, delta) => .markerShift id delta) x := by
  induction l with
  | nil => trivial
  | cons d l ih =>
      obtain ⟨other, delta⟩ := d
      obtain ⟨hother, hnodup⟩ := List.nodup_cons.mp hnodup
      rw [List.map_cons]
      by_cases hsame : other = marker
      · subst hsame
        refine ⟨?_, settleAll_of_not_mentioned ?_ _⟩
        · rintro _ ⟨⟩
          exact h delta List.mem_cons_self
        · intro e he hmem
          obtain ⟨d, hd, rfl⟩ := List.mem_map.mp he
          have hd' : d.1 = other := (List.mem_singleton.mp hmem).symm
          exact hother (hd' ▸ List.mem_map.mpr ⟨d, hd, rfl⟩)
      · refine ⟨?_, ?_⟩
        · rintro _ ⟨⟩
          exact absurd rfl hsame
        · have hstays : (Entry.markerShift other delta).seatUndone marker advances x = x := by
            simp [seatUndone, markerUndone, hsame]
          show SettleAll _ _ _ ((Entry.markerShift other delta).seatUndone marker advances x)
          rw [hstays]
          exact ih hnodup fun delta hmem => h delta (List.mem_cons_of_mem _ hmem)

end Entry

/-! ### What a deletion records -/

theorem not_mem_mentions_preamble {v : View} {pos : Nat} {r : Recording}
    (h : e ∈ Recording.preamble v pos r) : marker ∉ e.mentions := by
  rcases Recording.mem_preamble h with rfl | ⟨position, rfl⟩ <;> simp [Entry.mentions]

/-- The entries of a deletion put a marker back only within the deleted text. -/
theorem settleAll_deleting {start stop : Nat} {m : Marker} (hs : Ready id s.doc.text s)
    (hspan : start ≤ stop) (hstop : stop ≤ s.doc.text.length)
    (hget : s.markers.get? marker = some m)
    (hx : x.position = Offset.afterDelete start stop m.position) :
    Entry.SettleAll marker m.advances
      (.deletion (s.doc.text.between start stop) (Recording.signedOffset s.view start stop) ::
        (Recording.shifts s.view start stop true ++
          Recording.preamble s.view (Recording.undonePoint s.view start stop) s.recording)) x := by
  have hshort := hs.short
  unfold Text.Short at hshort
  have hview : s.view.markers = s.markers.ofDoc id := by rw [markers_view, hs.id]
  have hlength := Document.length_between hspan hstop
  have hoffset : (Recording.signedOffset s.view start stop).natAbs = start :=
    Recording.natAbs_signedOffset s.view stop (by omega)
  refine ⟨fun delta he => (by cases he), Entry.settleAll_append ?_ ?_⟩
  · unfold Recording.shifts Recording.moved
    rw [if_pos rfl, ← List.map_reverse, hview]
    refine Entry.settleAll_shifts ?_ ?_
    · rw [List.map_reverse, (List.reverse_perm _).nodup_iff]
      exact (nodup_displacements id s.markers).sublist (List.filter_sublist.map Prod.fst)
    · intro delta hmem
      obtain ⟨m', hget', -, hin, rfl⟩ :=
        mem_displacements.mp (List.mem_filter.mp (List.mem_reverse.mp hmem)).1
      obtain rfl : m = m' := Option.some.inj (hget.symm.trans hget')
      have hsettled : (if m.advances then stop else start) < 0x8000000000000000 := by
        split <;> omega
      have hplace : Offset.afterInsert start (stop - start) m.advances
          (Offset.afterDelete start stop m.position) = if m.advances then stop else start :=
        Offset.afterInsert_afterDelete_inside hspan hin.1 hin.2
      simp only [Entry.seatUndone, Entry.markerUndone, Seat.Holds, hoffset, hlength, hx, hplace,
        if_true, Recording.displacement]
      rw [Offset.toSigned_of_lt hsettled, Offset.toSigned_of_lt (n := m.position) (by omega)]
      split <;> omega
  · exact Entry.settleAll_of_not_mentioned (fun e he => not_mem_mentions_preamble he) _

/--
What can be said of an entry that a call of the document records, a boundary apart: it
ends no unit, it takes no place further than the text is long, and the marker that it is
about, if it is about any, is one of the document.
-/
structure Entry.Within (s : Editing Document) (e : Entry) : Prop where
  inUnit : e.isBoundary = false
  reach_le : s.doc.text.Short → e.reach ≤ s.doc.text.length
  owned : ∀ marker ∈ e.mentions, s.markers.owns s.doc.id marker = true

namespace Entry.Within

theorem of_still (hboundary : e.isBoundary = false) (hreach : e.reach = 0)
    (hmentions : e.mentions = []) : e.Within s where
  inUnit := hboundary
  reach_le := fun _ => hreach ▸ Nat.zero_le _
  owned := by
    rw [hmentions]
    intro marker hmem
    cases hmem

theorem of_preamble {pos : Nat} (he : e ∈ Recording.preamble s.view pos s.recording) :
    e.Within s := by
  rcases Recording.mem_preamble he with rfl | ⟨position, rfl⟩ <;> exact of_still rfl rfl rfl

theorem of_deletion {start stop : Nat} {offset : Int} (hspan : start ≤ stop)
    (hstop : stop ≤ s.doc.text.length) :
    (Entry.deletion (s.doc.text.between start stop) offset).Within s where
  inUnit := rfl
  reach_le := by
    intro _
    show (s.doc.text.between start stop).length ≤ _
    rw [Document.length_between hspan hstop]
    omega
  owned := nofun

theorem of_shifts {start stop : Nat} (hstop : stop ≤ s.doc.text.length)
    (he : e ∈ Recording.shifts s.view start stop true) : e.Within s where
  inUnit := by
    obtain ⟨marker, delta, rfl⟩ := Recording.mem_shifts he
    rfl
  reach_le := by
    intro hshort
    unfold Text.Short at hshort
    obtain ⟨marker, delta, rfl, -, hdelta⟩ := Recording.mem_shifts_bounded
      (by unfold Offset.Fits; omega) (Recording.fitsSigned_moved (by omega)) he
    show delta.natAbs ≤ _
    omega
  owned := by
    obtain ⟨⟨marker, delta⟩, hmem, rfl⟩ := List.mem_map.mp (List.mem_reverse.mp he)
    intro other hother
    obtain rfl : other = marker := List.mem_singleton.mp hother
    have hmem' := (List.mem_filter.mp hmem).1
    unfold Recording.moved at hmem'
    rw [if_pos rfl, markers_view] at hmem'
    obtain ⟨m, hget, howner, -⟩ := mem_displacements.mp hmem'
    unfold MarkerTable.owns
    rw [hget]
    simpa using howner

end Entry.Within

/-- What a call adds to a log, a boundary apart. -/
theorem Editing.Deed.mem_entries {c : Call} (h : Deed s c s') (hc : c ≠ .boundary)
    (he : e ∈ s'.doc.log.entries) : e ∈ s.doc.log.entries ∨ e.Within s := by
  cases h with
  | quiet _ h =>
      rw [h.log] at he
      exact Or.inl he
  | @insertion added _ =>
      rcases Recording.adds_or_lengthens_afterInsert s.view s.doc.point added.length s.recording
        with hadds | ⟨first, older, hbefore, hafter, -⟩
      · have he' : e ∈ _ ++ s.doc.log.entries := hadds.entries ▸ he
        rcases List.mem_append.mp he' with he' | he'
        · rcases List.mem_cons.mp he' with rfl | he'
          · exact Or.inr (.of_still rfl rfl rfl)
          · exact Or.inr (.of_preamble he')
        · exact Or.inl he'
      · have he' : e ∈ Entry.insertion first (s.doc.point + added.length) :: older := hafter ▸ he
        rcases List.mem_cons.mp he' with rfl | he'
        · exact Or.inr (.of_still rfl rfl rfl)
        · refine Or.inl ?_
          rw [show s.doc.log.entries = _ from hbefore]
          exact List.mem_cons_of_mem _ he'
  | @deletion start stop hspan hstop =>
      rw [entries_deleting (Nat.le_of_lt hspan) hstop] at he
      rcases List.mem_append.mp he with he | he
      · rcases List.mem_cons.mp he with rfl | he
        · exact Or.inr (.of_deletion (Nat.le_of_lt hspan) hstop)
        · rcases List.mem_append.mp he with he | he
          · exact Or.inr (.of_shifts hstop he)
          · exact Or.inr (.of_preamble he)
      · exact Or.inl he
  | @replacement start new hstop =>
      have hadds := Recording.adds_afterChange s.view start
        (s.doc.text.between start (start + new.length)) s.recording
      have he' : e ∈ _ ++ s.doc.log.entries := hadds.entries ▸ he
      rcases List.mem_append.mp he' with he' | he'
      · rcases List.mem_cons.mp he' with rfl | he'
        · exact Or.inr (.of_still rfl rfl rfl)
        · rcases List.mem_cons.mp he' with rfl | he'
          · exact Or.inr (.of_deletion (Nat.le_add_right _ _) hstop)
          · exact Or.inr (.of_preamble he')
      · exact Or.inl he'
  | @property _ span runs _ _ hne _ =>
      have hadds := Recording.adds_recordedRuns s.view span.name runs s.recording hne
      have he' : e ∈ _ ++ s.doc.log.entries := hadds.entries ▸ he
      rcases List.mem_append.mp he' with he' | he'
      · rcases Recording.mem_recordedRuns he' with ⟨run, rfl⟩ | rfl <;>
          exact Or.inr (.of_still rfl rfl rfl)
      · exact Or.inl he'
  | boundary => exact absurd rfl hc

/-- An entry in a unit was there before a call, or the call recorded it. -/
theorem Call.mem_entries_after {c : Call} (hon : s.doc.log.disabled = false)
    (hinUnit : e.isBoundary = false) (he : e ∈ (c.after s).doc.log.entries) :
    e ∈ s.doc.log.entries ∨ e.Within s := by
  by_cases hc : c = .boundary
  · subst hc
    rw [Call.after, entries_closing hon] at he
    rcases List.mem_append.mp he with he | he
    · rw [Recording.mem_closing he] at hinUnit
      cases hinUnit
    · exact Or.inl he
  · exact (c.deed s).mem_entries hc he

theorem Entry.isBoundary_of_mentions (h : marker ∈ e.mentions) : e.isBoundary = false := by
  cases e with
  | boundary => cases h
  | _ => rfl

/-! ### The chain of a marker and its seats -/

/-- Whether characters are replaced in place. -/
def Happening.isReplacement : Happening → Bool
  | .call (.replaceRange ..) => true
  | _ => false

/--
The step of the chain of a marker and its seats: the entry settles the marker, and takes
it from one seat to the next.  Of an entry of a replacement nothing is asked.
-/
def SeatStep (marker : MarkerId) (advances : Bool) : Entry → Bool → Event → Seat → Seat → Prop :=
  fun e _ o x y => (e.isBoundary = false ∧ o.what.isReplacement = true) ∨
    (e.Settles marker advances x ∧ y = e.seatUndone marker advances x)

namespace Chain

/-- Entries that settle a marker extend its chain. -/
theorem settle {o : Event} (hnew : Entry.SettleAll marker advances new x)
    (h : Chain (SeatStep marker advances) entries os
      (new.foldl (fun x e => e.seatUndone marker advances x) x) z) :
    Chain (SeatStep marker advances) (new ++ entries) (List.replicate new.length o ++ os) x z := by
  induction new generalizing x with
  | nil => exact h
  | cons e new ih => exact .cons (Or.inr ⟨hnew.1, rfl⟩) (ih hnew.2 h)

/-- The entries of a replacement extend it anyhow. -/
theorem replace {o : Event} (hnew : ∀ e ∈ new, e.isBoundary = false)
    (ho : o.what.isReplacement = true) (h : Chain (SeatStep marker advances) entries os x z) :
    Chain (SeatStep marker advances) (new ++ entries) (List.replicate new.length o ++ os) x z := by
  induction new with
  | nil => exact h
  | cons e new ih =>
      have htail := ih fun e he => hnew e (List.mem_cons_of_mem _ he)
      exact .cons (Or.inl ⟨hnew e List.mem_cons_self, ho⟩) htail

/-- Entries that are not about a marker leave it any chain. -/
theorem of_not_mentioned (hlen : os.length = entries.length)
    (h : ∀ e ∈ entries, marker ∉ e.mentions) (x : Seat) :
    ∃ z, Chain (SeatStep marker advances) entries os x z := by
  induction entries generalizing os x with
  | nil =>
      cases os with
      | nil => exact ⟨x, .nil⟩
      | cons o os => cases hlen
  | cons e entries ih =>
      cases os with
      | nil => cases hlen
      | cons o os =>
          obtain ⟨z, hchain⟩ := ih (Nat.succ.inj hlen)
            (fun e he => h e (List.mem_cons_of_mem _ he)) (e.seatUndone marker advances x)
          have hsettles : Entry.SettleAll marker advances (e :: entries) x :=
            Entry.settleAll_of_not_mentioned h x
          exact ⟨z, .cons (Or.inr ⟨hsettles.1, rfl⟩) hchain⟩

end Chain

/-- Every marker of the document has its chain down the log, whatever was reinserted last. -/
def Seated (id : DocId) (s : Editing Document) (past : List Event) : Prop :=
  ∀ marker m, s.markers.get? marker = some m → m.owner = some id → ∀ x : Seat,
    x.position = m.position → ∃ z, Descends (SeatStep marker m.advances) s past x z

namespace Seated

theorem kept (h : Seated id s past) (hentries : s'.doc.log.entries = s.doc.log.entries)
    (hmarkers : Unmoved s s') : Seated id s' ({ before := s, what } :: past) := by
  intro marker m hget howner x hx
  obtain ⟨m₀, hget₀, howner₀, hadvances, hposition⟩ :=
    hmarkers id marker m.advances m.position ⟨m, hget, howner, rfl, rfl⟩
  obtain ⟨z, hchain⟩ := h marker m₀ hget₀ howner₀ x (hx.trans hposition.symm)
  rw [hadvances] at hchain
  exact ⟨z, hchain.kept hentries⟩

/-- Markers move, and taking back what is recorded moves them back from seat to seat. -/
theorem moved {f : Marker → Nat} (h : Seated id s past)
    (hentries : s'.doc.log.entries = new ++ s.doc.log.entries)
    (hmarkers : s'.markers = s.markers.move id f)
    (hback : ∀ marker m, s.markers.get? marker = some m → m.owner = some id →
      new.foldl (fun p e => e.markerUndone marker m.advances p) (f m) = m.position)
    (hsettle : ∀ marker m, s.markers.get? marker = some m → m.owner = some id → ∀ x : Seat,
      x.position = f m → Entry.SettleAll marker m.advances new x) :
    Seated id s' ({ before := s, what } :: past) := by
  intro marker m' hget' howner' x hx
  obtain ⟨m, hget, howner, rfl⟩ := MarkerTable.of_get?_move (hmarkers ▸ hget') howner'
  have hposition : (new.foldl (fun x e => e.seatUndone marker m.advances x) x).position
      = m.position := by
    rw [Entry.position_foldl_seatUndone, hx, hback marker m hget howner]
  obtain ⟨z, hchain⟩ := h marker m hget howner _ hposition
  exact ⟨z, Descends.grown (Chain.settle (hsettle marker m hget howner x hx) hchain) hentries⟩

theorem inserting {z : Text} {added : Text} (h : Seated id s past) (hid : s.doc.id = id)
    (hlinked : Linked id .nothing z s past) :
    Seated id (s.inserting added) ({ before := s, what } :: past) := by
  have hmarkers : (s.inserting added).markers
      = s.markers.afterInsert id s.doc.point added.length := by
    rw [← hid]
    rfl
  rcases Recording.adds_or_lengthens_afterInsert s.view s.doc.point added.length s.recording with
    hadds | ⟨first, older, hbefore, hafter, -⟩
  · refine h.moved hadds.entries hmarkers ?_ ?_
    · intro marker m _ _
      rw [List.foldl_cons, Entry.markerUndone, Offset.afterDelete_afterInsert]
      exact foldl_still (fun e he => markerUndone_preamble he) _
    · intro marker m _ _ x _
      refine Entry.settleAll_of_not_mentioned ?_ x
      intro e he
      rcases List.mem_cons.mp he with rfl | he
      · simp [Entry.mentions]
      · exact not_mem_mentions_preamble he
  · -- The insertion at the head is lengthened: taking it back takes back both of its parts.
    have hfirst := hlinked.le_of_insertion hbefore
    intro marker m' hget' howner' x hx
    obtain ⟨m, hget, howner, rfl⟩ := MarkerTable.of_get?_move (hmarkers ▸ hget') howner'
    obtain ⟨q, hchain⟩ := h marker m hget howner { x with position := m.position } rfl
    refine ⟨q, hchain.exchanged hbefore hafter rfl ?_⟩
    rintro begins o y (hreplaced | ⟨-, hy⟩)
    · exact Or.inl ⟨rfl, hreplaced.2⟩
    · refine Or.inr ⟨fun delta he => (by cases he), ?_⟩
      rw [hy]
      simp only [Entry.seatUndone, Entry.markerUndone, hx]
      rw [Offset.afterDelete_afterInsert_lengthened hfirst]

theorem deleting {start stop : Nat} (h : Seated id s past) (hs : Ready id s.doc.text s)
    (hspan : start < stop) (hstop : stop ≤ s.doc.text.length) :
    Seated id (s.deleting start stop) ({ before := s, what } :: past) := by
  have hmarkers : (s.deleting start stop).markers = s.markers.afterDelete id start stop := by
    rw [← hs.id]
    rfl
  refine h.moved (entries_deleting (Nat.le_of_lt hspan) hstop) hmarkers ?_ ?_
  · intro marker m hget howner
    exact foldl_markerUndone_deleting hs (Nat.le_of_lt hspan) hstop hget howner
  · intro marker m hget _ x hx
    exact settleAll_deleting hs (Nat.le_of_lt hspan) hstop hget hx

/-- A replacement moves nothing. -/
theorem replacing {start : Nat} {text : Text} (h : Seated id s past)
    (hwhat : what.isReplacement = true) :
    Seated id (s.replacing start text) ({ before := s, what } :: past) := by
  have hadds := Recording.adds_afterChange s.view start
    (s.doc.text.between start (start + text.length)) s.recording
  intro marker m hget howner x hx
  obtain ⟨z, hchain⟩ := h marker m hget howner x hx
  refine ⟨z, Descends.grown (Chain.replace ?_ hwhat hchain) hadds.entries⟩
  intro e he
  rcases List.mem_cons.mp he with rfl | he
  · rfl
  · rcases List.mem_cons.mp he with rfl | he
    · rfl
    · exact Recording.isBoundary_of_mem_preamble he

theorem putting {span : Span} {runs : List Run} (h : Seated id s past) (hne : runs ≠ []) :
    Seated id (s.putting span runs) ({ before := s, what } :: past) := by
  refine h.moved (f := (·.position))
    (Recording.adds_recordedRuns s.view span.name runs s.recording hne).entries
    (move_self id s.markers).symm ?_ ?_
  · intro marker m _ _
    exact foldl_still (fun e he => markerUndone_recordedRuns he) _
  · intro marker m _ _ x _
    refine Entry.settleAll_of_not_mentioned ?_ x
    intro e he
    rcases Recording.mem_recordedRuns he with ⟨run, rfl⟩ | rfl <;>
      simp [Entry.mentions, Recording.runEntry]

theorem closing (h : Seated id s past) (hon : s.doc.log.disabled = false) :
    Seated id s.closing ({ before := s, what := .call .boundary } :: past) := by
  intro marker m hget howner x hx
  refine moved (f := (·.position)) h (entries_closing hon) (move_self id s.markers).symm ?_ ?_
    marker m hget howner x hx
  · intro marker m _ _
    refine foldl_still ?_ _
    intro e he p
    rw [Recording.mem_closing he]
    rfl
  · intro marker m _ _ x _
    refine Entry.settleAll_of_not_mentioned ?_ x
    intro e he
    rw [Recording.mem_closing he]
    simp [Entry.mentions]

/-- No entry is about a new marker yet. -/
theorem makeMarker {m₀ : Marker} (h : Seated id s past)
    (hlen : (origins s past).length = s.doc.log.length)
    (hmentioned : ∀ e ∈ s.doc.log.entries, ∀ marker ∈ e.mentions, marker < s.markers.nextId) :
    Seated id { s with markers := s.markers.push m₀ } ({ before := s, what } :: past) := by
  intro marker m hget howner x hx
  dsimp only at hget
  rw [MarkerTable.get?_push] at hget
  suffices hchain : ∃ z, Descends (SeatStep marker m.advances) s past x z by
    obtain ⟨z, hchain⟩ := hchain
    exact ⟨z, hchain.kept rfl⟩
  by_cases hnew : marker = s.markers.nextId
  · refine Chain.of_not_mentioned hlen ?_ x
    intro e he hmem
    have hlt := hmentioned e he marker hmem
    rw [hnew] at hlt
    exact Nat.lt_irrefl _ hlt
  · rw [if_neg hnew] at hget
    exact h marker m hget howner x hx

end Seated

/-! ### Sessions in which no marker is moved by hand -/

/-- What happens is a replacement, or moves markers by insertions and deletions only. -/
def Happening.isForward (id : DocId) (what : Happening) : Bool :=
  what.isReplacement || what.isSteady id

theorem Event.plain_of_isForward {o : Event} (h : o.what.isForward id = true) : o.Plain := by
  intro htruncation
  cases hwhat : o.what with
  | truncation =>
      rw [hwhat] at h
      cases h
  | _ =>
      rw [hwhat] at htruncation
      cases htruncation

namespace Command

/-- The command replaces text of the document `id`. -/
def isReplacement (id : DocId) : Command → Bool
  | .document target (.replaceRange ..) => target = id
  | _ => false

/-- The command leads the document `id` to replacements and to steady calls only. -/
def isForward (id : DocId) (c : Command) : Bool := c.isReplacement id || c.isSteady id

theorem isForward_of_isReplacement {c : Command} (hc : c.isReplacement id = true) :
    (∀ log, ∀ call ∈ c.calls id log, (Happening.call call).isForward id = true) ∧
      (c.rest id).isForward id = true := by
  unfold isReplacement at hc
  split at hc
  · rename_i target start text
    have htarget : target = id := by simpa using hc
    subst htarget
    refine ⟨?_, ?_⟩
    · intro log call hcall
      rw [calls, if_pos rfl] at hcall
      rw [List.mem_singleton.mp hcall]
      rfl
    · simp [rest, Happening.isForward, Happening.isSteady, keepsPlaces, isLocal]
  · cases hc

end Command

theorem Workspace.isForward_of_mem_past {start : Workspace} {o : Event} {commands : List Command}
    (hcommands : ∀ c ∈ commands, c.isForward id = true) (h : o ∈ start.past id commands) :
    o.what.isForward id = true := by
  obtain ⟨c, hc, hwhat⟩ := mem_past h
  have hsteady {what : Happening} (h : what.isSteady id = true) : what.isForward id = true := by
    simp [Happening.isForward, h]
  rcases Bool.or_eq_true_iff.mp (hcommands c hc) with hreplaces | hc
  · obtain ⟨hcalls, hrest⟩ := Command.isForward_of_isReplacement hreplaces
    rcases hwhat with ⟨log, call, hcall, hwhat⟩ | hwhat
    · rw [hwhat]
      exact hcalls log call hcall
    · rw [hwhat]
      exact hrest
  · rcases hwhat with ⟨log, call, hcall, hwhat⟩ | hwhat
    · rw [hwhat]
      exact hsteady (Command.isSteady_of_mem_calls hc hcall)
    · rw [hwhat]
      exact hsteady (Command.isSteady_rest hc)

/-- What holds of a document and its markers while none of them is moved by hand. -/
structure Seating (first : Editing Document) (past : List Event) (s : Editing Document) :
    Prop where
  traced : Traced first past s
  seated : Seated first.doc.id s past
  mentioned : ∀ e ∈ s.doc.log.entries, ∀ marker ∈ e.mentions, marker < s.markers.nextId

/-- A call that moves no marker by hand keeps the chains of the markers. -/
theorem Seating.seated_after {c : Call} (h : Seating first past s) (hshort : s.doc.text.Short)
    (hc : (Happening.call c).isForward id = true) :
    Seated first.doc.id (c.after s) ({ before := s, what := .call c } :: past) := by
  have hready := h.traced.ready hshort
  obtain ⟨z, hlinked, -⟩ := h.traced.linked
  have hmotion := c.motion s fun marker delta => by
    rintro rfl
    cases hc
  generalize c.after s = s' at hmotion ⊢
  cases hmotion with
  | kept hentries hmarkers => exact h.seated.kept hentries hmarkers
  | inserting => exact h.seated.inserting h.traced.id hlinked
  | deleting hspan hstop => exact h.seated.deleting hready hspan hstop
  | replacing => exact h.seated.replacing rfl
  | putting hne => exact h.seated.putting hne
  | making => exact h.seated.makeMarker hlinked.length_origins h.mentioned
  | closing => exact h.seated.closing h.traced.sound.enabled

/-- Entries go on to be about markers that there are. -/
theorem Seating.mentioned_after {c : Call} (h : Seating first past s) :
    ∀ e ∈ (c.after s).doc.log.entries, ∀ marker ∈ e.mentions,
      marker < (c.after s).markers.nextId := by
  intro e he marker hmem
  refine Nat.lt_of_lt_of_le ?_ (c.nextId_after s)
  rcases Call.mem_entries_after h.traced.sound.enabled (Entry.isBoundary_of_mentions hmem) he
    with he | hwithin
  · exact h.mentioned e he marker hmem
  · obtain ⟨m, hget, -⟩ := (Option.any_eq_true _ _).mp (hwithin.owned marker hmem)
    exact (List.getElem?_eq_some_iff.mp hget).1

theorem Seating.leads (h : Seating first past s) (hshort : s.doc.text.Short)
    (hforward : what.isForward id = true) (hleads : what.Leads id s s') :
    Seating first ({ before := s, what } :: past) s' := by
  have htraced := h.traced.leads hshort (Event.plain_of_isForward hforward) hleads
  cases what with
  | call c =>
      have hafter := Call.after_of_leads h.traced.sound hshort hleads
      subst hafter
      exact ⟨htraced, h.seated_after hshort hforward, h.mentioned_after⟩
  | aside c =>
      obtain ⟨hplaces, hnext⟩ := Aside.keeps_places hleads hforward
      refine ⟨htraced, h.seated.kept (by rw [hleads.doc]) hplaces.unmoved, ?_⟩
      rw [hleads.doc, hnext]
      exact h.mentioned
  | truncation => cases hforward

theorem Course.seating (h : Course id first past now) (hsound : first.Sound)
    (hempty : first.doc.log.entries = []) (hforward : ∀ o ∈ past, o.what.isForward id = true)
    (hshort : ∀ o ∈ past, o.before.doc.text.Short) : Seating first past now := by
  induction h with
  | start =>
      have hnothing : Course id first [] first := .start
      refine ⟨hnothing.traced hsound hempty (by simp) (by simp), ?_, ?_⟩
      · intro marker m _ _ x _
        exact ⟨x, Descends.start hempty x⟩
      · rw [hempty]
        intro e he
        cases he
  | @next s s' past what _ hleads ih =>
      have hseating := ih (fun o ho => hforward o (List.mem_cons_of_mem _ ho))
        (fun o ho => hshort o (List.mem_cons_of_mem _ ho))
      exact hseating.leads (hshort _ List.mem_cons_self) (hforward _ List.mem_cons_self) hleads

end EditHistory
