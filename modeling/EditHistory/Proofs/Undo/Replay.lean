/-
Taking back entries.

`Entry.undone` is the moment that taking back an entry leads to, a plain function
like `Call.after`, and `Document.undone` is the same for whole units.  An entry
`Reverts` a text to another if taking it back does; this is also what makes sure
that it is not refused.

The only other way to fail is a sum that leaves the range of a machine word.  What
an undo adds up is bounded by what stands in the log: a tick for each entry, and for
each position the lengths and distances that the entries mention.  `HasRoom` says
that these bounds are machine words; `Proofs/Undo/Room.lean` tells which sessions leave
room.  Without room an undo may fail; it is never refused, and it never ends anywhere
else than in `undone`.
-/
import EditHistory.Proofs.Undo.Chain

namespace EditHistory

open Editing

/-! ### Where taking back leads -/

/-- The moment after taking back an entry. -/
def Entry.undone (e : Entry) (s : Editing Document) : Editing Document :=
  e.undoCalls.foldl (fun s c => c.after s) s

namespace Document

/-- The moment after taking back a unit. -/
def unitUndone (s : Editing Document) (unit : List Entry) : Editing Document :=
  (unit.foldl (fun s e => e.undone s) s).closing

/-- The moment after an undo of the `count` newest units. -/
def undone (count : Nat) (s : Editing Document) : Editing Document :=
  (s.doc.log.units.take count).foldl unitUndone s.closing

end Document

/-- Taking back the entry in the document `id` turns the text `x` into `y`. -/
def Entry.Reverts (id : DocId) (e : Entry) (x y : Text) : Prop :=
  y.Short ∧
    match e with
    | .insertion start stop => start ≤ stop ∧ stop ≤ x.length ∧ y = x.without start stop
    | .deletion text offset => offset.natAbs ≤ x.length ∧ y = x.spliced offset.natAbs text
    | .propertyChange change =>
      change.doc = id ∧ change.start ≤ change.stop ∧ change.stop ≤ x.length ∧ y = x
    | _ => y = x

/-- `s` is a sound moment of the document `id`, and its text is `x`. -/
structure Ready (id : DocId) (x : Text) (s : Editing Document) : Prop where
  sound : s.Sound
  id : s.doc.id = id
  text : s.doc.text = x
  short : x.Short

variable {id : DocId} {x y : Text} {e : Entry} {s t u : Editing Document}

namespace Ready

theorem deed {c : Call} (h : Ready id x s) (hd : Deed s c t) (hy : t.doc.text = y)
    (hshort : y.Short) :
    Ready id y t :=
  ⟨h.sound.deed hd, hd.id.trans h.id, hy, hshort⟩

theorem setPoint (h : Ready id x s) (pos : Nat) :
    Ready id x { s with doc := s.doc.setPoint pos } :=
  h.deed ((Call.setPoint pos).deed s) h.text h.short

theorem closing (h : Ready id x s) : Ready id x s.closing := h.deed Deed.boundary h.text h.short

end Ready

theorem Text.without_self (text : Text) (start : Nat) : text.without start start = text :=
  List.take_append_drop start text

theorem text_afterProperty (start stop : Nat) (name : String) (value : Json)
    (s : Editing Document) : (s.afterProperty start stop name value).doc.text = s.doc.text := by
  unfold Editing.afterProperty
  split <;> rfl

/-- The moment after an insertion was taken back, but for the cursor. -/
theorem ready_deleteRange {start stop : Nat} (h : Ready id x s) (hspan : start ≤ stop)
    (hstop : stop ≤ x.length) (hy : y = x.without start stop) (hshort : y.Short) :
    Ready id y ((Call.deleteRange start stop).after s) := by
  refine h.deed ((Call.deleteRange start stop).deed s) ?_ hshort
  rw [hy, Call.after]
  by_cases hlt : start < stop
  · rw [if_pos ⟨hlt, by rwa [h.text]⟩, ← h.text]
    rfl
  · rw [if_neg (fun hc => hlt hc.1), h.text, show stop = start by omega, Text.without_self]

/-- The moment after a deletion was taken back, but for the cursor. -/
theorem ready_insert {offset : Nat} {added : Text} (h : Ready id x s)
    (hpoint : s.doc.point = offset) (hy : y = x.spliced offset added) (hshort : y.Short) :
    Ready id y ((Call.insert added).after s) := by
  refine h.deed ((Call.insert added).deed s) ?_ hshort
  rw [hy, Call.after]
  by_cases hne : added = []
  · rw [if_pos hne, h.text, hne]
    simp [Text.spliced]
  · rw [if_neg hne, ← hpoint, ← h.text]
    rfl

/-- A deletion is taken back by an insertion, behind which the cursor may stay. -/
theorem Entry.undone_deletion {text : Text} {offset : Int}
    (ht : (Call.insert text).after { s with doc := s.doc.setPoint offset.natAbs } = t) :
    (Entry.deletion text offset).undone s
      = if 0 ≤ offset then { t with doc := t.doc.setPoint offset.natAbs } else t := by
  unfold undone undoCalls
  rw [List.foldl_append, ← ht]
  split <;> rfl

/-- Taking back an entry reverts the text. -/
theorem ready_undone (h : Ready id x s) (hr : e.Reverts id x y) : Ready id y (e.undone s) := by
  obtain ⟨hshort, hr⟩ := hr
  cases e with
  | insertion start stop =>
      obtain ⟨hspan, hstop, hy⟩ := hr
      exact (ready_deleteRange h hspan hstop hy hshort).setPoint start
  | deletion text offset =>
      obtain ⟨hoffset, hy⟩ := hr
      have hpoint : (s.doc.setPoint offset.natAbs).point = offset.natAbs := by
        rw [Document.point_setPoint, h.text]
        omega
      have hins := ready_insert (h.setPoint offset.natAbs) hpoint hy hshort
      rw [Entry.undone_deletion rfl]
      by_cases h0 : 0 ≤ offset
      · rw [if_pos h0]
        exact hins.setPoint offset.natAbs
      · rw [if_neg h0]
        exact hins
  | propertyChange change =>
      obtain ⟨-, -, -, rfl⟩ := hr
      refine h.deed ((Call.restoreProperty change).deed s) ?_ hshort
      show ((Call.restoreProperty change).after s).doc.text = y
      simp only [Call.after]
      split
      · rw [text_afterProperty, h.text]
      · exact h.text
  | markerShift marker delta =>
      subst hr
      refine h.deed ((Call.restoreMarker marker delta).deed s) ?_ hshort
      exact (quiet_afterRestore marker delta s).text.trans h.text
  | firstChange modtime =>
      subst hr
      refine h.deed ((Call.revisit modtime).deed s) ?_ hshort
      show ((Call.revisit modtime).after s).doc.text = y
      simp only [Call.after]
      split
      · exact h.text
      · exact h.text
  | pointMove position =>
      subst hr
      exact h.setPoint position
  | boundary =>
      subst hr
      exact h

/-! ### Room -/

/-- How far taking back an entry can move a position. -/
def Entry.reach : Entry → Nat
  | .deletion text _ => text.length
  | .markerShift _ delta => delta.natAbs
  | _ => 0

/-- How far taking back the entries can move a position. -/
def Entry.totalReach : List Entry → Nat
  | [] => 0
  | e :: older => e.reach + totalReach older

theorem Entry.totalReach_append (newer older : List Entry) :
    totalReach (newer ++ older) = totalReach newer + totalReach older := by
  induction newer with
  | nil => simp [totalReach]
  | cons e newer ih =>
      rw [List.cons_append, totalReach, totalReach, ih]
      omega

/-- The marker that an entry is about, if it is about any. -/
def Entry.mentions : Entry → List MarkerId
  | .markerShift id _ => [id]
  | _ => []

/--
There are `ticks` ticks left, and every live marker that belongs to the document or is
`mentioned` can be moved by `reach`.
-/
structure Room (ticks reach : Nat) (mentioned : List MarkerId) (s : Editing Document) : Prop where
  ticks : Offset.Fits (s.doc.ticks.modified + ticks)
  markers : ∀ id m, s.markers.get? id = some m → m.isLive = true →
    m.owner = some s.doc.id ∨ id ∈ mentioned → m.position + reach < 0x8000000000000000

/-- Taking back the entries leads out of the range of no machine word. -/
def HasRoom (entries : List Entry) (s : Editing Document) : Prop :=
  Room entries.length (Entry.totalReach entries) (entries.flatMap Entry.mentions) s

namespace Room

variable {ticks ticks' reach reach' : Nat} {mentioned mentioned' : List MarkerId}

/-- Only the markers in the table have to be looked at. -/
theorem iff_of_table : Room ticks reach mentioned s ↔
    Offset.Fits (s.doc.ticks.modified + ticks) ∧
      ∀ id < s.markers.nextId, ∀ m ∈ s.markers.get? id, m.isLive = true →
        m.owner = some s.doc.id ∨ id ∈ mentioned → m.position + reach < 0x8000000000000000 := by
  constructor
  · rintro ⟨hticks, hmarkers⟩
    exact ⟨hticks, fun id _ m hget => hmarkers id m hget⟩
  · rintro ⟨hticks, hmarkers⟩
    refine ⟨hticks, fun id m hget => hmarkers id ?_ m hget⟩
    exact (List.getElem?_eq_some_iff.mp hget).1

instance : Decidable (Room ticks reach mentioned s) := decidable_of_iff _ iff_of_table.symm

instance (entries : List Entry) (s : Editing Document) : Decidable (HasRoom entries s) :=
  inferInstanceAs (Decidable (Room ..))

theorem mono (h : Room ticks reach mentioned s) (ht : ticks' ≤ ticks) (hr : reach' ≤ reach)
    (hm : mentioned' ⊆ mentioned) : Room ticks' reach' mentioned' s where
  ticks := by
    have h' := h.ticks
    unfold Offset.Fits at h' ⊢
    omega
  markers := by
    intro id m hget hlive hmine
    have h' := h.markers id m hget hlive (hmine.imp_right (hm ·))
    omega

/-- An edit costs one tick, and `moved` of the room for positions. -/
theorem edit {f : Marker → Nat} {moved : Nat} (h : Room (ticks + 1) (reach + moved) mentioned s)
    (hticks : t.doc.ticks.modified = s.doc.ticks.modified + 1) (hid : t.doc.id = s.doc.id)
    (hmarkers : t.markers = s.markers.move s.doc.id f)
    (hf : ∀ m, f m ≤ m.position + moved) : Room ticks reach mentioned t where
  ticks := by
    have h' := h.ticks
    rw [hticks, Nat.add_assoc, Nat.add_comm 1]
    exact h'
  markers := by
    intro id m hget hlive hmine
    rw [hid] at hmine
    rw [hmarkers, MarkerTable.get?_move] at hget
    obtain ⟨m₀, hget₀, rfl⟩ := Option.map_eq_some_iff.mp hget
    by_cases howner : m₀.owner = some s.doc.id
    · rw [if_pos howner] at hlive ⊢
      have h' := h.markers id m₀ hget₀ hlive (Or.inl howner)
      have hf' := hf m₀
      dsimp only
      omega
    · rw [if_neg howner] at hlive hmine ⊢
      have h' := h.markers id m₀ hget₀ hlive hmine
      omega

theorem inserting {added : Text} (h : Room (ticks + 1) (reach + added.length) mentioned s) :
    Room ticks reach mentioned (s.inserting added) := by
  refine h.edit rfl rfl rfl fun m => ?_
  unfold Offset.afterInsert
  split <;> omega

theorem deleting {start stop : Nat} (h : Room (ticks + 1) reach mentioned s) :
    Room ticks reach mentioned (s.deleting start stop) := by
  have h0 : Room (ticks + 1) (reach + 0) mentioned s := h
  refine h0.edit rfl rfl rfl fun m => ?_
  unfold Offset.afterDelete
  split
  · omega
  · split <;> omega

theorem putting {span : Span} {runs : List Run} (h : Room (ticks + 1) reach mentioned s) :
    Room ticks reach mentioned (s.putting span runs) where
  ticks := by
    have h' := h.ticks
    show Offset.Fits (s.doc.ticks.modified + 1 + ticks)
    rwa [Nat.add_assoc, Nat.add_comm 1]
  markers := h.markers

/-- A marker that was put elsewhere has room if it has room there. -/
theorem place {marker : MarkerId} {p : Nat} (h : Room ticks (reach + reach') mentioned s)
    (hp : ∀ m, s.markers.get? marker = some m → m.isLive = true →
      p + reach < 0x8000000000000000) :
    Room ticks reach mentioned
      { s with markers := s.markers.modify marker ({ · with position := p }) } where
  ticks := h.ticks
  markers := by
    intro id m hget hlive hmine
    simp only [MarkerTable.get?_modify] at hget
    split at hget
    · rename_i hid
      obtain ⟨m₀, hget₀, rfl⟩ := Option.map_eq_some_iff.mp hget
      exact hp m₀ (by rwa [hid]) hlive
    · have hpos := h.markers id m hget hlive hmine
      omega

theorem afterRestore {marker : MarkerId} {delta : Int}
    (h : Room ticks (reach + delta.natAbs) (marker :: mentioned) s) :
    Room ticks reach mentioned (s.afterRestore marker delta) := by
  have hweak : Room ticks (reach + delta.natAbs) mentioned s :=
    h.mono (Nat.le_refl _) (Nat.le_refl _) (List.subset_cons_self _ _)
  unfold Editing.afterRestore
  split
  · exact hweak.mono (Nat.le_refl _) (Nat.le_add_right _ _) (List.Subset.refl _)
  · rename_i m hm
    obtain ⟨hget, -⟩ := Option.filter_eq_some_iff.mp hm
    refine hweak.place fun m' hget' hlive => ?_
    have hsame : m = m' := Option.some.inj (hget.symm.trans hget')
    have hpos := h.markers marker m' hget' hlive (Or.inr List.mem_cons_self)
    have hlt : m'.position < 0x8000000000000000 := by omega
    rw [hsame, Offset.toSigned_of_lt hlt]
    omega

theorem setPoint (h : Room ticks reach mentioned s) (pos : Nat) :
    Room ticks reach mentioned { s with doc := s.doc.setPoint pos } := ⟨h.ticks, h.markers⟩

theorem closing (h : Room ticks reach mentioned s) : Room ticks reach mentioned s.closing :=
  ⟨h.ticks, h.markers⟩

/-- Where there is room, everything is in range. -/
theorem inRange (h : Room ticks reach mentioned s) (hs : s.Sound) (hshort : s.doc.text.Short) :
    Document.InRange s := by
  unfold Text.Short at hshort
  refine ⟨?_, ?_, ?_, ?_⟩
  · have hpoint := hs.point_le
    unfold Offset.Fits
    omega
  · have hticks := h.ticks
    unfold Offset.Fits at hticks ⊢
    omega
  · rintro ⟨id, m⟩ hmem
    obtain ⟨hget, howner⟩ := MarkerTable.mem_ofDoc.mp hmem
    have hpos := h.markers id m hget (by simp [Marker.isLive, howner]) (Or.inl howner)
    unfold Offset.Fits
    dsimp only
    omega
  · intro span hspan
    obtain ⟨hlt, hle⟩ := hs.spans span hspan
    unfold Offset.Fits
    constructor <;> omega

end Room

/-! ### Taking back succeeds where there is room -/

/-- The action leads to `t` unless there is no room, and then overflows if it does not. -/
def Achieves (act : EditM Document Unit) (s t : Editing Document) (room : Prop) : Prop :=
  act s = .ok () t ∨ (¬room ∧ ∃ t', act s = .error (.fault .overflow) t')

namespace Achieves

variable {act act' : EditM Document Unit} {room room' : Prop}

theorem bind (h : Achieves act s t room) (h' : Achieves act' t u room') (hroom : room → room') :
    Achieves (do act; act') s u room := by
  rcases h with h | ⟨hno, t', h⟩
  · rcases h' with h' | ⟨hno, u', h'⟩
    · exact Or.inl (by rw [EditM.bind_ok h, h'])
    · exact Or.inr ⟨fun hr => hno (hroom hr), u', by rw [EditM.bind_ok h, h']⟩
  · exact Or.inr ⟨hno, t', EditM.bind_error h⟩

/-- What always succeeds takes no room. -/
theorem bind_ok (h : Achieves act s t room) (h' : act' t = .ok () u) :
    Achieves (do act; act') s u room :=
  h.bind (Or.inl h' : Achieves act' t u room) fun hr => hr

theorem mono (h : Achieves act s t room) (hroom : room' → room) : Achieves act s t room' :=
  h.imp id fun ⟨hno, h⟩ => ⟨fun hr => hno (hroom hr), h⟩

end Achieves

section Entries

variable {ticks reach : Nat} {mentioned : List MarkerId}

theorem achieves_insert {added : Text} (h : Ready id x s)
    (hshort : ((Call.insert added).after s).doc.text.Short) :
    Achieves (Document.insert added) s ((Call.insert added).after s)
      (Room (ticks + 1) (reach + added.length) mentioned s) := by
  rw [Call.after] at hshort ⊢
  by_cases hne : added = []
  · rw [if_pos hne, hne]
    exact Or.inl (Document.insert_nil s)
  · rw [if_neg hne] at hshort ⊢
    by_cases hrange : Document.InRange (s.inserting added)
    · exact Or.inl (Document.insert_ok h.sound.enabled hne h.sound.point_le hrange)
    · refine Or.inr ⟨fun hroom => hrange ?_,
        Document.insert_overflow h.sound.enabled hne h.sound.point_le hrange⟩
      exact hroom.inserting.inRange (h.sound.deed (Deed.insertion hne)) hshort

theorem achieves_deleteRange {start stop : Nat} (h : Ready id x s) (hspan : start ≤ stop)
    (hstop : stop ≤ x.length) (hshort : ((Call.deleteRange start stop).after s).doc.text.Short) :
    Achieves (Document.deleteRange start stop) s ((Call.deleteRange start stop).after s)
      (Room (ticks + 1) reach mentioned s) := by
  have hs : s.doc.text.Short := h.text ▸ h.short
  rw [← h.text] at hstop
  rw [Call.after] at hshort ⊢
  by_cases hlt : start < stop
  · rw [if_pos ⟨hlt, hstop⟩] at hshort ⊢
    by_cases hrange : Document.InRange (s.deleting start stop)
    · exact Or.inl (Document.deleteRange_ok h.sound.enabled hlt hstop hs hrange)
    · refine Or.inr ⟨fun hroom => hrange ?_,
        Document.deleteRange_overflow h.sound.enabled hlt hstop hs hrange⟩
      exact hroom.deleting.inRange (h.sound.deed (Deed.deletion hlt hstop)) hshort
  · obtain rfl : start = stop := by omega
    rw [if_neg (fun hc => hlt hc.1)]
    exact Or.inl (Document.deleteRange_empty hstop)

theorem achieves_putProperty {start stop : Nat} {name : String} {value : Json} (h : Ready id x s)
    (hspan : start ≤ stop) (hstop : stop ≤ x.length) :
    Achieves (Document.putProperty start stop name value) s (s.afterProperty start stop name value)
      (Room (ticks + 1) reach mentioned s) := by
  have hs : s.doc.text.Short := h.text ▸ h.short
  rw [← h.text] at hstop
  have hin : ¬(stop < start ∨ s.doc.text.length < stop) := by omega
  unfold Editing.afterProperty
  by_cases hruns : s.doc.changedRuns start stop name value = []
  · rw [if_neg (by simp [hruns])]
    exact Or.inl (Document.putProperty_same hin hruns)
  · rw [if_pos ⟨hspan, hstop, hruns⟩]
    have hdeed : Deed s (.putProperty start stop name value) (s.putting { start, stop, name, value }
        (s.doc.changedRuns start stop name value)) :=
      Deed.property rfl hstop hruns (Document.runWithin_changedRuns s.doc hspan name value)
    by_cases hrange : Document.InRange (s.putting { start, stop, name, value }
        (s.doc.changedRuns start stop name value))
    · exact Or.inl (Document.putProperty_ok h.sound.enabled hin hs hruns hrange)
    · refine Or.inr ⟨fun hroom => hrange ?_,
        Document.putProperty_overflow h.sound.enabled hin hs hruns hrange⟩
      exact hroom.putting.inRange (h.sound.deed hdeed) hs

theorem achieves_restoreMarker (marker : MarkerId) (delta : Int) (s : Editing Document) :
    Achieves (Call.restoreMarker marker delta).run s (s.afterRestore marker delta)
      (Room ticks (reach + delta.natAbs) (marker :: mentioned) s) := by
  by_cases hfits : ∀ m, (s.markers.get? marker).filter (·.isLive) = some m →
      Offset.FitsSigned (Offset.toSigned m.position - delta)
  · exact Or.inl (Call.restoreMarker_ok hfits)
  · simp only [Classical.not_forall] at hfits
    obtain ⟨m, hm, hfits⟩ := hfits
    refine Or.inr ⟨fun hroom => hfits ?_, s, Call.restoreMarker_overflow hm hfits⟩
    obtain ⟨hget, hlive⟩ := Option.filter_eq_some_iff.mp hm
    have hpos := hroom.markers marker m hget hlive (Or.inr List.mem_cons_self)
    have hlt : m.position < 0x8000000000000000 := by omega
    rw [Offset.toSigned_of_lt hlt]
    unfold Offset.FitsSigned
    omega

theorem Room.insert {added : Text} (h : Room (ticks + 1) (reach + added.length) mentioned s) :
    Room ticks reach mentioned ((Call.insert added).after s) := by
  rw [Call.after]
  split
  · exact h.mono (Nat.le_succ _) (Nat.le_add_right _ _) (List.Subset.refl _)
  · exact h.inserting

theorem Room.deleteRange {start stop : Nat} (h : Room (ticks + 1) reach mentioned s) :
    Room ticks reach mentioned ((Call.deleteRange start stop).after s) := by
  rw [Call.after]
  split
  · exact h.deleting
  · exact h.mono (Nat.le_succ _) (Nat.le_refl _) (List.Subset.refl _)

theorem Room.afterProperty {start stop : Nat} {name : String} {value : Json}
    (h : Room (ticks + 1) reach mentioned s) :
    Room ticks reach mentioned (s.afterProperty start stop name value) := by
  unfold Editing.afterProperty
  split
  · exact h.putting
  · exact h.mono (Nat.le_succ _) (Nat.le_refl _) (List.Subset.refl _)

end Entries

variable {older entries : List Entry}

theorem hasRoom_cons : HasRoom (e :: older) s ↔
    Room (older.length + 1) (Entry.totalReach older + e.reach)
      (e.mentions ++ older.flatMap Entry.mentions) s := by
  unfold HasRoom
  rw [Entry.totalReach, List.length_cons, List.flatMap_cons, Nat.add_comm e.reach]

/-- Taking back the newest entry leaves room for the others. -/
theorem hasRoom_undone (h : HasRoom (e :: older) s) : HasRoom older (e.undone s) := by
  rw [hasRoom_cons] at h
  have hweak : HasRoom older s :=
    h.mono (Nat.le_succ _) (Nat.le_add_right _ _) (List.subset_append_right _ _)
  cases e with
  | insertion start stop => exact (Room.deleteRange h).setPoint start
  | deletion text offset =>
      have hins := (h.setPoint offset.natAbs).insert
      rw [Entry.undone_deletion rfl]
      by_cases h0 : 0 ≤ offset
      · rw [if_pos h0]
        exact hins.setPoint offset.natAbs
      · rw [if_neg h0]
        exact hins
  | propertyChange change =>
      show HasRoom older ((Call.restoreProperty change).after s)
      simp only [Call.after]
      split
      · exact Room.afterProperty h
      · exact hweak
  | markerShift marker delta =>
      exact Room.afterRestore (h.mono (Nat.le_succ _) (Nat.le_refl _) (List.Subset.refl _))
  | firstChange modtime =>
      show HasRoom older ((Call.revisit modtime).after s)
      simp only [Call.after]
      split <;> exact ⟨hweak.ticks, hweak.markers⟩
  | pointMove position => exact hweak.setPoint position
  | boundary => exact hweak

/-- Taking back an entry that reverts the text leads to `undone` if there is room. -/
theorem achieves_undoEntry (older : List Entry) (h : Ready id x s) (hr : e.Reverts id x y) :
    Achieves (Document.undoEntry e) s (e.undone s) (HasRoom (e :: older) s) := by
  simp only [hasRoom_cons]
  have hready := ready_undone h hr
  obtain ⟨hshort, hr⟩ := hr
  cases e with
  | insertion start stop =>
      obtain ⟨hspan, hstop, hy⟩ := hr
      have hdel := ready_deleteRange h hspan hstop hy hshort
      exact (achieves_deleteRange h hspan hstop (hdel.text ▸ hdel.short)).bind_ok rfl
  | deletion text offset =>
      obtain ⟨hoffset, hy⟩ := hr
      have hpoint : (s.doc.setPoint offset.natAbs).point = offset.natAbs := by
        rw [Document.point_setPoint, h.text]
        omega
      have hbegun := h.setPoint offset.natAbs
      have hready' := ready_insert hbegun hpoint hy hshort
      have hins : Achieves (Document.insert text) { s with doc := s.doc.setPoint offset.natAbs } _
          (Room (older.length + 1) (Entry.totalReach older + text.length)
            (older.flatMap Entry.mentions) { s with doc := s.doc.setPoint offset.natAbs }) :=
        achieves_insert hbegun (hready'.text ▸ hready'.short)
      rw [Entry.undone_deletion rfl]
      unfold Document.undoEntry
      refine Achieves.bind (Or.inl rfl) (hins.bind_ok ?_) fun hroom => hroom.setPoint offset.natAbs
      by_cases h0 : 0 ≤ offset
      · rw [if_pos h0, if_pos h0]
        rfl
      · rw [if_neg h0, if_neg h0]
        rfl
  | propertyChange change =>
      obtain ⟨hown, hspan, hstop, -⟩ := hr
      have hown' : change.doc = s.doc.id := hown.trans h.id.symm
      have hput : Achieves
          (Document.putProperty change.start change.stop change.name change.old) s _
          (Room (older.length + 1) (Entry.totalReach older) (older.flatMap Entry.mentions) s) :=
        achieves_putProperty h hspan hstop
      show Achieves (Call.restoreProperty change).run s ((Call.restoreProperty change).after s) _
      unfold Achieves at hput ⊢
      rw [Call.restoreProperty_own hown']
      simp only [Call.after, if_pos hown']
      exact hput
  | markerShift marker delta =>
      exact achieves_restoreMarker marker delta s
  | firstChange modtime => exact Or.inl rfl
  | pointMove position => exact Or.inl rfl
  | boundary => exact Or.inl rfl

/-! ### Taking back along a chain -/

namespace Chain

variable {σ : Type} {R : Entry → Bool → Event → σ → σ → Prop} (Sim : σ → Editing Document → Prop)
  {os : List Event} {a b c : σ} {unit rest : List Entry}

/-- Taking back the entries of a unit follows the chain, entry by entry. -/
theorem foldl_undone_of_origins
    (hentry : ∀ {e begins o a b s}, o ∈ os.take unit.length → R e begins o a b → Sim a s →
      Sim b (e.undone s))
    (h : Chain R (unit ++ rest) os a c) (hs : Sim a s) :
    ∃ b, Sim b (unit.foldl (fun s e => e.undone s) s) ∧
      Chain R rest (os.drop unit.length) b c := by
  induction unit generalizing os a s with
  | nil => exact ⟨a, hs, h⟩
  | cons e unit ih =>
      cases h with
      | cons head tail =>
          refine ih (fun ho => hentry (List.mem_cons_of_mem _ ho)) tail ?_
          exact hentry List.mem_cons_self head hs

/-- Taking back the entries of a unit follows the chain. -/
theorem foldl_undone
    (hentry : ∀ {e begins o a b s}, R e begins o a b → Sim a s → Sim b (e.undone s))
    (h : Chain R (unit ++ rest) os a c) (hs : Sim a s) :
    ∃ b, Sim b (unit.foldl (fun s e => e.undone s) s) ∧
      Chain R rest (os.drop unit.length) b c :=
  h.foldl_undone_of_origins Sim (fun _ => hentry) hs

/-- Taking back all units follows the chain to its end. -/
theorem units_undone
    (hentry : ∀ {e begins o a b s}, R e begins o a b → Sim a s → Sim b (e.undone s))
    (hclosing : ∀ {a s}, Sim a s → Sim a s.closing)
    (h : Chain R entries os a c) (hs : Sim a s) :
    Sim c ((Log.groups [] entries).foldl Document.unitUndone s) := by
  induction entries using Log.unit_induction generalizing os a s with
  | nil =>
      cases h with
      | nil => exact hs
  | boundary older ih =>
      cases h with
      | cons head tail => exact ih tail (hentry head hs)
  | unit body e rest hbody he hrest ih =>
      rw [Log.groups_unit hbody he hrest, List.foldl_cons]
      have h' : Chain R ((body ++ [e]) ++ rest) os a c := by simpa using h
      obtain ⟨b, hb, htail⟩ := h'.foldl_undone Sim hentry hs
      exact ih htail (hclosing hb)

/--
Taking back the `k + 1` newest units ends by taking back the entry with which the
oldest of them began, and by closing.
-/
theorem beginning_undone {k : Nat} {o : Event}
    (hentry : ∀ {e begins o a b s}, R e begins o a b → Sim a s → Sim b (e.undone s))
    (hclosing : ∀ {a s}, Sim a s → Sim a s.closing)
    (h : Chain R entries os a c) (hs : Sim a s) (ho : (beginnings entries os)[k]? = some o) :
    ∃ e a' b s', R e true o a' b ∧ Sim a' s' ∧
      ((Log.groups [] entries).take (k + 1)).foldl Document.unitUndone s
        = (e.undone s').closing := by
  induction entries using Log.unit_induction generalizing os a s k with
  | nil =>
      cases h with
      | nil => cases ho
  | boundary older ih =>
      cases h with
      | cons head tail => exact ih tail (hentry head hs) ho
  | unit body e rest hbody he hrest ih =>
      obtain ⟨b, hb, hlast⟩ := h.foldl_undone Sim hentry hs
      generalize hos : os.drop body.length = os' at hlast
      cases hlast with
      | @cons _ _ o' os' _ b' _ head tail =>
          rw [beginnings_unit hbody he hrest, ← List.drop_drop, hos] at ho
          rw [Log.begins_of_opens he hrest] at head
          rw [Log.groups_unit hbody he hrest, List.take_succ_cons, List.foldl_cons]
          have hunit : Document.unitUndone s (body ++ [e])
              = (e.undone (body.foldl (fun s e => e.undone s) s)).closing := by
            unfold Document.unitUndone
            rw [List.foldl_append]
            rfl
          rw [hunit]
          cases k with
          | zero =>
              obtain rfl : o' = o := by simpa using ho
              exact ⟨e, b, b', _, head, hb, by rw [List.take_zero, List.foldl_nil]⟩
          | succ k => exact ih tail (hclosing (hentry head hb)) (by simpa using ho)

end Chain

section Units

variable {os : List Event} {unit rest : List Entry} {z : Text}

/-- The relation of a chain of texts. -/
abbrev TextStep (id : DocId) : Entry → Bool → Event → Text → Text → Prop :=
  fun e _ _ x y => e.Reverts id x y

theorem achieves_unit (h : Chain (TextStep id) (unit ++ rest) os x z) (hs : Ready id x s) :
    Achieves (unit.forM Document.undoEntry) s (unit.foldl (fun s e => e.undone s) s)
        (HasRoom (unit ++ rest) s) ∧
      (HasRoom (unit ++ rest) s → HasRoom rest (unit.foldl (fun s e => e.undone s) s)) := by
  induction unit generalizing os x s with
  | nil => exact ⟨Or.inl rfl, fun hroom => hroom⟩
  | cons e unit ih =>
      cases h with
      | cons head tail =>
          obtain ⟨hunit, hroom⟩ := ih tail (ready_undone hs head)
          exact ⟨(achieves_undoEntry _ hs head).bind hunit hasRoom_undone,
            fun h => hroom (hasRoom_undone h)⟩

theorem achieves_units (count : Nat) (h : Chain (TextStep id) entries os x z) (hs : Ready id x s) :
    Achieves (((Log.groups [] entries).take count).forM Document.undoUnit) s
      (((Log.groups [] entries).take count).foldl Document.unitUndone s) (HasRoom entries s) := by
  induction entries using Log.unit_induction generalizing os x s count with
  | nil => cases count <;> exact Or.inl rfl
  | boundary older ih =>
      cases h with
      | cons head tail =>
          exact (ih count tail (ready_undone hs head)).mono hasRoom_undone
  | unit body e rest hbody he hrest ih =>
      cases count with
      | zero => exact Or.inl rfl
      | succ count =>
          rw [Log.groups_unit hbody he hrest, List.take_succ_cons]
          have hassoc : body ++ e :: rest = (body ++ [e]) ++ rest := by simp
          rw [hassoc] at h ⊢
          obtain ⟨hunit, hroom⟩ := achieves_unit h hs
          obtain ⟨y, hready, htail⟩ :=
            h.foldl_undone (Ready id) (fun hr hs => ready_undone hs hr) hs
          have hclosed : Achieves (Document.undoUnit (body ++ [e])) s
              (Document.unitUndone s (body ++ [e])) (HasRoom ((body ++ [e]) ++ rest) s) :=
            hunit.bind_ok rfl
          exact hclosed.bind (ih count htail hready.closing) fun h => (hroom h).closing

/-- An undo leads to `undone` if there is room, and does not fail but by an overflow. -/
theorem achieves_undo (count : Nat)
    (h : Chain (TextStep id) s.doc.log.entries os s.doc.text z) (hs : Ready id s.doc.text s) :
    Achieves (Document.undo count) s (Document.undone count s)
      (HasRoom s.doc.log.entries s) := by
  have hunits := achieves_units count h hs.closing
  have hundo : Document.undo count s = (do
      EditM.record Recording.insertBoundary
      (s.doc.log.units.take count).forM Document.undoUnit : EditM Document Unit) s := rfl
  unfold Achieves
  rw [hundo]
  exact Achieves.bind (Or.inl rfl) hunits fun hroom => hroom.closing

section Carried

variable {σ : Type} {f : Entry → σ → σ} {Q : σ → Editing Document → Prop} {a : σ}
  (hentry : ∀ {e x y a s}, Ready id x s → e.Reverts id x y → Q a s → Q (f e a) (e.undone s))

include hentry

/-- What every entry carries on as `f` says while it is taken back, a unit carries on. -/
theorem Chain.foldl_unit_undone (h : Chain (TextStep id) (unit ++ rest) os x z)
    (hs : Ready id x s) (hq : Q a s) :
    ∃ y os', Ready id y (unit.foldl (fun s e => e.undone s) s) ∧ Chain (TextStep id) rest os' y z ∧
      Q (unit.foldl (fun a e => f e a) a) (unit.foldl (fun s e => e.undone s) s) := by
  induction unit generalizing os x s a with
  | nil => exact ⟨x, os, hs, h, hq⟩
  | cons e unit ih =>
      cases h with
      | cons head tail => exact ih tail (ready_undone hs head) (hentry hs head hq)

/-- And so does an undo, unit by unit. -/
theorem Chain.foldl_units_undone (hstill : ∀ a, f .boundary a = a)
    (hclosing : ∀ {a s}, Q a s → Q a s.closing) (count : Nat)
    (h : Chain (TextStep id) entries os x z) (hs : Ready id x s) (hq : Q a s) :
    Q (((Log.groups [] entries).take count).flatten.foldl (fun a e => f e a) a)
      (((Log.groups [] entries).take count).foldl Document.unitUndone s) := by
  induction entries using Log.unit_induction generalizing os x s count a with
  | nil => cases count <;> exact hq
  | boundary older ih =>
      cases h with
      | cons head tail =>
          have hskip := hentry hs head hq
          rw [hstill] at hskip
          exact ih count tail (ready_undone hs head) hskip
  | unit body e rest hbody he hrest ih =>
      cases count with
      | zero => exact hq
      | succ count =>
          have hassoc : body ++ e :: rest = (body ++ [e]) ++ rest := by simp
          rw [Log.groups_unit hbody he hrest, List.take_succ_cons, List.flatten_cons,
            List.foldl_append, List.foldl_cons]
          rw [hassoc] at h
          obtain ⟨y, os', hready, htail, hq'⟩ := h.foldl_unit_undone hentry hs hq
          exact ih count htail hready.closing (hclosing hq')

/-- In the middle of an undo it is what the entries carry on that were taken back so far. -/
theorem Chain.foldl_newer_undone {newer : List Entry}
    (h : Chain (TextStep id) entries os x z) (hs : Ready id x s) (hq : Q a s)
    (hnewer : newer <+: entries.filter fun e => !e.isBoundary) :
    Q (newer.foldl (fun a e => f e a) a) (newer.foldl (fun s e => e.undone s) s) := by
  induction h generalizing s a newer with
  | nil =>
      rw [List.prefix_nil.mp hnewer]
      exact hq
  | @cons e older o origins x y z head tail ih =>
      cases he : e.isBoundary with
      | true =>
          rw [List.filter_cons_of_neg (by simp [he])] at hnewer
          obtain rfl := Entry.isBoundary_iff.mp he
          obtain rfl : y = x := head.2
          exact ih hs hq hnewer
      | false =>
          rw [List.filter_cons_of_pos (by simp [he])] at hnewer
          rcases List.prefix_cons_iff.mp hnewer with rfl | ⟨rest, rfl, hrest⟩
          · exact hq
          · rw [List.foldl_cons, List.foldl_cons]
            exact ih (ready_undone hs head) (hentry hs head hq) hrest

end Carried

end Units

end EditHistory
