/-
Where a call puts the markers of its document.

An edit moves every marker of its document by one rule, and what else a document is asked to
do leaves the markers where they are.  So a call puts each marker where a function of it says.
The function keeps the order of markers that stand on the same side of inserted text, and
takes none further beyond the end of the text than it was: of markers in the text, none.

The calls that take back a displacement are another matter.  They put one marker at a place
that is told them, and are the only ones that move markers by hand.
-/
import EditHistory.Proofs.Session.Turns

namespace EditHistory

variable {id : DocId} {s s' : Editing Document} {c : Call} {start stop pos pos' : Nat}
  {marker : MarkerId} {m n : Marker} {table : MarkerTable} {f : Marker → Nat}

/-! ### Places under an edit -/

namespace Offset

theorem afterInsert_mono {length : Nat} {advances : Bool} (h : pos ≤ pos') :
    afterInsert start length advances pos ≤ afterInsert start length advances pos' := by
  unfold afterInsert
  by_cases hmoves : start < pos ∨ (pos = start ∧ advances = true)
  · have hmoves' : start < pos' ∨ (pos' = start ∧ advances = true) := by
      rcases hmoves with hlt | ⟨rfl, hadv⟩
      · exact Or.inl (Nat.lt_of_lt_of_le hlt h)
      · exact (Nat.lt_or_eq_of_le h).imp_right fun heq => ⟨heq.symm, hadv⟩
    rw [if_pos hmoves, if_pos hmoves']
    exact Nat.add_le_add_right h length
  · rw [if_neg hmoves]
    split <;> omega

theorem afterDelete_mono (hspan : start ≤ stop) (h : pos ≤ pos') :
    afterDelete start stop pos ≤ afterDelete start stop pos' := by
  unfold afterDelete
  split <;> split <;> (try split) <;> (try split) <;> omega

end Offset

/-! ### What a call does to markers -/

/-- A marker of a document that is moved stands where it was moved to. -/
theorem MarkerTable.get?_move_own (hget : table.get? marker = some m) (howner : m.owner = some id)
    (f : Marker → Nat) :
    (table.move id f).get? marker = some { m with position := f m } := by
  rw [get?_move, hget]
  exact congrArg some (if_pos howner)

/-- Moving the markers of a document makes no marker its own. -/
theorem MarkerTable.own_of_get?_move (hget : (table.move id f).get? marker = some n)
    (howner : n.owner = some id) : ∃ m, table.get? marker = some m ∧ m.owner = some id := by
  obtain ⟨m, hm, hown, -⟩ := of_get?_move hget howner
  exact ⟨m, hm, hown⟩

/--
From `s` to `s'` the markers of the document went where `f` says, in their order and no
further beyond the end of the text than they were; and a new one is in the text.
-/
structure Editing.Shifted (s : Editing Document) (f : Marker → Nat) (s' : Editing Document) :
    Prop where
  mono : ∀ m m' : Marker, m.advances = m'.advances → m.position ≤ m'.position → f m ≤ f m'
  within : ∀ (beyond : Nat) (m : Marker), m.position ≤ s.doc.text.length + beyond →
    f m ≤ s'.doc.text.length + beyond
  moved : ∀ marker m, s.markers.get? marker = some m → m.owner = some s.doc.id →
    ∃ n, s'.markers.get? marker = some n ∧ n.position = f m
  only : ∀ marker n, s'.markers.get? marker = some n → n.owner = some s.doc.id →
    (∃ m, s.markers.get? marker = some m ∧ m.owner = some s.doc.id) ∨
      n.position ≤ s'.doc.text.length

namespace Editing

/-- If the markers and the length of the text are as before, no marker goes anywhere. -/
theorem shifted_still (htext : s'.doc.text.length = s.doc.text.length)
    (hmarkers : s'.markers = s.markers) : s.Shifted Marker.position s' where
  mono := fun _ _ _ h => h
  within := fun _ _ h => htext ▸ h
  moved := fun _ m hget _ => ⟨m, hmarkers ▸ hget, rfl⟩
  only := fun _ n hget howner => Or.inl ⟨n, hmarkers ▸ hget, howner⟩

/-- Under an insertion the markers behind it move, and those at it that advance. -/
theorem shifted_inserting {added : Text} (hpoint : s.doc.point ≤ s.doc.text.length) :
    s.Shifted (fun m => Offset.afterInsert s.doc.point added.length m.advances m.position)
      (s.inserting added) where
  mono := by
    intro m m' hside hle
    rw [hside]
    exact Offset.afterInsert_mono hle
  within := by
    intro beyond m hm
    show _ ≤ (s.doc.text.spliced s.doc.point added).length + beyond
    rw [Text.length_spliced hpoint, Nat.add_right_comm]
    exact Offset.afterInsert_le hm
  moved := fun _ _ hget howner => ⟨_, MarkerTable.get?_move_own hget howner _, rfl⟩
  only := fun _ _ hget howner => Or.inl (MarkerTable.own_of_get?_move hget howner)

/-- Under a deletion those behind it close up. -/
theorem shifted_deleting (hspan : start ≤ stop) (hstop : stop ≤ s.doc.text.length) :
    s.Shifted (fun m => Offset.afterDelete start stop m.position) (s.deleting start stop) where
  mono := fun _ _ _ hle => Offset.afterDelete_mono hspan hle
  within := by
    intro beyond m hm
    show _ ≤ (s.doc.text.without start stop).length + beyond
    have hle := Offset.afterDelete_le hspan (Nat.le_add_right_of_le hstop) hm
    rw [Text.length_without hspan hstop]
    omega
  moved := fun _ _ hget howner => ⟨_, MarkerTable.get?_move_own hget howner _, rfl⟩
  only := fun _ _ hget howner => Or.inl (MarkerTable.own_of_get?_move hget howner)

/-- A new marker is in the text, and the others stay. -/
theorem shifted_makeMarker (pos : Nat) (advances : Bool) (s : Editing Document) :
    s.Shifted Marker.position
      { s with markers := s.markers.push (s.doc.marker pos advances) } where
  mono := fun _ _ _ h => h
  within := fun _ _ h => h
  moved := by
    intro marker m hget _
    refine ⟨m, ?_, rfl⟩
    rw [MarkerTable.get?_push, if_neg]
    · exact hget
    · rintro rfl
      rw [MarkerTable.get?_eq_none s.markers (Nat.le_refl _)] at hget
      cases hget
  only := by
    intro marker n hget howner
    rw [MarkerTable.get?_push] at hget
    split at hget
    · obtain rfl := Option.some.inj hget
      exact Or.inr (Nat.min_le_right _ _)
    · exact Or.inl ⟨n, hget, howner⟩

/-- A marker that is dropped stays where it is, but is the document's no more. -/
theorem shifted_detach (marker : MarkerId) (s : Editing Document) :
    s.Shifted Marker.position { s with markers := s.markers.detach marker } where
  mono := fun _ _ _ h => h
  within := fun _ _ h => h
  moved := by
    intro other m hget _
    show ∃ n, (s.markers.modify marker _).get? other = some n ∧ _
    rw [MarkerTable.get?_modify, hget]
    split
    · exact ⟨_, rfl, rfl⟩
    · exact ⟨m, rfl, rfl⟩
  only := by
    intro other n hget howner
    have hget' : (s.markers.modify marker ({ · with owner := none })).get? other = some n := hget
    rw [MarkerTable.get?_modify] at hget'
    split at hget'
    · obtain ⟨m, -, rfl⟩ := Option.map_eq_some_iff.mp hget'
      cases howner
    · exact Or.inl ⟨n, hget', howner⟩

end Editing

/-- The call takes back a displacement, and so puts a marker anywhere. -/
def Call.movesByHand : Call → Bool
  | .restoreMarker .. => true
  | _ => false

/-- Any other call shifts the markers of its document. -/
theorem Call.shifted_after (hc : c.movesByHand = false) (hpoint : s.doc.point ≤ s.doc.text.length) :
    ∃ f, s.Shifted f (c.after s) := by
  have hput (start stop : Nat) (name : String) (value : Json) :
      s.Shifted Marker.position (s.afterProperty start stop name value) := by
    unfold Editing.afterProperty
    split <;> exact Editing.shifted_still rfl rfl
  have hstill : s.Shifted Marker.position s := Editing.shifted_still rfl rfl
  cases c with
  | insert added =>
      rw [after]
      split
      · exact ⟨_, hstill⟩
      · exact ⟨_, Editing.shifted_inserting hpoint⟩
  | deleteRange start stop =>
      rw [after]
      split
      · rename_i hspan
        exact ⟨_, Editing.shifted_deleting (Nat.le_of_lt hspan.1) hspan.2⟩
      · exact ⟨_, hstill⟩
  | replaceRange start new =>
      rw [after]
      split
      · rename_i hstop
        exact ⟨_, Editing.shifted_still (Editing.length_replacing hstop) rfl⟩
      · exact ⟨_, hstill⟩
  | putProperty start stop name value => exact ⟨_, hput start stop name value⟩
  | restoreProperty change =>
      simp only [after]
      split
      · exact ⟨_, hput _ _ _ _⟩
      · exact ⟨_, hstill⟩
  | makeMarker pos advances => exact ⟨_, Editing.shifted_makeMarker pos advances s⟩
  | dropMarker marker =>
      rw [after]
      split
      · exact ⟨_, Editing.shifted_detach marker s⟩
      · exact ⟨_, hstill⟩
  | restoreMarker marker delta => cases hc
  | revisit modtime =>
      refine ⟨_, Editing.shifted_still ?_ rfl⟩
      simp only [after]
      split <;> rfl
  | setPoint pos => exact ⟨_, Editing.shifted_still rfl rfl⟩
  | markSaved modtime => exact ⟨_, Editing.shifted_still rfl rfl⟩
  | markUnmodified => exact ⟨_, Editing.shifted_still rfl rfl⟩
  | boundary => exact ⟨_, Editing.shifted_still rfl rfl⟩

theorem Call.Leads.shifted (hc : c.movesByHand = false)
    (hpoint : s.doc.point ≤ s.doc.text.length) (h : c.Leads s s') : ∃ f, s.Shifted f s' := by
  obtain ⟨f, hf⟩ := c.shifted_after hc hpoint
  rw [h.eq_outcome hpoint]
  refine ⟨f, hf.mono, ?_, ?_, ?_⟩
  · rw [text_outcome]
    exact hf.within
  · rw [markers_outcome]
    exact hf.moved
  · rw [markers_outcome, text_outcome]
    exact hf.only

/-- However far beyond the end of the text the markers are, they are no further then. -/
theorem Editing.Shifted.positions_le (h : s.Shifted f s') (beyond : Nat)
    (hle : ∀ p ∈ s.markers.positions s.doc.id, p ≤ s.doc.text.length + beyond) :
    ∀ p ∈ s'.markers.positions s.doc.id, p ≤ s'.doc.text.length + beyond := by
  intro p hp
  obtain ⟨n, hmem, howner, rfl⟩ := MarkerTable.mem_positions.mp hp
  obtain ⟨marker, hget⟩ := List.mem_iff_getElem?.mp hmem
  rcases h.only marker n hget howner with ⟨m, hm, hown⟩ | hnew
  · obtain ⟨n', hn', hpos⟩ := h.moved marker m hm hown
    obtain rfl := Option.some.inj (hget.symm.trans hn')
    rw [hpos]
    exact h.within beyond m
      (hle _ (MarkerTable.mem_positions.mpr ⟨m, List.mem_of_getElem? hm, hown, rfl⟩))
  · exact Nat.le_add_right_of_le hnew

end EditHistory
