/-
Markers: positions that move with the text of their document.

A marker belongs to at most one document and may besides be held from outside.
Undo logs refer to markers but do not keep them: a marker that no document owns
and nobody holds is dead, and a log entry about it is without effect.  Since such
an entry can reach any document's marker, all markers of a run stand in one table
and are known by their place in it.

When text is inserted right at a marker, `advances` decides on which side of the
new text the marker ends up.
-/
import EditHistory.Entry
import EditHistory.Offset

namespace EditHistory

/-- A marker. -/
structure Marker where
  position : Nat
  /-- Stands behind text that is inserted at its position. -/
  advances : Bool
  /-- The document that the marker moves with. -/
  owner : Option DocId
  /-- Somebody outside the documents holds the marker. -/
  held : Bool := true
deriving DecidableEq, Repr

namespace Marker

/-- Whether anything still refers to the marker. -/
def isLive (m : Marker) : Bool := m.owner.isSome || m.held

end Marker

/-- The markers of a run, by number. -/
structure MarkerTable where
  markers : List Marker := []
deriving DecidableEq, Repr, Inhabited

namespace MarkerTable

/-- The marker of the given number. -/
def get? (table : MarkerTable) (id : MarkerId) : Option Marker := table.markers[id]?

/-- The number that the next marker gets. -/
def nextId (table : MarkerTable) : MarkerId := table.markers.length

/-- Adds a marker, which gets the number `nextId`. -/
def push (marker : Marker) (table : MarkerTable) : MarkerTable :=
  { markers := table.markers ++ [marker] }

/-- Changes the marker of the given number. -/
def modify (id : MarkerId) (f : Marker → Marker) (table : MarkerTable) : MarkerTable :=
  { markers := table.markers.modify id f }

/-- Whether a marker belongs to a document. -/
def owns (doc : DocId) (id : MarkerId) (table : MarkerTable) : Bool :=
  (table.get? id).any (·.owner = some doc)

/-- Takes a marker from its document; it stays alive as long as somebody holds it. -/
def detach (id : MarkerId) (table : MarkerTable) : MarkerTable :=
  table.modify id ({ · with owner := none })

/-- The markers of a document with their numbers, in the order in which they were made. -/
def ofDoc (doc : DocId) (table : MarkerTable) : List (MarkerId × Marker) :=
  (table.markers.zipIdx.filter (·.1.owner = some doc)).map fun (m, id) => (id, m)

/-- Moves every marker of a document. -/
def move (doc : DocId) (f : Marker → Nat) (table : MarkerTable) : MarkerTable :=
  { markers := table.markers.map fun m =>
      if m.owner = some doc then { m with position := f m } else m }

/-- The markers of a document after text was inserted in it. -/
def afterInsert (doc : DocId) (start length : Nat) (table : MarkerTable) : MarkerTable :=
  table.move doc fun m => Offset.afterInsert start length m.advances m.position

/-- The markers of a document after text was deleted from it. -/
def afterDelete (doc : DocId) (start stop : Nat) (table : MarkerTable) : MarkerTable :=
  table.move doc fun m => Offset.afterDelete start stop m.position

theorem get?_move (doc : DocId) (f : Marker → Nat) (table : MarkerTable) (id : MarkerId) :
    (table.move doc f).get? id = (table.get? id).map fun m =>
      if m.owner = some doc then { m with position := f m } else m := by
  simp [get?, move]

theorem get?_modify (id : MarkerId) (f : Marker → Marker) (table : MarkerTable) (id' : MarkerId) :
    (table.modify id f).get? id' = if id = id' then (table.get? id').map f else table.get? id' := by
  simp only [get?, modify, List.getElem?_modify]
  split
  · rfl
  · simp

@[simp] theorem nextId_move (doc : DocId) (f : Marker → Nat) (table : MarkerTable) :
    (table.move doc f).nextId = table.nextId := by
  simp [nextId, move]

theorem get?_push (m : Marker) (table : MarkerTable) (id : MarkerId) :
    (table.push m).get? id = if id = table.nextId then some m else table.get? id := by
  unfold push get? nextId
  by_cases h : id = table.markers.length
  · rw [if_pos h, h]
    simp
  · rw [if_neg h]
    rcases Nat.lt_or_gt_of_ne h with hlt | hgt
    · rw [List.getElem?_append_left hlt]
    · rw [List.getElem?_eq_none (by simp; omega), List.getElem?_eq_none (by omega)]

@[simp] theorem nextId_modify (id : MarkerId) (f : Marker → Marker) (table : MarkerTable) :
    (table.modify id f).nextId = table.nextId := by
  simp [nextId, modify]

@[simp] theorem nextId_push (m : Marker) (table : MarkerTable) :
    (table.push m).nextId = table.nextId + 1 := by
  simp [nextId, push]

theorem get?_eq_none (table : MarkerTable) {id : MarkerId} (h : table.nextId ≤ id) :
    table.get? id = none := List.getElem?_eq_none h

/-- A marker of the document after a move was one before. -/
theorem of_get?_move {id : DocId} {f : Marker → Nat} {table : MarkerTable} {marker : MarkerId}
    {m' : Marker} (h : (table.move id f).get? marker = some m') (howner : m'.owner = some id) :
    ∃ m, table.get? marker = some m ∧ m.owner = some id ∧ { m with position := f m } = m' := by
  rw [get?_move] at h
  obtain ⟨m, hget, hm'⟩ := Option.map_eq_some_iff.mp h
  by_cases hown : m.owner = some id
  · rw [if_pos hown] at hm'
    exact ⟨m, hget, hown, hm'⟩
  · rw [if_neg hown] at hm'
    exact absurd (hm' ▸ howner) hown

theorem mem_ofDoc {doc : DocId} {table : MarkerTable} {id : MarkerId} {m : Marker} :
    (id, m) ∈ table.ofDoc doc ↔ table.get? id = some m ∧ m.owner = some doc := by
  simp only [ofDoc, get?, List.mem_map, List.mem_filter, Prod.mk.injEq, Prod.exists,
    List.mem_zipIdx_iff_getElem?, decide_eq_true_eq]
  constructor
  · rintro ⟨a, b, ⟨hget, howner⟩, rfl, rfl⟩
    exact ⟨hget, howner⟩
  · rintro ⟨hget, howner⟩
    exact ⟨m, id, ⟨hget, howner⟩, rfl, rfl⟩

end MarkerTable

end EditHistory
