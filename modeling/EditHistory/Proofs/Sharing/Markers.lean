/-
The markers of one document among those of all.

Markers are numbered in the order in which they are made, whoever makes them, so a run of
one document alone numbers its markers differently.  `made` tells for each marker of the
shared run whether the other run has it too: it does if the marker was there from the start
or is made for the document.  `numberAmong` counts those.

`Shares` compares the two tables from the first marker on.  A marker that belongs to the
document is the same in both.  One that does not may stand anywhere, since only the other
documents move it.
-/
import EditHistory.Marker

namespace EditHistory

/--
The number of a marker among those that are kept.  A marker that is not gets a number that
no kept one has.
-/
def numberAmong : (kept : List Bool) → MarkerId → MarkerId
  | [], _ => 0
  | kept :: later, 0 => if kept then 0 else later.count true
  | kept :: later, marker + 1 => kept.toNat + numberAmong later marker

theorem numberAmong_true_succ (kept : List Bool) (marker : MarkerId) :
    numberAmong (true :: kept) (marker + 1) = numberAmong kept marker + 1 := Nat.add_comm 1 _

theorem numberAmong_false_succ (kept : List Bool) (marker : MarkerId) :
    numberAmong (false :: kept) (marker + 1) = numberAmong kept marker := Nat.zero_add _

/-- Markers that were there before the first was left out keep their numbers. -/
theorem numberAmong_of_lt {count : Nat} {marker : MarkerId} (later : List Bool)
    (h : marker < count) : numberAmong (List.replicate count true ++ later) marker = marker := by
  induction count generalizing marker with
  | zero => exact absurd h (Nat.not_lt_zero marker)
  | succ count ih =>
      rw [List.replicate_succ, List.cons_append]
      cases marker with
      | zero => rfl
      | succ marker =>
          rw [numberAmong_true_succ, ih (Nat.lt_of_succ_lt_succ h)]

/-- A kept marker has a smaller number than all that are left out. -/
theorem numberAmong_lt {kept : List Bool} {marker : MarkerId} (h : kept[marker]? = some true) :
    numberAmong kept marker < kept.count true := by
  induction kept generalizing marker with
  | nil => cases h
  | cons b later ih =>
      cases marker with
      | zero =>
          obtain rfl : b = true := Option.some.inj h
          rw [List.count_cons_self]
          exact Nat.succ_pos _
      | succ marker =>
          have hrest := ih h
          cases b with
          | true =>
              rw [numberAmong_true_succ, List.count_cons_self]
              exact Nat.succ_lt_succ hrest
          | false =>
              rw [numberAmong_false_succ, List.count_cons_of_ne Bool.false_ne_true]
              exact hrest

/-- No other marker has the number of one that is kept. -/
theorem numberAmong_inj {kept : List Bool} {marker other : MarkerId}
    (h : kept[marker]? = some true) (hsame : numberAmong kept marker = numberAmong kept other) :
    marker = other := by
  induction kept generalizing marker other with
  | nil => cases h
  | cons b later ih =>
      cases marker with
      | zero =>
          obtain rfl : b = true := Option.some.inj h
          cases other with
          | zero => rfl
          | succ other =>
              rw [numberAmong_true_succ] at hsame
              cases hsame
      | succ marker =>
          cases b with
          | true =>
              rw [numberAmong_true_succ] at hsame
              cases other with
              | zero => cases hsame
              | succ other =>
                  rw [numberAmong_true_succ] at hsame
                  exact congrArg (· + 1) (ih h (Nat.succ.inj hsame))
          | false =>
              rw [numberAmong_false_succ] at hsame
              cases other with
              | zero => exact absurd hsame (Nat.ne_of_lt (numberAmong_lt h))
              | succ other =>
                  rw [numberAmong_false_succ] at hsame
                  exact congrArg (· + 1) (ih h hsame)

/-- The tables of a run of all documents and of one of `id` alone; `made` tells which markers
both have. -/
inductive Shares (id : DocId) : (made : List Bool) → List Marker → List Marker → Prop
  | nil : Shares id [] [] []
  | both {made : List Bool} {m m' : Marker} {ms ms' : List Marker}
      (hm : m = m' ∨ m.owner ≠ some id ∧ m'.owner ≠ some id) (h : Shares id made ms ms') :
      Shares id (true :: made) (m :: ms) (m' :: ms')
  | left {made : List Bool} {m : Marker} {ms ms' : List Marker} (hm : m.owner ≠ some id)
      (h : Shares id made ms ms') : Shares id (false :: made) (m :: ms) ms'

namespace Shares

variable {id other : DocId} {made kept : List Bool} {ms ms' : List Marker} {marker : MarkerId}

theorem refl (id : DocId) (ms : List Marker) :
    Shares id (List.replicate ms.length true) ms ms := by
  induction ms with
  | nil => exact nil
  | cons m ms ih => exact both (Or.inl rfl) ih

theorem length (h : Shares id made ms ms') : made.length = ms.length := by
  induction h with
  | nil => rfl
  | both hm h ih => exact congrArg (· + 1) ih
  | left hm h ih => exact congrArg (· + 1) ih

theorem count (h : Shares id made ms ms') : made.count true = ms'.length := by
  induction h with
  | nil => rfl
  | both hm h ih => rw [List.count_cons_self, ih, List.length_cons]
  | left hm h ih => rw [List.count_cons_of_ne Bool.false_ne_true, ih]

/-- Even when more are made, a marker that is left out has no number of one that is not. -/
theorem length_le (h : Shares id made ms ms') (hkept : made <+: kept) :
    ms'.length ≤ kept.count true := by
  rw [← h.count]
  exact hkept.sublist.count_le true

/-- The document owns a marker in one run if and only if it does in the other. -/
theorem owned (h : Shares id made ms ms') (hkept : made <+: kept) :
    (ms[marker]?).any (·.owner = some id)
      = (ms'[numberAmong kept marker]?).any (·.owner = some id) := by
  induction h generalizing kept marker with
  | nil => rfl
  | @both made m m' ms ms' hm h ih =>
      obtain ⟨later, rfl⟩ := hkept
      cases marker with
      | zero =>
          show (some m).any _ = (some m').any _
          rcases hm with rfl | ⟨hm, hm'⟩
          · rfl
          · simp [hm, hm']
      | succ marker =>
          rw [List.cons_append, numberAmong_true_succ]
          exact ih (List.prefix_append made later)
  | @left made m ms ms' hm h ih =>
      obtain ⟨later, rfl⟩ := hkept
      cases marker with
      | zero =>
          have hlength := h.length_le (List.prefix_append made later)
          show (some m).any _ = (ms'[(made ++ later).count true]?).any _
          rw [List.getElem?_eq_none hlength]
          simp [hm]
      | succ marker =>
          rw [List.cons_append, numberAmong_false_succ]
          exact ih (List.prefix_append made later)

/-- Markers go on being shared if each goes on as it may. -/
theorem map {f g : Marker → Marker} (h : Shares id made ms ms') (hf : ∀ m, (f m).owner = m.owner)
    (hg : ∀ m, (g m).owner = m.owner)
    (hfg : ∀ m, f m = g m ∨ m.owner ≠ some id) :
    Shares id made (ms.map f) (ms'.map g) := by
  induction h with
  | nil => exact nil
  | @both made m m' ms ms' hm h ih =>
      refine both ?_ ih
      rw [hf, hg]
      rcases hm with rfl | hm
      · rcases hfg m with hsame | hm
        · exact Or.inl hsame
        · exact Or.inr ⟨hm, hm⟩
      · exact Or.inr hm
  | @left made m ms ms' hm h ih =>
      refine left ?_ ih
      rwa [hf]

theorem append_both (h : Shares id made ms ms') (m : Marker) :
    Shares id (made ++ [true]) (ms ++ [m]) (ms' ++ [m]) := by
  induction h with
  | nil => exact both (Or.inl rfl) nil
  | both hm h ih => exact both hm ih
  | left hm h ih => exact left hm ih

theorem append_left (h : Shares id made ms ms') {m : Marker} (hm : m.owner ≠ some id) :
    Shares id (made ++ [false]) (ms ++ [m]) ms' := by
  induction h with
  | nil => exact left hm nil
  | both hm h ih => exact both hm ih
  | left hm h ih => exact left hm ih

/-- The document lets go of a marker in both runs. -/
theorem modify_both {f : Marker → Marker} (h : Shares id made ms ms') (hkept : made <+: kept)
    (howned : (ms[marker]?).any (·.owner = some id) = true) :
    Shares id made (ms.modify marker f) (ms'.modify (numberAmong kept marker) f) := by
  induction h generalizing kept marker with
  | nil => cases howned
  | @both made m m' ms ms' hm h ih =>
      obtain ⟨later, rfl⟩ := hkept
      cases marker with
      | zero =>
          rcases hm with rfl | ⟨hm, -⟩
          · exact both (Or.inl rfl) h
          · simp [hm] at howned
      | succ marker =>
          rw [List.cons_append, numberAmong_true_succ]
          exact both hm (ih (List.prefix_append made later) howned)
  | @left made m ms ms' hm h ih =>
      obtain ⟨later, rfl⟩ := hkept
      cases marker with
      | zero => simp [hm] at howned
      | succ marker =>
          rw [List.cons_append, numberAmong_false_succ]
          exact left hm (ih (List.prefix_append made later) howned)

/-- Another document lets go of a marker of its own. -/
theorem modify_left {f : Marker → Marker} (h : Shares id made ms ms')
    (howned : (ms[marker]?).any (·.owner = some id) = false)
    (hf : ∀ m, (f m).owner ≠ some id) : Shares id made (ms.modify marker f) ms' := by
  induction h generalizing marker with
  | nil =>
      rw [List.modify_nil]
      exact nil
  | @both made m m' ms ms' hm h ih =>
      cases marker with
      | zero =>
          refine both (Or.inr ⟨hf m, ?_⟩) h
          have hnot : m.owner ≠ some id := by simpa using howned
          rcases hm with rfl | ⟨-, hm'⟩
          · exact hnot
          · exact hm'
      | succ marker => exact both hm (ih howned)
  | @left made m ms ms' hm h ih =>
      cases marker with
      | zero => exact left (hf m) h
      | succ marker => exact left hm (ih howned)

/-- The document sees the same markers, under other numbers. -/
theorem numbered (h : Shares id made ms ms') (hkept : made <+: kept) {first first' : MarkerId}
    {number : MarkerId → MarkerId}
    (hnumber : ∀ marker, number (first + marker) = first' + numberAmong kept marker) :
    ((ms.zipIdx first).filter (·.1.owner = some id)).map (fun (m, marker) => (number marker, m))
      = ((ms'.zipIdx first').filter (·.1.owner = some id)).map
        fun (m, marker) => (marker, m) := by
  induction h generalizing kept first first' with
  | nil => rfl
  | @both made m m' ms ms' hm h ih =>
      obtain ⟨later, rfl⟩ := hkept
      have hsucc : ∀ marker, number (first + 1 + marker)
          = first' + 1 + numberAmong (made ++ later) marker := by
        intro marker
        have hnext := hnumber (marker + 1)
        rw [List.cons_append, numberAmong_true_succ, ← Nat.add_assoc, ← Nat.add_assoc] at hnext
        rw [Nat.add_right_comm first, Nat.add_right_comm first', hnext]
      have hrest := ih (List.prefix_append made later) hsucc
      have hhead : number first = first' := hnumber 0
      rw [List.zipIdx_cons, List.zipIdx_cons, List.filter_cons, List.filter_cons]
      rcases hm with rfl | ⟨hm, hm'⟩
      · by_cases hown : m.owner = some id
        · simp only [hown, decide_true, if_true, List.map_cons, hrest, hhead]
        · simp only [hown, decide_false, hrest, Bool.false_eq_true, if_false]
      · simp only [hm, hm', decide_false, hrest, Bool.false_eq_true, if_false]
  | @left made m ms ms' hm h ih =>
      obtain ⟨later, rfl⟩ := hkept
      have hsucc : ∀ marker, number (first + 1 + marker)
          = first' + numberAmong (made ++ later) marker := by
        intro marker
        have hnext := hnumber (marker + 1)
        rw [List.cons_append, numberAmong_false_succ, ← Nat.add_assoc] at hnext
        rw [Nat.add_right_comm, hnext]
      have hrest := ih (List.prefix_append made later) hsucc
      rw [List.zipIdx_cons, List.filter_cons]
      simp only [hm, decide_false, hrest, Bool.false_eq_true, if_false]

end Shares

/-! ### Tables -/

namespace MarkerTable

variable {id other : DocId} {made kept : List Bool} {table table' : MarkerTable}
  {marker : MarkerId}

/-- The tables of a run of all documents and of one of `id` alone. -/
def Shares (id : DocId) (made : List Bool) (table table' : MarkerTable) : Prop :=
  EditHistory.Shares id made table.markers table'.markers

namespace Shares

theorem refl (id : DocId) (table : MarkerTable) :
    Shares id (List.replicate table.nextId true) table table :=
  EditHistory.Shares.refl id table.markers

theorem nextId (h : Shares id made table table') : made.length = table.nextId := h.length

/-- The document sees the same markers, under other numbers. -/
theorem ofDoc (h : Shares id made table table') (hkept : made <+: kept) :
    table'.ofDoc id = (table.ofDoc id).map fun (marker, m) => (numberAmong kept marker, m) := by
  have hnumber : ∀ marker, numberAmong kept (0 + marker) = 0 + numberAmong kept marker := by
    intro marker
    rw [Nat.zero_add, Nat.zero_add]
  unfold MarkerTable.ofDoc
  rw [List.map_map]
  exact (h.numbered hkept hnumber).symm

theorem owns (h : Shares id made table table') (hkept : made <+: kept) :
    table.owns id marker = table'.owns id (numberAmong kept marker) :=
  h.owned hkept

/-- Both runs move the document's markers. -/
theorem move (h : Shares id made table table') (f : Marker → Nat) :
    Shares id made (table.move id f) (table'.move id f) := by
  refine h.map ?_ ?_ fun m => Or.inl rfl
  all_goals
    intro m
    split <;> rfl

/-- One run moves the markers of another document. -/
theorem move_other (h : Shares id made table table') (hother : other ≠ id) (f : Marker → Nat) :
    Shares id made (table.move other f) table' := by
  have hmap : Shares id made (table.move other f) { markers := table'.markers.map fun m => m } := by
    refine h.map ?_ (fun m => rfl) ?_
    · intro m
      split <;> rfl
    · intro m
      split
      · rename_i howner
        refine Or.inr ?_
        rw [howner]
        exact fun h => hother (Option.some.inj h)
      · exact Or.inl rfl
  rwa [List.map_id'] at hmap

theorem push (h : Shares id made table table') (m : Marker) :
    Shares id (made ++ [true]) (table.push m) (table'.push m) := h.append_both m

theorem push_other (h : Shares id made table table') {m : Marker} (hm : m.owner ≠ some id) :
    Shares id (made ++ [false]) (table.push m) table' := h.append_left hm

theorem detach (h : Shares id made table table') (hkept : made <+: kept)
    (howns : table.owns id marker = true) :
    Shares id made (table.detach marker) (table'.detach (numberAmong kept marker)) :=
  h.modify_both hkept howns

theorem detach_other (h : Shares id made table table') (hother : other ≠ id)
    (howns : table.owns other marker = true) : Shares id made (table.detach marker) table' := by
  refine h.modify_left ?_ fun m => nofun
  unfold MarkerTable.owns MarkerTable.get? at howns
  cases hget : table.markers[marker]? with
  | none => rfl
  | some m =>
      have howner : m.owner = some other := by simpa [hget] using howns
      simp [howner, hother]

end Shares

end MarkerTable

end EditHistory
