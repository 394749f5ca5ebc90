/-
The grammar of a log.

The order in which undo takes entries back makes sense for logs of a certain shape only.
Boundaries are never next to each other.  The place of the cursor is noted at the start of
a unit, behind nothing but a first-change entry.  The displacements of markers come right
before the deletion that displaced them, and none goes further than the deleted text.

`Grammar` reads a log from its newest entry and carries the text of the deletion whose
displacements it is at.  A log that is cut keeps its newest entries, so a cut cannot part
a displacement from its deletion; whatever comes to be the oldest entry has nothing below
it, and that is always allowed.
-/
import EditHistory.Proofs.Log.Upkeep
import EditHistory.Proofs.Recording

namespace EditHistory

namespace Log

/-- No unit is open: there are no entries, or the newest is a boundary. -/
def Closed (entries : List Entry) : Prop := entries.head?.all Entry.isBoundary = true

instance (entries : List Entry) : Decidable (Closed entries) :=
  inferInstanceAs (Decidable (_ = _))

/-- Nothing was noted in the newest unit but perhaps that the document was unmodified. -/
def Opens : List Entry → Prop
  | .firstChange _ :: older => Closed older
  | entries => Closed entries

/--
The entries are in order, newest first; `deleted` is the text of the deletion whose
displacements may come next.
-/
def Grammar (deleted : Option Text) : List Entry → Prop
  | [] => True
  | .boundary :: older => older.head? ≠ some .boundary ∧ Grammar none older
  | .pointMove _ :: older => Opens older ∧ Grammar none older
  | .markerShift _ delta :: older =>
    (∃ text, deleted = some text ∧ delta ≠ 0 ∧ delta.natAbs ≤ text.length) ∧ Grammar deleted older
  | .deletion text _ :: older => Grammar (some text) older
  | .insertion .. :: older | .propertyChange _ :: older | .firstChange _ :: older =>
    Grammar none older

/-- The same of a log, entry by entry and its neighbours. -/
structure Grammatical (log : Log) : Prop where
  /-- No two boundaries are neighbours. -/
  boundary : ∀ newer older, log.entries = newer ++ .boundary :: older →
    older.head? ≠ some .boundary
  /-- Below a point move is nothing or a boundary, or a first change with that below it. -/
  pointMove : ∀ newer position older, log.entries = newer ++ .pointMove position :: older →
    Closed older ∨ ∃ modtime oldest, older = .firstChange modtime :: oldest ∧ Closed oldest
  /-- Above a displacement are others at most, and then the deletion that it belongs to. -/
  markerShift : ∀ newer marker delta older,
    log.entries = newer ++ .markerShift marker delta :: older →
    ∃ newest text offset between, newer = newest ++ .deletion text offset :: between ∧
      (∀ e ∈ between, ∃ marker delta, e = .markerShift marker delta) ∧
      delta ≠ 0 ∧ delta.natAbs ≤ text.length

variable {log log' : Log} {deleted : Option Text} {entries newer older : List Entry} {text : Text}

theorem opens_iff : Opens entries ↔
    Closed entries ∨ ∃ modtime older, entries = .firstChange modtime :: older ∧ Closed older := by
  unfold Opens
  split
  · rename_i modtime older
    refine ⟨fun h => Or.inr ⟨modtime, older, rfl, h⟩, ?_⟩
    rintro (h | ⟨_, _, heq, h⟩)
    · cases h
    · cases heq
      exact h
  · rename_i hne
    refine ⟨Or.inl, ?_⟩
    rintro (h | ⟨modtime, older, rfl, -⟩)
    · exact h
    · exact absurd rfl (hne modtime older)

/-! ### Reading on -/

namespace Grammar

/-- Where no displacement may come, there is none, so it does not matter what was deleted. -/
theorem weaken (h : Grammar none entries) (deleted : Option Text) : Grammar deleted entries := by
  cases entries with
  | nil => trivial
  | cons e older =>
      cases e with
      | markerShift marker delta =>
          obtain ⟨⟨text, hnone, -⟩, -⟩ := h
          cases hnone
      | _ => exact h

/-- The displacements of a deletion. -/
theorem shifts {shifts : List Entry} (h : Grammar none older)
    (hshifts : ∀ e ∈ shifts, ∃ marker delta, e = .markerShift marker delta ∧ delta ≠ 0 ∧
      delta.natAbs ≤ text.length) : Grammar (some text) (shifts ++ older) := by
  induction shifts with
  | nil => exact h.weaken _
  | cons e rest ih =>
      obtain ⟨marker, delta, rfl, hdelta⟩ := hshifts e List.mem_cons_self
      exact ⟨⟨text, rfl, hdelta⟩, ih fun e he => hshifts e (List.mem_cons_of_mem _ he)⟩

/-- What is left of a log that is cut is in order. -/
theorem take (h : Grammar deleted entries) (count : Nat) : Grammar deleted (entries.take count) := by
  induction entries generalizing deleted count with
  | nil => rwa [List.take_nil]
  | cons e older ih =>
      cases count with
      | zero => trivial
      | succ count =>
          have hclosed : ∀ {l : List Entry} (n : Nat), Closed l → Closed (l.take n) := by
            intro l n hl
            cases n with
            | zero => rfl
            | succ n => rwa [Closed, List.head?_take, if_neg (Nat.succ_ne_zero n)]
          rw [List.take_succ_cons]
          cases e with
          | boundary =>
              refine ⟨?_, ih h.2 count⟩
              rw [List.head?_take]
              split
              · nofun
              · exact h.1
          | pointMove position =>
              refine ⟨opens_iff.mpr ?_, ih h.2 count⟩
              rcases opens_iff.mp h.1 with hold | ⟨modtime, oldest, rfl, hold⟩
              · exact Or.inl (hclosed count hold)
              · cases count with
                | zero => exact Or.inl rfl
                | succ count => exact Or.inr ⟨modtime, _, rfl, hclosed count hold⟩
          | markerShift marker delta => exact ⟨h.1, ih h.2 count⟩
          | deletion text offset => exact ih h count
          | insertion start stop => exact ih h count
          | propertyChange change => exact ih h count
          | firstChange modtime => exact ih h count

theorem upkept (h : Grammar none log.entries) (hkept : Upkept log log') :
    Grammar none log'.entries := by
  obtain ⟨count, hcount⟩ := hkept.entries
  rw [hcount]
  exact h.take count

/-! ### What the grammar says of an entry -/

/-- What is below an entry is in order too, except that displacements may come first. -/
theorem suffix (h : Grammar deleted (newer ++ older)) : ∃ deleted', Grammar deleted' older := by
  induction newer generalizing deleted with
  | nil => exact ⟨deleted, h⟩
  | cons e rest ih =>
      cases e with
      | boundary => exact ih h.2
      | pointMove position => exact ih h.2
      | markerShift marker delta => exact ih h.2
      | deletion text offset => exact ih (show Grammar (some text) _ from h)
      | insertion start stop => exact ih (show Grammar none _ from h)
      | propertyChange change => exact ih (show Grammar none _ from h)
      | firstChange modtime => exact ih (show Grammar none _ from h)

/-- A displacement belongs to a deletion above it, or to one that is not in sight. -/
theorem deletion_of_shift {marker : MarkerId} {delta : Int}
    (h : Grammar deleted (newer ++ .markerShift marker delta :: older)) :
    (∃ newest text offset between, newer = newest ++ .deletion text offset :: between ∧
        (∀ e ∈ between, ∃ marker delta, e = .markerShift marker delta) ∧
        delta ≠ 0 ∧ delta.natAbs ≤ text.length) ∨
      (∀ e ∈ newer, ∃ marker delta, e = .markerShift marker delta) ∧
        ∃ text, deleted = some text ∧ delta ≠ 0 ∧ delta.natAbs ≤ text.length := by
  induction newer generalizing deleted with
  | nil => exact Or.inr ⟨nofun, h.1⟩
  | cons e rest ih =>
      -- An entry that is no displacement sends the search on without a deletion in sight.
      have hother : Grammar none (rest ++ .markerShift marker delta :: older) →
          ∃ newest text offset between, e :: rest = newest ++ .deletion text offset :: between ∧
            (∀ e ∈ between, ∃ marker delta, e = .markerShift marker delta) ∧
            delta ≠ 0 ∧ delta.natAbs ≤ text.length := by
        intro hrest
        rcases ih hrest with ⟨newest, text, offset, between, rfl, hbetween⟩ | ⟨-, text, hnone, -⟩
        · exact ⟨e :: newest, text, offset, between, rfl, hbetween⟩
        · cases hnone
      cases e with
      | boundary => exact Or.inl (hother h.2)
      | pointMove position => exact Or.inl (hother h.2)
      | insertion start stop => exact Or.inl (hother h)
      | propertyChange change => exact Or.inl (hother h)
      | firstChange modtime => exact Or.inl (hother h)
      | deletion text offset =>
          refine Or.inl ?_
          rcases ih (show Grammar (some text) _ from h) with
            ⟨newest, text', offset', between, rfl, hbetween⟩ | ⟨hrest, text', htext, hdelta⟩
          · exact ⟨.deletion text offset :: newest, text', offset', between, rfl, hbetween⟩
          · cases htext
            exact ⟨[], text, offset, rest, rfl, hrest, hdelta⟩
      | markerShift marker' delta' =>
          rcases ih h.2 with ⟨newest, text, offset, between, rfl, hbetween⟩ | ⟨hrest, hdelta⟩
          · exact Or.inl ⟨.markerShift marker' delta' :: newest, text, offset, between, rfl,
              hbetween⟩
          · refine Or.inr ⟨?_, hdelta⟩
            intro e he
            rcases List.mem_cons.mp he with rfl | he
            · exact ⟨marker', delta', rfl⟩
            · exact hrest e he

theorem grammatical (h : Grammar none log.entries) : log.Grammatical where
  boundary := by
    intro newer older heq
    rw [heq] at h
    obtain ⟨deleted, hboundary⟩ := h.suffix
    exact hboundary.1
  pointMove := by
    intro newer position older heq
    rw [heq] at h
    obtain ⟨deleted, hmove⟩ := h.suffix
    exact opens_iff.mp hmove.1
  markerShift := by
    intro newer marker delta older heq
    rw [heq] at h
    rcases h.deletion_of_shift with hfound | ⟨-, text, hnone, -⟩
    · exact hfound
    · cases hnone

end Grammar

end Log

/-- How a word is read as a signed offset. -/
theorem Offset.toSigned_cases {n : Nat} (h : Fits n) :
    (n < 0x8000000000000000 ∧ toSigned n = n) ∨
      (0x8000000000000000 ≤ n ∧ toSigned n = n - 0x10000000000000000) := by
  unfold Fits at h
  by_cases hlow : n < 0x8000000000000000
  · exact Or.inl ⟨hlow, toSigned_of_lt hlow⟩
  · refine Or.inr ⟨Nat.not_lt.mp hlow, ?_⟩
    unfold toSigned
    rw [Int.bmod_def]
    split <;> omega

/-! ### Recording -/

namespace Recording

open Log (Grammar)

variable {v : View} {s s' : Recording} {new : List Entry} {pos start stop length : Nat}

/-- The log is in order. -/
def Ordered (s : Recording) : Prop := Grammar none s.log.entries

theorem grammar_firstChanges {entries : List Entry} (h : Grammar none entries) :
    Grammar none (firstChanges v s ++ entries) := by
  unfold firstChanges
  split
  · exact h
  · exact h

theorem grammar_preamble (h : s.Ordered) : Grammar none (preamble v pos s ++ s.log.entries) := by
  unfold preamble
  split
  · exact h
  · rw [List.append_assoc]
    have hfirst : Grammar none (firstChanges v s ++ s.log.entries) := grammar_firstChanges h
    -- The cursor is noted only if no unit is open, so below the entry is a first change at most.
    unfold pointMoves
    split
    · rename_i hboundary _
      split
      · exact hfirst
      · refine ⟨?_, hfirst⟩
        unfold firstChanges
        split
        · exact hboundary
        · exact Log.opens_iff.mpr (Or.inl hboundary)
    · exact hfirst

/-- Read as a signed word or not, a marker in the span is moved by no more than its length. -/
theorem natAbs_displacement {m : Marker} (hstop : Offset.Fits stop)
    (hin : start ≤ m.position ∧ m.position ≤ stop)
    (hfits : Offset.FitsSigned (displacement start stop m)) :
    (displacement start stop m).natAbs ≤ stop - start := by
  have htarget : start ≤ (if m.advances then stop else start) ∧
      (if m.advances then stop else start) ≤ stop := by
    split <;> omega
  unfold displacement at hfits ⊢
  generalize (if m.advances then stop else start) = target at htarget hfits ⊢
  unfold Offset.Fits at hstop
  unfold Offset.FitsSigned at hfits
  -- Only if the two words lie on either side of the change of sign is the difference off, by
  -- the number of words; then it is a signed word only if the span is half of them long.
  rcases Offset.toSigned_cases (n := target) (by unfold Offset.Fits; omega) with
    ⟨htarget', hread⟩ | ⟨htarget', hread⟩ <;>
  rcases Offset.toSigned_cases (n := m.position) (by unfold Offset.Fits; omega) with
    ⟨hposition, hread'⟩ | ⟨hposition, hread'⟩ <;>
  rw [hread, hread'] at hfits ⊢ <;> omega

/-- The displacements that are recorded are no larger than the deleted text. -/
theorem mem_shifts_bounded {withMarkers : Bool} {e : Entry} (hstop : Offset.Fits stop)
    (hfits : ∀ m ∈ moved v start stop withMarkers, Offset.FitsSigned m.2)
    (h : e ∈ shifts v start stop withMarkers) :
    ∃ marker delta, e = .markerShift marker delta ∧ delta ≠ 0 ∧ delta.natAbs ≤ stop - start := by
  obtain ⟨⟨marker, delta⟩, hmem, rfl⟩ := List.mem_map.mp (List.mem_reverse.mp h)
  obtain ⟨hmoved, hne⟩ := List.mem_filter.mp hmem
  refine ⟨marker, delta, rfl, by simpa using hne, ?_⟩
  have hdelta := hfits _ hmoved
  unfold moved at hmoved
  split at hmoved
  · unfold displacements at hmoved
    obtain ⟨⟨marker', m⟩, hm, heq⟩ := List.mem_map.mp hmoved
    cases heq
    exact natAbs_displacement hstop (by simpa using (List.mem_filter.mp hm).2) hdelta
  · cases hmoved

theorem ordered_afterInsert (h : s.Ordered) : (s.afterInsert v start length).Ordered := by
  unfold Ordered
  rcases adds_or_lengthens_afterInsert v start length s with hadds | ⟨first, older, hold, hnew, -⟩
  · rw [hadds.entries]
    exact grammar_preamble h
  · rw [hnew]
    unfold Ordered at h
    rw [hold] at h
    exact h

theorem ordered_afterDelete {text : Text} {withMarkers : Bool} (h : s.Ordered)
    (hstop : Offset.Fits (start + text.length))
    (hfits : ∀ m ∈ moved v start (start + text.length) withMarkers, Offset.FitsSigned m.2) :
    (s.afterDelete v start text withMarkers).Ordered := by
  unfold Ordered
  rw [(adds_afterDelete v start text withMarkers s).entries, List.cons_append, List.append_assoc]
  refine Grammar.shifts (grammar_preamble h) ?_
  intro e he
  have hbound := mem_shifts_bounded hstop hfits he
  rwa [Nat.add_sub_cancel_left] at hbound

theorem ordered_noteFirstChange (v : View) (h : s.Ordered) : (s.noteFirstChange v).Ordered := by
  unfold Ordered
  rw [(adds_noteFirstChange v s).entries]
  exact grammar_firstChanges h

theorem ordered_afterPropertyChange (v : View) (start length : Nat) (name : String) (old : Json)
    (h : s.Ordered) : (s.afterPropertyChange v start length name old).Ordered := by
  unfold Ordered
  rw [(adds_afterPropertyChange v start length name old s).entries]
  exact grammar_firstChanges h

theorem ordered_endUnit (v : View) (h : s.Ordered) : (s.endUnit v).Ordered := by
  by_cases hon : s.log.disabled = false
  · unfold Ordered
    rw [entries_endUnit v hon, closing]
    split
    · exact h
    · rename_i hopen
      refine ⟨?_, h⟩
      intro hboundary
      have hhead : s.log.head? = some .boundary := hboundary
      exact hopen (by rw [Log.atBoundary, hhead]; rfl)
  · rw [endUnit, if_pos (by simpa using hon)]
    exact h

end Recording

end EditHistory
